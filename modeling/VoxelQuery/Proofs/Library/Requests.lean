import VoxelQuery.Catalog.Assembly
import VoxelQuery.Proofs.History
import VoxelQuery.Proofs.Library.Session

/-! Requests to a library: queries are declared, defined or only compiled, with success or not. What
became of the store, of the declarations and of the saved rows can be read off the registrations
that succeeded, in their order. -/
namespace VoxelQuery

def Database.saveRow (table : Table String SavedQuery) (d : Stamp × QuerySpec) :
    Table String SavedQuery :=
  table.put d.2.name (savedRow table d.1 d.2)

theorem Keyed.saveRow {table : Table String SavedQuery} (h : Keyed table) (d : Stamp × QuerySpec) :
    Keyed (Database.saveRow table d) := by
  have hput := h.put (Database.savedRow table d.1 d.2)
  rwa [h.name_savedRow] at hput

namespace Library

open Database (saveRow)

inductive Request where
  | declare (q : QuerySpec)
  | define (stamp : Stamp) (q : QuerySpec)
  | compile (text : String)

def perform (l : Library) : Request → Library
  | .declare q => l.step (.declare q)
  | .define stamp q => l.step (.define stamp q)
  | .compile _ => l

def performAll (l : Library) (requests : List Request) : Library := requests.foldl perform l

/-- A declaration or definition that succeeded, with the predicate that its text was compiled to. -/
inductive Registration where
  | declared (q : QuerySpec) (p : Predicate)
  | saved (stamp : Stamp) (q : QuerySpec) (p : Predicate)

namespace Registration

def query : Registration → QuerySpec
  | declared q _ => q
  | saved _ q _ => q

def name (g : Registration) : String := g.query.name

def predicate : Registration → Predicate
  | declared _ p => p
  | saved _ _ p => p

def source : Registration → Source
  | declared _ _ => .declared
  | saved _ _ _ => .saved

def declaration? : Registration → Option QuerySpec
  | declared q _ => some q
  | saved _ _ _ => none

def definition? : Registration → Option (Stamp × QuerySpec)
  | declared _ _ => none
  | saved stamp q _ => some (stamp, q)

end Registration

def registration? (l : Library) : Request → Option Registration
  | .declare q =>
    match l.context.declare q with
    | .ok (_, p) => some (.declared q p)
    | .error _ => none
  | .define stamp q =>
    match (l.define stamp q).1, l.context.compile q.text with
    | .ok _, .ok p => some (.saved stamp q p)
    | _, _ => none
  | .compile _ => none

/-- The registrations that requests lead to, in their order. -/
def registrations (l : Library) (requests : List Request) : List Registration :=
  trace perform registration? l requests

def record (l : Library) : Registration → Library
  | .declared q p =>
    { l with context := { l.context with
        store := l.context.store.put q.name p
        declared := l.context.declared.put q.name q } }
  | .saved stamp q p =>
    ⟨l.context.withStore (l.context.store.put q.name p),
      { l.database with table? := l.database.table?.map fun table => saveRow table (stamp, q) }⟩

/-- The store takes names, and rows stand under theirs. -/
structure Open (l : Library) : Prop where
  frozen : l.context.store.frozen = false
  keyed : ∀ table, l.database.table? = some table → Keyed table

variable {l : Library}

theorem Open.record (h : l.Open) (g : Registration) : (l.record g).Open := by
  cases g with
  | declared q p => exact ⟨h.frozen, h.keyed⟩
  | saved stamp q p =>
    refine ⟨h.frozen, fun table htable => ?_⟩
    obtain ⟨old, hold, rfl⟩ := Option.map_eq_some_iff.1 htable
    exact (h.keyed old hold).saveRow (stamp, q)

theorem declare_of_compile_ok (h : l.context.store.frozen = false) {q : QuerySpec} {p : Predicate}
    (hp : l.context.compile q.text = .ok p) :
    l.context.declare q = .ok ((l.record (.declared q p)).context, p) :=
  Context.declare_eq_ok_iff.2 ⟨hp, h, rfl⟩

theorem declare_of_compile_error {c : Context} {q : QuerySpec} {e : QueryError}
    (he : c.compile q.text = .error e) : c.declare q = .error (.query e) := by
  have hregister : c.register q.name q.text = .error (.query e) := by
    rw [Context.register, he]
  rw [Context.declare, hregister]
  rfl

theorem Open.define_of_save_ok (h : l.Open) {stamp : Stamp} {q : QuerySpec} {p : Predicate}
    {saved : Database} {row : SavedQuery} (hp : l.context.compile q.text = .ok p)
    (hrow : l.database.save stamp q = .ok (saved, row)) :
    l.define stamp q = (.ok row, l.record (.saved stamp q p)) := by
  rw [Library.define_of_save_ok hp hrow h.frozen]
  obtain ⟨table, htable, rfl, rfl⟩ := Database.save_eq_ok_iff.1 hrow
  rw [(h.keyed table htable).name_savedRow, Library.record, htable]
  rfl

/-- A request does what its registration says, and nothing if there is none. -/
theorem Open.perform_eq (h : l.Open) (request : Request) :
    l.perform request = (l.registration? request).elim l l.record := by
  cases request with
  | compile text => rfl
  | declare q =>
    cases hp : l.context.compile q.text with
    | error e => simp only [perform, step, registration?, declare_of_compile_error hp, Option.elim_none]
    | ok p =>
      simp only [perform, step, registration?, declare_of_compile_ok h.frozen hp, Option.elim_some]
      rfl
  | define stamp q =>
    cases hp : l.context.compile q.text with
    | error e =>
      simp only [perform, step, registration?, define_of_compile_error hp, Option.elim_none]
    | ok p =>
      cases hrow : l.database.save stamp q with
      | error e =>
        simp only [perform, step, registration?, define_of_save_error hp hrow, Option.elim_none]
      | ok result =>
        obtain ⟨saved, row⟩ := result
        simp only [perform, step, registration?, h.define_of_save_ok hp hrow, hp, Option.elim_some]

theorem Open.perform (h : l.Open) (request : Request) : (l.perform request).Open := by
  rw [h.perform_eq]
  cases l.registration? request with
  | none => exact h
  | some g => exact h.record g

/-- What requests make of a library is told by their registrations. -/
theorem Open.performAll_eq (h : l.Open) (requests : List Request) :
    l.performAll requests = (l.registrations requests).foldl Library.record l :=
  foldl_eq_foldl_trace (fun l => l) Library.record (fun _ request h => h.perform request)
    (fun _ request h => h.perform_eq request) h requests

section Views

variable (l : Library) (history : List Registration)

/-- Registrations leave all of a context as it was but its store and its declarations. -/
theorem context_foldl_record :
    ∃ store declared, (history.foldl Library.record l).context =
      { l.context with store := store, declared := declared } := by
  induction history generalizing l with
  | nil => exact ⟨_, _, rfl⟩
  | cons g rest ih =>
    obtain ⟨store, declared, h⟩ := ih (l.record g)
    refine ⟨store, declared, h.trans ?_⟩
    cases g <;> rfl

theorem predicates_foldl_record :
    (history.foldl Library.record l).context.store.predicates =
      history.foldl (fun t g => t.put g.name g.predicate) l.context.store.predicates := by
  symm
  refine List.foldl_hom (fun l : Library => l.context.store.predicates) fun l g => ?_
  cases g <;> rfl

theorem declared_foldl_record :
    (history.foldl Library.record l).context.declared =
      (history.filterMap Registration.declaration?).foldl (fun t q => t.put q.name q)
        l.context.declared := by
  rw [List.foldl_filterMap]
  symm
  refine List.foldl_hom (fun l : Library => l.context.declared) fun l g => ?_
  cases g <;> rfl

theorem table?_foldl_record {table : Table String SavedQuery}
    (htable : l.database.table? = some table) :
    (history.foldl Library.record l).database.table? =
      some ((history.filterMap Registration.definition?).foldl saveRow table) := by
  induction history generalizing l table with
  | nil => exact htable
  | cons g rest ih =>
    rw [List.foldl_cons]
    cases g with
    | declared q p => exact ih _ htable
    | saved stamp q p =>
      have hnext : (l.record (.saved stamp q p)).database.table? = some (saveRow table (stamp, q)) := by
        rw [Library.record, htable]
        rfl
      exact ih _ hnext

end Views

end Library

/-- The queries of a catalog are registrations like those of a session. -/
theorem Catalog.exists_history {start c : Context} {queries : List QuerySpec} (db : Database)
    (h : declareAll start queries = .ok c) :
    ∃ history : List Library.Registration, history.filterMap Library.Registration.declaration? = queries ∧
      history.filterMap Library.Registration.definition? = [] ∧
      history.foldl Library.record ⟨start, db⟩ = ⟨c, db⟩ := by
  induction queries generalizing start with
  | nil =>
    cases h
    exact ⟨[], rfl, rfl, rfl⟩
  | cons q rest ih =>
    obtain ⟨next, p, hdeclare, hrest⟩ := declareAll_cons_eq_ok_iff.1 h
    obtain ⟨history, hdeclared, hdefined, hhistory⟩ := ih hrest
    obtain ⟨-, -, rfl⟩ := Context.declare_eq_ok_iff.1 hdeclare
    exact ⟨.declared q p :: history, congrArg (q :: ·) hdeclared, hdefined, hhistory⟩

end VoxelQuery
