import Mathlib.Data.List.Nodup
import VoxelQuery.Catalog.Assembly
import VoxelQuery.Library.Basic
import VoxelQuery.Proofs.Query.Agreement
import VoxelQuery.Proofs.Query.Congruence

/-! Registration of queries, one after the other, in a context of which only the store changes.
Names are never taken back, and what compiles can be told from the names that are there. -/
namespace VoxelQuery

namespace QueryStore

def put (s : QueryStore) (name : String) (p : Predicate) : QueryStore :=
  { s with predicates := s.predicates.put name p }

@[simp] theorem lookup?_put (s : QueryStore) (name other : String) (p : Predicate) :
    (s.put name p).lookup? other = if name = other then some p else s.lookup? other :=
  Table.get?_put _ _ _ _

@[simp] theorem frozen_put (s : QueryStore) (name : String) (p : Predicate) :
    (s.put name p).frozen = s.frozen := rfl

theorem register_of_not_frozen {s : QueryStore} (h : s.frozen = false) (name : String)
    (p : Predicate) : s.register name p = .ok (s.put name p) := by
  rw [register, if_neg (by simp [h])]
  rfl

theorem register_eq_ok_iff {s t : QueryStore} {name : String} {p : Predicate} :
    s.register name p = .ok t ↔ s.frozen = false ∧ t = s.put name p := by
  unfold register
  split
  · next h => simp [h]
  · next h =>
    have hopen : s.frozen = false := by simpa using h
    constructor
    · intro heq
      cases heq
      exact ⟨hopen, rfl⟩
    · rintro ⟨-, rfl⟩
      rfl

def Registered (s : QueryStore) (name : String) : Prop := ∃ p, s.lookup? name = some p

/-- All that is stored here is stored there, and stands for the same predicate. -/
def Within (s t : QueryStore) : Prop := ∀ name p, s.lookup? name = some p → t.lookup? name = some p

variable {s t last : QueryStore} {name other : String} {p : Predicate}

theorem Within.trans (h : s.Within t) (h' : t.Within last) : s.Within last :=
  fun name p hp => h' name p (h name p hp)

theorem registered_put_iff : (s.put name p).Registered other ↔ name = other ∨ s.Registered other := by
  rw [Registered, lookup?_put]
  by_cases h : name = other <;> simp [h, Registered]

theorem within_put (h : ¬s.Registered name) : s.Within (s.put name p) := by
  intro other q hq
  have hne : name ≠ other := by
    rintro rfl
    exact h ⟨q, hq⟩
  rw [lookup?_put, if_neg hne, hq]

/-- Any names can be added to those of a store. -/
theorem exists_registered_iff (s : QueryStore) (names : List String) :
    ∃ t : QueryStore, ∀ name, t.Registered name ↔ s.Registered name ∨ name ∈ names := by
  induction names with
  | nil => exact ⟨s, by simp⟩
  | cons first rest ih =>
    obtain ⟨t, ht⟩ := ih
    refine ⟨t.put first .always, fun name => ?_⟩
    rw [registered_put_iff, ht, List.mem_cons, or_left_comm, eq_comm]

end QueryStore

namespace Context

def withStore (c : Context) (s : QueryStore) : Context := { c with store := s }

variable {c : Context} {s t : QueryStore} {text : String} {p : Predicate}

theorem register_eq_ok_iff {next : Context} {name : String} :
    c.register name text = .ok (next, p) ↔
      c.compile text = .ok p ∧ c.store.frozen = false ∧ next = c.withStore (c.store.put name p) := by
  unfold register
  cases hp : c.compile text with
  | error e => simp
  | ok q =>
    simp only [map_eq_ok_iff, QueryStore.register_eq_ok_iff]
    constructor
    · rintro ⟨store, ⟨hopen, rfl⟩, heq⟩
      cases heq
      exact ⟨rfl, hopen, rfl⟩
    · rintro ⟨heq, hopen, rfl⟩
      cases heq
      exact ⟨_, ⟨hopen, rfl⟩, rfl⟩

/-- A declaration compiles, and then it is stored and listed. -/
theorem declare_eq_ok_iff {next : Context} {q : QuerySpec} :
    c.declare q = .ok (next, p) ↔
      c.compile q.text = .ok p ∧ c.store.frozen = false ∧
        next = { c with store := c.store.put q.name p, declared := c.declared.put q.name q } := by
  rw [declare, map_eq_ok_iff]
  constructor
  · rintro ⟨⟨mid, found⟩, hregister, heq⟩
    obtain ⟨hp, hopen, rfl⟩ := register_eq_ok_iff.1 hregister
    cases heq
    exact ⟨hp, hopen, rfl⟩
  · rintro ⟨hp, hopen, rfl⟩
    exact ⟨_, register_eq_ok_iff.2 ⟨hp, hopen, rfl⟩, rfl⟩

theorem environment_withStore (c : Context) (s : QueryStore) :
    (c.withStore s).environment = c.environment.withQueries s.lookup? := rfl

/-- The text would compile if the queries that it refers to were stored. -/
def Supports (c : Context) (text : String) : Prop := c.environment.Supports text

theorem exists_compile_iff :
    (∃ p, (c.withStore s).compile text = .ok p) ↔
      c.Supports text ∧ ∀ name, References text name → s.Registered name := by
  have hiff := @Environment.exists_compile_iff_references (c.withStore s).environment text
  rw [environment_withStore, Environment.supports_withQueries] at hiff
  exact hiff

theorem compile_mono (h : s.Within t) (hp : (c.withStore s).compile text = .ok p) :
    (c.withStore t).compile text = .ok p :=
  @Environment.compile_mono c.environment text s.lookup? t.lookup? h p hp

/-- With the same names registered, a text fails in the same way. -/
theorem compile_eq_error_iff (h : ∀ name, s.Registered name ↔ t.Registered name) (e : QueryError) :
    (c.withStore s).compile text = .error e ↔ (c.withStore t).compile text = .error e :=
  (@Environment.compile_failAlike c.environment s.lookup? t.lookup? h text).eq_error_iff e

/-- The presets alone, over no blocks. -/
def bare : Context :=
  create (.empty 0 Registry.standardTagPrefixes Registry.standardNamespace)
    Environment.standardProperty World.standardFillBlock

end Context

/-- Queries are declared in their order, and each of them has to compile at its turn. -/
theorem Catalog.declareAll_cons_eq_ok_iff {start c : Context} {q : QuerySpec}
    {rest : List QuerySpec} :
    declareAll start (q :: rest) = .ok c ↔
      ∃ next p, start.declare q = .ok (next, p) ∧ declareAll next rest = .ok c := by
  rw [declareAll, List.foldlM_cons, bind_eq_ok_iff]
  cases start.declare q with
  | error failure => simp
  | ok made =>
    obtain ⟨next, p⟩ := made
    constructor
    · rintro ⟨_, heq, hrest⟩
      cases heq
      exact ⟨next, p, rfl, hrest⟩
    · rintro ⟨_, _, heq, hrest⟩
      cases heq
      exact ⟨next, rfl, hrest⟩

/-- From one store to another by registering saved queries that compile at their turn. -/
inductive Registers (c : Context) (rows : List SavedQuery) :
    QueryStore → List String → QueryStore → Prop
  | refl (s : QueryStore) : Registers c rows s [] s
  | step {s last : QueryStore} {saved : SavedQuery} {p : Predicate} {names : List String}
      (hrow : saved ∈ rows) (hp : (c.withStore s).compile saved.text = .ok p)
      (tail : Registers c rows (s.put saved.name p) names last) :
      Registers c rows s (saved.name :: names) last

/-- The names that a context can have of some saved queries, whatever the order: each of them needs
only names that are stored already and names of this kind. -/
inductive Loadable (c : Context) (s : QueryStore) (rows : List SavedQuery) : String → Prop
  | row {saved : SavedQuery} (hrow : saved ∈ rows) (supported : c.Supports saved.text)
      (references : ∀ name, References saved.text name → ¬s.Registered name →
        Loadable c s rows name) : Loadable c s rows saved.name

/-- Of the saved queries only the names and the texts matter. -/
theorem Loadable.transfer {c : Context} {s : QueryStore} {rows others : List SavedQuery}
    {name : String} (h : Loadable c s rows name)
    (htwin : ∀ row ∈ rows, ∃ twin ∈ others, twin.name = row.name ∧ twin.text = row.text) :
    Loadable c s others name := by
  induction h with
  | @row saved hrow supported references ih =>
    obtain ⟨twin, hmem, hname, htext⟩ := htwin saved hrow
    rw [← hname]
    rw [← htext] at supported ih
    exact .row hmem supported ih

theorem Loadable.subset {c : Context} {s : QueryStore} {rows others : List SavedQuery}
    {name : String} (h : Loadable c s rows name) (hsub : ∀ row ∈ rows, row ∈ others) :
    Loadable c s others name :=
  h.transfer fun row hrow => ⟨row, hsub row hrow, rfl, rfl⟩

namespace Registers

variable {c : Context} {rows : List SavedQuery} {s t last : QueryStore} {names more : List String}

theorem append (h : Registers c rows s names t) (h' : Registers c rows t more last) :
    Registers c rows s (names ++ more) last := by
  induction h with
  | refl s => exact h'
  | step hrow hp tail ih => exact .step hrow hp (ih h')

theorem subset {others : List SavedQuery} (h : Registers c rows s names last)
    (hsub : ∀ saved ∈ rows, saved ∈ others) : Registers c others s names last := by
  induction h with
  | refl s => exact .refl s
  | step hrow hp tail ih => exact .step (hsub _ hrow) hp ih

theorem frozen_eq (h : Registers c rows s names last) : last.frozen = s.frozen := by
  induction h with
  | refl s => rfl
  | step hrow hp tail ih => rw [ih, QueryStore.frozen_put]

/-- The names registered in the end are those from before and those of the run. -/
theorem registered_iff (h : Registers c rows s names last) (name : String) :
    last.Registered name ↔ s.Registered name ∨ name ∈ names := by
  induction h with
  | refl s => simp
  | step hrow hp tail ih =>
    rw [ih, QueryStore.registered_put_iff, List.mem_cons, eq_comm (a := name)]
    constructor
    · rintro ((heq | hs) | hmem)
      · exact .inr (.inl heq)
      · exact .inl hs
      · exact .inr (.inr hmem)
    · rintro (hs | heq | hmem)
      · exact .inl (.inr hs)
      · exact .inl (.inl heq)
      · exact .inr hmem

/-- What was not registered in the run stands for what it stood for. -/
theorem lookup?_of_notMem (h : Registers c rows s names last) {name : String}
    (hname : name ∉ names) : last.lookup? name = s.lookup? name := by
  induction h with
  | refl s => rfl
  | step hrow hp tail ih =>
    rw [List.mem_cons, not_or] at hname
    rw [ih hname.2, QueryStore.lookup?_put, if_neg (Ne.symm hname.1)]

theorem loadable_of_registered (h : Registers c rows s names last) {start : QueryStore}
    (hstart : ∀ name, s.Registered name → start.Registered name ∨ Loadable c start rows name) :
    ∀ name ∈ names, Loadable c start rows name := by
  induction h with
  | refl s => simp
  | @step s last saved p names hrow hp tail ih =>
    obtain ⟨supported, references⟩ := Context.exists_compile_iff.1 ⟨p, hp⟩
    have hsaved : Loadable c start rows saved.name := by
      apply Loadable.row hrow supported
      intro name href hnot
      exact (hstart name (references name href)).resolve_left hnot
    refine List.forall_mem_cons.2 ⟨hsaved, ih ?_⟩
    intro name hname
    rcases QueryStore.registered_put_iff.1 hname with rfl | hs
    · exact .inr hsaved
    · exact hstart name hs

/-- A run registers only what can be loaded. -/
theorem loadable (h : Registers c rows s names last) : ∀ name ∈ names, Loadable c s rows name :=
  h.loadable_of_registered fun _ hname => .inl hname

/-- Names are only added, so what compiled at its turn compiles in the end. -/
theorem exists_compile (h : Registers c rows s names last) :
    ∀ name ∈ names, ∃ saved ∈ rows, saved.name = name ∧
      ∃ p, (c.withStore last).compile saved.text = .ok p := by
  induction h with
  | refl s => simp
  | @step s last saved p names hrow hp tail ih =>
    obtain ⟨supported, references⟩ := Context.exists_compile_iff.1 ⟨p, hp⟩
    refine List.forall_mem_cons.2 ⟨⟨saved, hrow, rfl, ?_⟩, ih⟩
    refine Context.exists_compile_iff.2 ⟨supported, fun name href => ?_⟩
    rw [tail.registered_iff, QueryStore.registered_put_iff]
    exact .inl (.inr (references name href))

/-- If no name is registered twice, the last store has, of each query that was registered, the
predicate that it compiles to there. -/
theorem solved (h : Registers c rows s names last) (hnodup : names.Nodup)
    (hfresh : ∀ name ∈ names, ¬s.Registered name) :
    s.Within last ∧ ∀ name ∈ names, ∃ saved ∈ rows, saved.name = name ∧
      ∃ p, (c.withStore last).compile saved.text = .ok p ∧ last.lookup? name = some p := by
  induction h with
  | refl s => exact ⟨fun _ _ hp => hp, by simp⟩
  | @step s last saved p names hrow hp tail ih =>
    obtain ⟨hnew, hnames⟩ := List.forall_mem_cons.1 hfresh
    obtain ⟨hnotMem, hrest⟩ := List.nodup_cons.1 hnodup
    have hput : s.Within (s.put saved.name p) := QueryStore.within_put hnew
    have hnext : ∀ name ∈ names, ¬(s.put saved.name p).Registered name := by
      intro name hname
      rw [QueryStore.registered_put_iff, not_or]
      refine ⟨?_, hnames name hname⟩
      rintro rfl
      exact hnotMem hname
    obtain ⟨hlast, hsolved⟩ := ih hrest hnext
    have hlookup : last.lookup? saved.name = some p :=
      hlast _ _ (by rw [QueryStore.lookup?_put, if_pos rfl])
    have hcompile := Context.compile_mono (hput.trans hlast) hp
    refine ⟨hput.trans hlast, List.forall_mem_cons.2 ⟨?_, hsolved⟩⟩
    exact ⟨saved, hrow, rfl, p, hcompile, hlookup⟩

/-- If a store has, of each saved query, the predicate that it compiles to there, then no run leads
out of that store. -/
theorem within (h : Registers c rows s names last) {live : QueryStore} (hs : s.Within live)
    (hlive : ∀ saved ∈ rows, ∀ p, (c.withStore live).compile saved.text = .ok p →
      live.lookup? saved.name = some p) : last.Within live := by
  induction h with
  | refl s => exact hs
  | @step s last saved p names hrow hp tail ih =>
    apply ih
    intro name q hq
    rw [QueryStore.lookup?_put] at hq
    split at hq
    · next heq =>
      cases hq
      rw [← heq]
      exact hlive saved hrow p (Context.compile_mono hs hp)
    · exact hs name q hq

end Registers

end VoxelQuery
