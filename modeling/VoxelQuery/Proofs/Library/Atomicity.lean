import Mathlib
import VoxelQuery.Proofs.Library.Run

/-! The outcome of a definition. It takes effect in the table and in the store, and under no name but
its own, or it fails and leaves everything as it was. There is one exception: a store that is frozen
is found out only after the row was saved, and the row stays. -/
namespace VoxelQuery.Library

/-- The row is saved and the predicate is registered, and other names stand for what they stood for. -/
structure TakesEffect (l : Library) (q : QuerySpec) (row : SavedQuery) (next : Library) : Prop where
  saved : next.database.find? q.name = .ok (some row)
  name : row.name = q.name
  text : row.text = q.text
  description : row.description = q.description
  otherRows : ∀ name, name ≠ q.name → next.database.find? name = l.database.find? name
  registered : ∃ p, l.context.compile q.text = .ok p ∧ next.context.store.lookup? q.name = some p
  otherNames : ∀ name, name ≠ q.name →
    next.context.store.lookup? name = l.context.store.lookup? name
  rest : next.context = l.context.withStore next.context.store

/-- A definition that succeeds takes effect, one that fails changes nothing. -/
def AllOrNothing (l : Library) (q : QuerySpec) : Except Failure SavedQuery × Library → Prop
  | (.ok row, next) => l.TakesEffect q row next
  | (.error _, next) => next = l

/-- The text compiles and the row can be saved, but the store takes no more names. -/
structure FailsLate (l : Library) (stamp : Stamp) (q : QuerySpec) (saved : Database) : Prop where
  compiles : ∃ p, l.context.compile q.text = .ok p
  saves : ∃ row, l.database.save stamp q = .ok (saved, row)
  frozen : l.context.store.frozen = true

variable {l : Library} {stamp : Stamp} {q : QuerySpec}

theorem FailsLate.define_eq {saved : Database} (h : l.FailsLate stamp q saved) :
    l.define stamp q = (.error .storeFrozen, { l with database := saved }) := by
  obtain ⟨p, hp⟩ := h.compiles
  obtain ⟨row, hrow⟩ := h.saves
  have hstore : l.context.store.register row.name p = .error .storeFrozen := by
    rw [QueryStore.register, if_pos h.frozen]
  rw [define]
  simp only [hp, hrow, hstore]

theorem takesEffect_of_save {p : Predicate} {saved : Database} {row : SavedQuery}
    (hp : l.context.compile q.text = .ok p) (hrow : l.database.save stamp q = .ok (saved, row))
    (hname : row.name = q.name) :
    l.TakesEffect q row ⟨l.context.withStore (l.context.store.put q.name p), saved⟩ := by
  obtain ⟨table, htable, rfl, rfl⟩ := Database.save_eq_ok_iff.1 hrow
  refine ⟨?_, hname, text_savedRow table stamp q, ?_, ?_, ⟨p, hp, ?_⟩, ?_, rfl⟩
  · rw [Database.find?_put _ _ _ htable, if_pos rfl]
  · unfold Database.savedRow
    split <;> rfl
  · intro name hne
    rw [Database.find?_put _ _ _ htable, if_neg (Ne.symm hne)]
  · exact (QueryStore.lookup?_put _ _ _ _).trans (if_pos rfl)
  · intro name hne
    exact (QueryStore.lookup?_put _ _ _ _).trans (if_neg (Ne.symm hne))

/-- All or nothing, unless the store is frozen. Then a query that compiles and can be saved is saved
although its definition fails. -/
theorem define_allOrNothing (hkeyed : ∀ table, l.database.table? = some table → Keyed table)
    (stamp : Stamp) (q : QuerySpec) :
    ((∀ saved, ¬l.FailsLate stamp q saved) → l.AllOrNothing q (l.define stamp q)) ∧
      ∀ saved, l.FailsLate stamp q saved →
        l.define stamp q = (.error .storeFrozen, { l with database := saved }) := by
  refine ⟨fun hlate => ?_, fun saved h => h.define_eq⟩
  cases hp : l.context.compile q.text with
  | error e =>
    rw [define_of_compile_error hp]
    rfl
  | ok p =>
    cases hrow : l.database.save stamp q with
    | error e =>
      rw [define_of_save_error hp hrow]
      rfl
    | ok result =>
      obtain ⟨saved, row⟩ := result
      have hstore : l.context.store.frozen = false := by
        by_contra hfrozen
        exact hlate saved ⟨⟨p, hp⟩, ⟨row, hrow⟩, by simpa using hfrozen⟩
      have hname : row.name = q.name := by
        obtain ⟨table, htable, rfl, -⟩ := Database.save_eq_ok_iff.1 hrow
        exact (hkeyed table htable).name_savedRow stamp q
      rw [define_of_save_ok hp hrow hstore, hname]
      exact takesEffect_of_save hp hrow hname

def roomyRow : SavedQuery := ⟨"1", "roomy", none, "@airAbove", "2026", "2026"⟩

/-- One query is saved. -/
def oneRow : Database := ⟨1, some (Table.empty.put roomyRow.name roomyRow)⟩

theorem keyed_oneRow : ∀ table, oneRow.table? = some table → Keyed table := by
  intro table htable
  cases htable
  exact Keyed.empty.put roomyRow

/-- The saved query is defined again. -/
theorem define_allOrNothing_roomy :
    (∀ table, oneRow.table? = some table → Keyed table) ∧
      AllOrNothing ⟨Context.bare, oneRow⟩ ⟨"roomy", some "open", "!@nothing"⟩
        (define ⟨Context.bare, oneRow⟩ ⟨"2", "2027"⟩ ⟨"roomy", some "open", "!@nothing"⟩) := by
  refine ⟨keyed_oneRow, (define_allOrNothing keyed_oneRow _ _).1 fun saved hlate => ?_⟩
  cases hlate.frozen

/-- In a frozen store a definition fails and yet saves its row. -/
theorem not_allOrNothing_frozen :
    ¬AllOrNothing ⟨Context.bare.withStore Context.bare.store.freeze, oneRow⟩
        ⟨"late", none, "@anything"⟩
        (define ⟨Context.bare.withStore Context.bare.store.freeze, oneRow⟩ ⟨"2", "2027"⟩
          ⟨"late", none, "@anything"⟩) := by
  have hlate : ∃ saved, FailsLate ⟨Context.bare.withStore Context.bare.store.freeze, oneRow⟩
      ⟨"2", "2027"⟩ ⟨"late", none, "@anything"⟩ saved ∧ saved ≠ oneRow := by
    exact ⟨_, ⟨⟨_, by cbv⟩, ⟨_, rfl⟩, rfl⟩, by decide⟩
  obtain ⟨saved, hsaved, hne⟩ := hlate
  rw [hsaved.define_eq]
  intro h
  exact hne (congrArg Library.database h)

end VoxelQuery.Library
