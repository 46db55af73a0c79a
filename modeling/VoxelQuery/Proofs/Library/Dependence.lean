import Mathlib.Data.Fintype.Card
import Mathlib.Data.Set.Finite.List
import Mathlib.Order.WellFounded
import VoxelQuery.Proofs.Library.Loading

/-! References among saved queries. Queries that were accepted once can all be loaded again if and
only if none of them depends on itself, directly or by way of others. -/
namespace VoxelQuery

open Relation

/-- Among the members of a list, a property that always has a successor goes round in a cycle. -/
theorem exists_cycle {α : Type} {r : α → α → Prop} {l : List α} {P : α → Prop}
    (hne : ∃ a ∈ l, P a) (h : ∀ a ∈ l, P a → ∃ b ∈ l, P b ∧ r a b) : ∃ a, TransGen r a a := by
  by_contra hcycle
  rw [not_exists] at hcycle
  have hfinite : Finite { a // a ∈ l ∧ P a } :=
    ((List.finite_toSet l).subset fun a ha => ha.1).to_subtype
  have htrans : IsTrans { a // a ∈ l ∧ P a } fun a b => TransGen r b.1 a.1 :=
    ⟨fun a b c hab hbc => hbc.trans hab⟩
  have hirrefl : Std.Irrefl fun a b : { a // a ∈ l ∧ P a } => TransGen r b.1 a.1 :=
    ⟨fun a => hcycle a.1⟩
  have hwf : WellFounded fun a b : { a // a ∈ l ∧ P a } => TransGen r b.1 a.1 :=
    Finite.wellFounded_of_trans_of_irrefl _
  obtain ⟨first, hfirst⟩ := hne
  obtain ⟨a, -, hmin⟩ := hwf.has_min Set.univ ⟨⟨first, hfirst⟩, trivial⟩
  obtain ⟨b, hb, hPb, hab⟩ := h a.1 a.2.1 a.2.2
  exact hmin ⟨b, hb, hPb⟩ trivial (.single hab)

/-- A saved query refers to a name that is not stored already. -/
def DependsOn (s : QueryStore) (rows : List SavedQuery) (name other : String) : Prop :=
  ∃ saved ∈ rows, saved.name = name ∧ References saved.text other ∧ ¬s.Registered other

section Acyclic

variable {c : Context} {s : QueryStore} {rows : List SavedQuery} {name : String}

theorem Loadable.not_transGen (hnodup : (rows.map SavedQuery.name).Nodup)
    (h : Loadable c s rows name) : ¬TransGen (DependsOn s rows) name name := by
  induction h with
  | @row saved hrow supported references ih =>
    intro hcycle
    obtain ⟨other, hstep, hback⟩ := TransGen.head'_iff.1 hcycle
    obtain ⟨same, hsame, hname, href, hnot⟩ := id hstep
    rw [List.inj_on_of_nodup_map hnodup hsame hrow hname] at href
    exact ih other href hnot (TransGen.tail' hback hstep)

theorem loadable_iff_acyclic (hnodup : (rows.map SavedQuery.name).Nodup)
    (supported : ∀ saved ∈ rows, c.Supports saved.text)
    (closed : ∀ saved ∈ rows, ∀ name, References saved.text name →
      s.Registered name ∨ name ∈ rows.map SavedQuery.name) :
    (∀ saved ∈ rows, Loadable c s rows saved.name) ↔
      ∀ name, ¬TransGen (DependsOn s rows) name name := by
  constructor
  · intro hall name hcycle
    obtain ⟨other, ⟨saved, hsaved, hname, -⟩, -⟩ := TransGen.head'_iff.1 hcycle
    rw [← hname] at hcycle
    exact (hall saved hsaved).not_transGen hnodup hcycle
  · intro hacyclic saved hsaved
    by_contra hnot
    -- A query that cannot be loaded needs another one that cannot be loaded either.
    have hnext : ∀ name ∈ rows.map SavedQuery.name, ¬Loadable c s rows name →
        ∃ other ∈ rows.map SavedQuery.name, ¬Loadable c s rows other ∧
          DependsOn s rows name other := by
      intro name hname hlost
      obtain ⟨row, hrow, rfl⟩ := List.mem_map.1 hname
      by_contra hstuck
      refine hlost (.row hrow (supported row hrow) fun other href hother => ?_)
      by_contra hload
      have hmem := (closed row hrow other href).resolve_left hother
      exact hstuck ⟨other, hmem, hload, row, hrow, rfl, href, hother⟩
    obtain ⟨name, hcycle⟩ := exists_cycle ⟨_, List.mem_map_of_mem hsaved, hnot⟩ hnext
    exact hacyclic name hcycle

end Acyclic

end VoxelQuery
