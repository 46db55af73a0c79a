import VoxelQuery.Proofs.Predicate.Grounded
import VoxelQuery.Proofs.Query.Denotation

/-! Compilation gives grounded predicates, if what the names of an environment stand for is grounded.
A text brings only words of its own, which are put in lower case. -/
namespace VoxelQuery

theorem Listed.forall_mem {α : Type} {part : List Char → α → Prop} {P : α → Prop}
    (hpart : ∀ raw a, part raw a → P a) {text : List Char} {found : List α}
    (h : Listed part text found) : ∀ a ∈ found, P a := by
  induction h with
  | last h => exact List.forall_mem_singleton.2 (hpart _ _ h)
  | more h tail ih => exact List.forall_mem_cons.2 ⟨hpart _ _ h, ih⟩

theorem ItemText.values_ne_nil {text : List Char} {item : PropertyItem} (h : ItemText text item) :
    item.values ≠ [] := by
  cases h with
  | unnamed hne words => simpa using hne
  | named hname hbefore hbehind hne words => simpa using hne

/-- Every item of a group accepts some value. -/
def Atom.Accepting : Atom → Prop
  | .group items => ∀ item ∈ items, item.values ≠ []
  | _ => True

theorem AtomText.accepting {text : List Char} {atom : Atom} (h : AtomText text atom) :
    atom.Accepting := by
  cases h with
  | bare h => trivial
  | marked sigil h => trivial
  | group opening closing h => exact h.forall_mem fun _ _ hitem => hitem.values_ne_nil

theorem SegmentText.accepting {text : List Char} {terms : List Term} (h : SegmentText text terms) :
    ∀ t ∈ terms, t.atom.Accepting := by
  induction h with
  | nil => simp
  | gap hc tail ih => exact ih
  | plain h longest tail ih => exact List.forall_mem_cons.2 ⟨h.accepting, ih⟩
  | negated hgaps h longest tail ih => exact List.forall_mem_cons.2 ⟨h.accepting, ih⟩

namespace Environment

/-- What the names stand for are entries of a registry, and predicates that are grounded in it. -/
structure Grounded (env : Environment) (r : Registry) : Prop where
  identifier : ∀ name identifier, env.identifier? name = some identifier → r.HasBlock identifier
  typeTag : ∀ name tag, env.typeTag? name = some tag → r.HasTypeTag tag
  material : ∀ name m, env.material? name = some m → r.HasMaterial m
  query : ∀ name p, env.query? name = some p → p.Grounded r

namespace Grounded

variable {env : Environment} {r : Registry} (h : env.Grounded r)

include h

theorem atomPredicate {atom : Atom} {p : Predicate} (hatom : atom.Accepting)
    (hp : env.atomPredicate? atom = some p) : p.Grounded r := by
  cases atom with
  | bare name =>
    obtain ⟨identifier, hid, rfl⟩ := Option.map_eq_some_iff.1 hp
    exact .block (h.identifier name identifier hid)
  | group items =>
    cases hp
    apply Predicate.grounded_combine
    refine List.forall_mem_map.2 fun item hitem => ?_
    exact Predicate.grounded_ofProperty _ (hatom item hitem)
  | marked sigil name =>
    cases sigil with
    | typeTag =>
      obtain ⟨tag, htag, rfl⟩ := Option.map_eq_some_iff.1 hp
      exact .typeTag false (h.typeTag name tag htag)
    | strictTypeTag =>
      obtain ⟨tag, htag, rfl⟩ := Option.map_eq_some_iff.1 hp
      exact .typeTag true (h.typeTag name tag htag)
    | material =>
      obtain ⟨m, hm, rfl⟩ := Option.map_eq_some_iff.1 hp
      exact .material (h.material name m hm)
    | reference => exact h.query name p hp

theorem termPredicate {t : Term} {p : Predicate} (ht : t.atom.Accepting)
    (hp : env.termPredicate? t = some p) : p.Grounded r := by
  obtain ⟨q, hq, rfl⟩ := Option.map_eq_some_iff.1 hp
  have hatom := h.atomPredicate ht hq
  split
  · exact .negation hatom
  · exact hatom

theorem segmentPredicate {segment : String} {p : Predicate}
    (hp : env.segmentPredicate segment = .ok p) : p.Grounded r := by
  obtain ⟨terms, hsegment, predicates, hterms, rfl⟩ := segmentPredicate_eq_ok_iff.1 hp
  apply Predicate.grounded_combine
  intro q hq
  obtain ⟨t, ht, hterm⟩ := exists_of_forall₂ hterms hq
  exact h.termPredicate (hsegment.accepting t ht) hterm

theorem compile {text : String} {p : Predicate} (hp : env.compile text = .ok p) :
    p.Grounded r := by
  obtain ⟨predicates, hall, rfl⟩ := compile_eq_ok_iff.1 hp
  apply Predicate.grounded_combine
  intro q hq
  obtain ⟨segment, -, hsegment⟩ := exists_of_forall₂ hall hq
  exact h.segmentPredicate hsegment

end Grounded

end Environment

end VoxelQuery
