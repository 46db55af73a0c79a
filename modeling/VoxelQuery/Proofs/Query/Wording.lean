import VoxelQuery.Proofs.Predicate.Legibility
import VoxelQuery.Proofs.Query.Congruence
import VoxelQuery.Proofs.Query.Grounding
import VoxelQuery.Proofs.Query.Respelling

/-! Compilation gives legible predicates, if what the names of an environment stand for is legible.
A text brings only words of its own, and they stay words in lower case. -/
namespace VoxelQuery

theorem ItemText.isWord_of_name {text : List Char} {item : PropertyItem} (h : ItemText text item)
    {name : String} (hname : item.name = some name) : Text.isWord name.toList = true := by
  cases h with
  | unnamed hne words => cases hname
  | named hword hbefore hbehind hne words =>
    cases hname
    rwa [String.toList_ofList]

theorem SegmentText.exists_atomText {text : List Char} {terms : List Term}
    (h : SegmentText text terms) : ∀ t ∈ terms, ∃ raw, AtomText raw t.atom := by
  induction h with
  | nil => simp
  | gap hc tail ih => exact ih
  | plain h longest tail ih => exact List.forall_mem_cons.2 ⟨⟨_, h⟩, ih⟩
  | negated hgaps h longest tail ih => exact List.forall_mem_cons.2 ⟨⟨_, h⟩, ih⟩

/-- Whatever a text asks for is written in it. -/
theorem Mentions.exists_atomText {text : String} {atom : Atom} (h : Mentions text atom) :
    ∃ raw, AtomText raw atom := by
  obtain ⟨query, hquery, terms, hterms, t, ht, rfl⟩ := h
  have hall : ∀ terms ∈ query, ∀ t ∈ terms, ∃ raw, AtomText raw t.atom :=
    Listed.forall_mem (fun _ _ hterms => hterms.exists_atomText) hquery
  exact hall terms hterms t ht

namespace Predicate

variable {r : Registry}

theorem legible_combine (connective : Connective) {children : List Predicate}
    (h : ∀ child ∈ children, child.Legible r) : (combine connective children).Legible r := by
  refine combine_of_forall .always .never (fun connective children hmany hall => ?_) connective h
  exact .combination connective (List.ne_nil_of_length_pos (by omega)) hall

theorem legible_ofProperty {name : String} {values : List String}
    (hname : Text.isWord name.toList = true)
    (hvalues : ∀ value ∈ values, Text.isWord value.toList = true) (hne : values ≠ []) :
    (ofProperty name values).Legible r := by
  refine .property (Text.isWord_lower hname) ?_ (distinct_ne_nil (by simpa using hne))
  intro value hvalue
  rw [mem_distinct] at hvalue
  obtain ⟨raw, hraw, rfl⟩ := List.mem_map.1 hvalue
  exact Text.isWord_lower (hvalues raw hraw)

theorem congruence_legible (r : Registry) : Congruence fun _ q => q.Legible r where
  negation h := .negation h
  combine connective l m h := by
    apply legible_combine
    intro q hq
    obtain ⟨p, -, hlegible⟩ := exists_of_forall₂ h hq
    exact hlegible

end Predicate

namespace Environment

/-- What the names stand for is legible, and so is the property that is meant by no name. -/
structure Legible (env : Environment) (r : Registry) : Prop where
  identifier : ∀ name identifier, env.identifier? name = some identifier → ')' ∉ identifier.toList
  typeTag : ∀ name tag, env.typeTag? name = some tag → ')' ∉ tag.name.toList ∧ r.HasTypeTag tag
  material : ∀ name m, env.material? name = some m → ')' ∉ m.name.toList ∧ r.HasMaterial m
  query : ∀ name p, env.query? name = some p → p.Legible r
  defaultName : Text.isWord env.defaultName = true

namespace Legible

variable {env : Environment} {r : Registry} (h : env.Legible r)

include h

theorem isWord_propertyName {raw : List Char} {item : PropertyItem} (hitem : ItemText raw item) :
    Text.isWord (env.propertyName item).toList = true := by
  rw [propertyName]
  cases hname : item.name with
  | none => exact h.defaultName
  | some name => exact hitem.isWord_of_name hname

theorem atomPredicate {raw : List Char} {atom : Atom} (hatom : AtomText raw atom) {p : Predicate}
    (hp : env.atomPredicate? atom = some p) : p.Legible r := by
  cases hatom with
  | bare hname =>
    obtain ⟨identifier, hid, rfl⟩ := Option.map_eq_some_iff.1 hp
    exact .block (h.identifier _ identifier hid)
  | group opening closing hitems =>
    cases hp
    refine Predicate.legible_combine _ (List.forall_mem_map.2 ?_)
    refine hitems.forall_mem fun raw item hitem => ?_
    exact Predicate.legible_ofProperty (h.isWord_propertyName hitem)
      (fun value hvalue => hitem.isWord_of_mem hvalue) hitem.values_ne_nil
  | marked sigil hname =>
    cases sigil with
    | typeTag =>
      obtain ⟨tag, htag, rfl⟩ := Option.map_eq_some_iff.1 hp
      obtain ⟨hclose, hhas⟩ := h.typeTag _ tag htag
      exact .typeTag false hclose hhas
    | strictTypeTag =>
      obtain ⟨tag, htag, rfl⟩ := Option.map_eq_some_iff.1 hp
      obtain ⟨hclose, hhas⟩ := h.typeTag _ tag htag
      exact .typeTag true hclose hhas
    | material =>
      obtain ⟨m, hm, rfl⟩ := Option.map_eq_some_iff.1 hp
      obtain ⟨hclose, hhas⟩ := h.material _ m hm
      exact .material hclose hhas
    | reference => exact h.query _ p hp

theorem compile {text : String} {p : Predicate} (hp : env.compile text = .ok p) :
    p.Legible r := by
  have hmentioned : ∀ atom, Mentions text atom → ∀ q, env.atomPredicate? atom = some q →
      ∃ q', env.atomPredicate? atom = some q' ∧ q'.Legible r := by
    intro atom hatom q hq
    obtain ⟨raw, hraw⟩ := hatom.exists_atomText
    exact ⟨q, hq, h.atomPredicate hraw hq⟩
  obtain ⟨p', hp', hlegible⟩ := compile_congr (Predicate.congruence_legible r) hmentioned hp
  rw [hp] at hp'
  cases hp'
  exact hlegible

end Legible

end Environment

end VoxelQuery
