import Mathlib
import VoxelQuery.Predicate.Evaluation
import VoxelQuery.Proofs.Query.Denotation

/-! What a query says of a position, term by term, and that its predicate says the same. No
predicate stands between a text and its meaning, save those that references name. -/
namespace VoxelQuery

/-- From a tag to its ancestors, by any number of steps to the parent. -/
def TypeTag.Descends : TypeTag → TypeTag → Prop :=
  Relation.ReflTransGen fun tag parent => tag.parent? = some parent

theorem TypeTag.mem_lineage_iff {tag ancestor : TypeTag} :
    ancestor ∈ tag.lineage ↔ tag.Descends ancestor := by
  constructor
  · intro h
    induction tag with
    | root registry name =>
      rw [List.mem_singleton.1 h]
      exact .refl
    | derived name parent ih =>
      rcases List.mem_cons.1 h with rfl | h
      · exact .refl
      · exact .head rfl (ih h)
  · intro h
    induction h using Relation.ReflTransGen.head_induction_on with
    | refl => exact ancestor.self_mem_lineage
    | @head tag parent hparent _ ih =>
      cases tag with
      | root registry name => cases hparent
      | derived name parent' =>
        cases hparent
        exact List.mem_cons_of_mem _ ih

namespace Environment

variable (env : Environment) (scene : Scene) (here : Position)

/-- The property of the item is there, and its value is an accepted one up to letter case. -/
def ItemHolds (item : PropertyItem) : Prop :=
  ∃ value, (scene.stateAt here).property? (Text.lower (env.propertyName item)) = some value ∧
    ∃ accepted ∈ item.values, Text.lower value = Text.lower accepted

def AtomHolds : Atom → Prop
  | .bare name => env.identifier? name = some (scene.stateAt here).identifier
  | .marked .typeTag name =>
    ∃ tag, env.typeTag? name = some tag ∧ (scene.stateAt here).typeTag.Descends tag
  | .marked .strictTypeTag name => env.typeTag? name = some (scene.stateAt here).typeTag
  | .marked .material name => env.material? name = some (scene.stateAt here).material
  | .marked .reference name => ∃ q, env.query? name = some q ∧ q.holds scene here = true
  | .group items => ∀ item ∈ items, env.ItemHolds scene here item

/-- A bang turns the one atom behind it around. -/
def TermHolds (t : Term) : Prop :=
  if t.negated then ¬env.AtomHolds scene here t.atom else env.AtomHolds scene here t.atom

/-- Some segment of the text, read by the grammar, has only terms that hold. -/
def QueryHolds (text : String) : Prop :=
  ∃ segment ∈ segments text, ∃ terms, SegmentText segment.toList terms ∧
    ∀ t ∈ terms, env.TermHolds scene here t

variable {env scene here}

theorem holds_itemTest {item : PropertyItem} :
    (env.itemTest item).holds scene here = true ↔ env.ItemHolds scene here item := by
  have htest : (env.itemTest item).holds scene here =
      Predicate.passesProperty (Text.lower (env.propertyName item))
        (Predicate.distinct (item.values.map Text.lower)) (scene.stateAt here) := rfl
  rw [htest, Predicate.passesProperty, ItemHolds]
  cases (scene.stateAt here).property? (Text.lower (env.propertyName item)) with
  | none => simp
  | some value => simp [eq_comm]

theorem holds_atomPredicate {atom : Atom} {p : Predicate} (h : env.atomPredicate? atom = some p) :
    p.holds scene here = true ↔ env.AtomHolds scene here atom := by
  cases atom with
  | bare name =>
    obtain ⟨identifier, hid, rfl⟩ := Option.map_eq_some_iff.1 h
    have hblock : (Predicate.block identifier).holds scene here =
        decide ((scene.stateAt here).identifier = identifier) := rfl
    rw [hblock, AtomHolds, hid]
    simp [eq_comm]
  | group items =>
    cases h
    rw [Predicate.holds_allOf, AtomHolds]
    simp [holds_itemTest]
  | marked sigil name =>
    cases sigil with
    | typeTag =>
      obtain ⟨tag, htag, rfl⟩ := Option.map_eq_some_iff.1 h
      have htest : (Predicate.typeTag tag false).holds scene here =
          (scene.stateAt here).typeTag.derivesFrom tag := rfl
      rw [htest, AtomHolds, htag, TypeTag.derivesFrom]
      simp [TypeTag.mem_lineage_iff]
    | strictTypeTag =>
      obtain ⟨tag, htag, rfl⟩ := Option.map_eq_some_iff.1 h
      have htest : (Predicate.typeTag tag true).holds scene here =
          decide ((scene.stateAt here).typeTag = tag) := rfl
      rw [htest, AtomHolds, htag]
      simp [eq_comm]
    | material =>
      obtain ⟨m, hm, rfl⟩ := Option.map_eq_some_iff.1 h
      have htest : (Predicate.material m).holds scene here =
          decide ((scene.stateAt here).material = m) := rfl
      rw [htest, AtomHolds, hm]
      simp [eq_comm]
    | reference =>
      have hp : env.query? name = some p := h
      rw [AtomHolds, hp]
      simp

theorem holds_termPredicate {t : Term} {p : Predicate} (h : env.termPredicate? t = some p) :
    p.holds scene here = true ↔ env.TermHolds scene here t := by
  obtain ⟨q, hq, rfl⟩ := Option.map_eq_some_iff.1 h
  have hatom : q.holds scene here = true ↔ env.AtomHolds scene here t.atom :=
    holds_atomPredicate hq
  rw [TermHolds, ← hatom]
  cases t.negated <;> simp

/-- The terms of a segment all hold where all their predicates do. -/
theorem all_holds_iff {terms : List Term} {predicates : List Predicate}
    (h : List.Forall₂ (fun t p => env.termPredicate? t = some p) terms predicates) :
    predicates.all (·.holds scene here) = true ↔ ∀ t ∈ terms, env.TermHolds scene here t := by
  induction h with
  | nil => simp
  | cons hp _ ih =>
    rw [List.all_cons, Bool.and_eq_true, ih, holds_termPredicate hp, List.forall_mem_cons]

theorem any_holds_iff {query : List (List Term)} {predicates : List Predicate}
    (h : List.Forall₂ (fun terms p => ∃ found,
      List.Forall₂ (fun t q => env.termPredicate? t = some q) terms found ∧ p = .allOf found)
      query predicates) :
    predicates.any (·.holds scene here) = true ↔
      ∃ terms ∈ query, ∀ t ∈ terms, env.TermHolds scene here t := by
  induction h with
  | nil => simp
  | cons hp _ ih =>
    obtain ⟨found, hfound, rfl⟩ := hp
    rw [List.any_cons, Bool.or_eq_true, ih, Predicate.holds_allOf, all_holds_iff hfound]
    simp only [List.mem_cons, exists_eq_or_imp]

theorem holds_iff_queryHolds {text : String} {p : Predicate} (h : env.compile text = .ok p) :
    p.holds scene here = true ↔ env.QueryHolds scene here text := by
  obtain ⟨predicates, hall, rfl⟩ := compile_eq_ok_iff.1 h
  simp only [segmentPredicate_eq_ok_iff] at hall
  obtain ⟨query, hquery, hpredicates⟩ := forall₂_comp_iff.1 hall
  rw [Predicate.holds_anyOf, any_holds_iff hpredicates]
  constructor
  · rintro ⟨terms, hmem, hterms⟩
    obtain ⟨segment, hsegment, htext⟩ := exists_of_forall₂ hquery hmem
    exact ⟨segment, hsegment, terms, htext, hterms⟩
  · rintro ⟨segment, hsegment, terms, htext, hterms⟩
    obtain ⟨read, hmem, hread⟩ := exists_of_forall₂ hquery.flip hsegment
    obtain rfl : read = terms := hread.unique htext
    exact ⟨read, hmem, hterms⟩

/-- The meaning of a compiled text: some segment, read by the grammar, has only terms that hold. -/
theorem holds_of_compile {text : String} {p : Predicate} (h : env.compile text = .ok p) :
    ∃ query, List.Forall₂ (fun segment terms => SegmentText segment.toList terms)
        (segments text) query ∧
      ∀ scene here, p.holds scene here = true ↔
        ∃ terms ∈ query, ∀ t ∈ terms, env.TermHolds scene here t := by
  obtain ⟨predicates, hall, rfl⟩ := compile_eq_ok_iff.1 h
  simp only [segmentPredicate_eq_ok_iff] at hall
  obtain ⟨query, hquery, hpredicates⟩ := forall₂_comp_iff.1 hall
  refine ⟨query, hquery, ?_⟩
  intro scene here
  rw [Predicate.holds_anyOf, any_holds_iff hpredicates]

/-- One name of each kind, and no default property of its own. -/
def quarry : Environment where
  identifier? name := if name = "stone" then some "core:stone" else none
  typeTag? name :=
    if name = "Pillar" then some (.derived "core.Pillar" (.root 0 "core.Solid")) else none
  material? name := if name = "rock" then some ⟨0, "rock"⟩ else none
  query? name := if name = "roomy" then some .emptyAbove else none
  defaultProperty := none

theorem holds_of_compile_quarry :
    ∃ p, quarry.compile "! stone %Pillar, [axis = Y|z, polished] !@roomy ~rock," = .ok p ∧
      ∃ query, List.Forall₂ (fun segment terms => SegmentText segment.toList terms)
          (segments "! stone %Pillar, [axis = Y|z, polished] !@roomy ~rock,") query ∧
        ∀ scene here, p.holds scene here = true ↔
          ∃ terms ∈ query, ∀ t ∈ terms, quarry.TermHolds scene here t := by
  have hcompile : ∃ p,
      quarry.compile "! stone %Pillar, [axis = Y|z, polished] !@roomy ~rock," = .ok p :=
    ⟨_, by cbv⟩
  obtain ⟨p, hp⟩ := hcompile
  exact ⟨p, hp, holds_of_compile hp⟩

end Environment

end VoxelQuery
