import VoxelQuery.Predicate.Evaluation
import VoxelQuery.Proofs.Registry.Growth
import VoxelQuery.Proofs.Success
import VoxelQuery.Proofs.Text.LetterCase
import VoxelQuery.World.Basic

/-! Predicates that are well formed and speak of the entries of one registry. In a scene of that
registry they can be evaluated by comparing names, as no two entries have the same name. -/
namespace VoxelQuery

/-- Small combinations are collapsed, properties are in lower case, and whatever a test compares
with is an entry of the registry. There is no test of a whole state and none of the altitude. -/
inductive Predicate.Grounded (r : Registry) : Predicate → Prop
  | always : Grounded r .always
  | never : Grounded r .never
  | combination (connective : Connective) {children : List Predicate}
      (hmany : 2 ≤ children.length) (hall : ∀ child ∈ children, Grounded r child) :
      Grounded r (.combination connective children)
  | negation {child : Predicate} (h : Grounded r child) : Grounded r (.negation child)
  | block {identifier : String} (h : r.HasBlock identifier) : Grounded r (.block identifier)
  | typeTag {tag : TypeTag} (strict : Bool) (h : r.HasTypeTag tag) : Grounded r (.typeTag tag strict)
  | property {name : String} {values : List String} (hname : Text.lower name = name)
      (hvalues : ∀ value ∈ values, Text.lower value = value) (hne : values ≠ [])
      (hnodup : values.Nodup) : Grounded r (.property name values)
  | material {m : Material} (h : r.HasMaterial m) : Grounded r (.material m)
  | adjacent {m : Material} (h : r.HasMaterial m) : Grounded r (.adjacent m)
  | emptyAbove : Grounded r .emptyAbove

/-- All that a scene shows are entries of the registry. -/
def Scene.DrawnFrom (scene : Scene) (r : Registry) : Prop :=
  ∀ position, r.HasTypeTag (scene.stateAt position).typeTag ∧
    r.HasMaterial (scene.stateAt position).material

namespace Predicate

variable {r next : Registry}

theorem Grounded.mono {p : Predicate} (h : p.Grounded r) (hwithin : r.Within next) :
    p.Grounded next := by
  induction h with
  | always => exact .always
  | never => exact .never
  | combination connective hmany hall ih => exact .combination connective hmany ih
  | negation h ih => exact .negation ih
  | block h => exact .block (hwithin.block _ h)
  | typeTag strict h => exact .typeTag strict (hwithin.hasTypeTag h)
  | property hname hvalues hne hnodup => exact .property hname hvalues hne hnodup
  | material h => exact .material (hwithin.hasMaterial h)
  | adjacent h => exact .adjacent (hwithin.hasMaterial h)
  | emptyAbove => exact .emptyAbove

/-- What holds of the constants and of all combinations of several predicates that it holds of, holds
of whatever a connective makes of such predicates. -/
theorem combine_of_forall {P : Predicate → Prop} (halways : P always) (hnever : P never)
    (hmany : ∀ connective {children : List Predicate}, 2 ≤ children.length →
      (∀ child ∈ children, P child) → P (combination connective children))
    (connective : Connective) {children : List Predicate} (h : ∀ child ∈ children, P child) :
    P (combine connective children) := by
  match children, h with
  | [], _ =>
    cases connective with
    | and => exact halways
    | or => exact hnever
  | [child], h => exact h child List.mem_cons_self
  | first :: second :: rest, h => exact hmany connective (by simp) h

theorem grounded_combine (connective : Connective) {children : List Predicate}
    (h : ∀ child ∈ children, child.Grounded r) : (combine connective children).Grounded r :=
  combine_of_forall .always .never (fun connective _ => .combination connective) connective h

theorem distinct_ne_nil {values : List String} (h : values ≠ []) : distinct values ≠ [] := by
  obtain ⟨first, rest, rfl⟩ := List.exists_cons_of_ne_nil h
  exact List.cons_ne_nil _ _

theorem grounded_ofProperty (name : String) {values : List String} (hne : values ≠ []) :
    (ofProperty name values).Grounded r := by
  refine .property (Text.lower_lower name) ?_ (distinct_ne_nil (by simpa using hne))
    (nodup_distinct _)
  intro value hvalue
  rw [mem_distinct] at hvalue
  obtain ⟨raw, -, rfl⟩ := List.mem_map.1 hvalue
  exact Text.lower_lower raw

mutual

/-- The value of a predicate when tags and materials are compared by their names. -/
def holdsByName (scene : Scene) (here : Position) : Predicate → Bool
  | combination connective children => holdsByNames scene here connective children
  | negation child => !holdsByName scene here child
  | typeTag tag strict =>
    let found := (scene.stateAt here).typeTag
    if strict then decide (found.name = tag.name)
    else decide (tag.name ∈ found.lineage.map TypeTag.name)
  | material m => decide ((scene.stateAt here).material.name = m.name)
  | adjacent m =>
    here.neighbours.any fun position => decide ((scene.stateAt position).material.name = m.name)
  | p => p.holds scene here

def holdsByNames (scene : Scene) (here : Position) (connective : Connective) :
    List Predicate → Bool
  | [] => !connective.deciding
  | child :: rest =>
    if holdsByName scene here child = connective.deciding then connective.deciding
    else holdsByNames scene here connective rest

end

variable {scene : Scene} {here : Position}

theorem holdsByName_combination (connective : Connective) (children : List Predicate) :
    (combination connective children).holdsByName scene here =
      match connective with
      | .and => children.all (·.holdsByName scene here)
      | .or => children.any (·.holdsByName scene here) := by
  rw [holdsByName]
  induction children with
  | nil => cases connective <;> rfl
  | cons child rest ih =>
    rw [holdsByNames]
    cases connective <;> cases h : child.holdsByName scene here <;>
      simp_all [Connective.deciding]

theorem holds_adjacent (m : Material) :
    (adjacent m).holds scene here =
      here.neighbours.any fun position => decide ((scene.stateAt position).material = m) := by
  have hsearch : ∀ (test : CellView → Bool) (positions : List Position),
      (Outcome.search scene test positions).holds =
        positions.any fun position => test (scene.stateAt position) := by
    intro test positions
    induction positions with
    | nil => rfl
    | cons position rest ih =>
      rw [Outcome.search]
      split <;> simp_all
  exact hsearch _ _

theorem Grounded.holds_eq_holdsByName {p : Predicate} (h : p.Grounded r)
    (hscene : scene.DrawnFrom r) (here : Position) :
    p.holds scene here = p.holdsByName scene here := by
  induction h with
  | always => rfl
  | never => rfl
  | @combination connective children hmany hall ih =>
    rw [holds_combination, holdsByName_combination]
    rw [Bool.eq_iff_iff]
    cases connective with
    | and =>
      simp only [List.all_eq_true]
      exact forall₂_congr fun child hchild => by rw [ih child hchild]
    | or =>
      simp only [List.any_eq_true]
      exact exists_congr fun child => and_congr_right fun hchild => by rw [ih child hchild]
  | negation h ih => rw [holds_negation, ih, holdsByName]
  | block h => rfl
  | @typeTag tag strict h =>
    obtain ⟨hfound, -⟩ := hscene here
    have htest : (Predicate.typeTag tag strict).holds scene here =
        passesTypeTag tag strict (scene.stateAt here) := rfl
    rw [htest, passesTypeTag, holdsByName]
    simp only [TypeTag.derivesFrom, hfound.eq_iff h, hfound.mem_lineage_iff h]
  | property hname hvalues hne hnodup => rfl
  | @material m h =>
    have htest : (Predicate.material m).holds scene here =
        decide ((scene.stateAt here).material = m) := rfl
    rw [htest, holdsByName]
    simp only [(hscene here).2.eq_iff h]
  | @adjacent m h =>
    rw [holds_adjacent, holdsByName]
    simp only [(hscene _).2.eq_iff h]
  | emptyAbove => rfl

end Predicate

namespace World

variable {r : Registry} {w next : World}

theorem drawnFrom_of_stateOf (h : r.Sound) {block : String} {properties : List (String × String)}
    {state : BlockState} (hstate : stateOf r block properties = .ok state) :
    r.HasTypeTag state.block.typeTag ∧ r.HasMaterial state.block.material := by
  unfold stateOf at hstate
  split at hstate
  · next found hfound =>
    cases hstate
    exact (h.block _ found hfound).2
  · cases hstate

theorem drawnFrom_place (h : r.Sound) (hw : w.scene.DrawnFrom r) {p : Placement}
    (hnext : w.place r p = .ok next) : next.scene.DrawnFrom r := by
  obtain ⟨state, hstate, rfl⟩ := map_eq_ok_iff.1 hnext
  intro position
  have hput : (w.put p.position state).scene.stateAt position =
      ((w.put p.position state).stateAt position).view := rfl
  rw [hput, stateAt_put]
  split
  · exact drawnFrom_of_stateOf h hstate
  · exact hw position

theorem drawnFrom_placeAll (h : r.Sound) (hw : w.scene.DrawnFrom r) {placements : List Placement}
    (hnext : w.placeAll r placements = .ok next) : next.scene.DrawnFrom r := by
  induction placements generalizing w with
  | nil =>
    cases hnext
    exact hw
  | cons p rest ih =>
    rw [placeAll, List.foldlM_cons] at hnext
    obtain ⟨placed, hplaced, hrest⟩ := bind_eq_ok_iff.1 hnext
    exact ih (drawnFrom_place h hw hplaced) hrest

/-- A world is made of the blocks of its registry. -/
theorem drawnFrom_ofPlacements (h : r.Sound) {fillBlock : String} {placements : List Placement}
    (hw : ofPlacements r fillBlock placements = .ok w) : w.scene.DrawnFrom r := by
  obtain ⟨start, hstart, hplaced⟩ := bind_eq_ok_iff.1 hw
  obtain ⟨fill, hfill, rfl⟩ := map_eq_ok_iff.1 hstart
  exact drawnFrom_placeAll h (fun position => drawnFrom_of_stateOf h hfill) hplaced

end World

end VoxelQuery
