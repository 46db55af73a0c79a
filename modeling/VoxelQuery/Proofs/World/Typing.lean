import VoxelQuery.Predicate.Evaluation
import VoxelQuery.Proofs.Registry.Lineage
import VoxelQuery.Proofs.World.LastWrite

/-! Tests of tags in a world. Every state in a world has a tag of its registry, and keeps one whatever
is placed and defined. So at each position one strict test holds among those of the registered tags,
and a test that is not strict holds where the strict test of a derived tag does. -/
namespace VoxelQuery

/-- What tests of the registered tags see at a position. -/
structure Predicate.TagsAt (r : Registry) (scene : Scene) (here : Position) : Prop where
  derived : ∀ T ∈ r.typeTags.values, (typeTag T false).holds scene here = true ↔
    ∃ S ∈ r.typeTags.values, S.derivesFrom T = true ∧ (typeTag S true).holds scene here = true
  strict : ∃! S, S ∈ r.typeTags.values ∧ (typeTag S true).holds scene here = true
  upward : ∀ S ∈ r.typeTags.values, ∀ T ∈ r.typeTags.values, S.derivesFrom T = true →
    (typeTag S false).holds scene here = true → (typeTag T false).holds scene here = true

theorem Predicate.tagsAt_of_mem {r : Registry} {scene : Scene} {here : Position}
    (h : (scene.stateAt here).typeTag ∈ r.typeTags.values) : TagsAt r scene here := by
  have hstrict : ∀ S, (typeTag S true).holds scene here = true ↔
      (scene.stateAt here).typeTag = S := by
    intro S
    show decide ((scene.stateAt here).typeTag = S) = true ↔ _
    rw [decide_eq_true_iff]
  refine ⟨fun T _ => ?_, ⟨(scene.stateAt here).typeTag, ⟨h, (hstrict _).2 rfl⟩, ?_⟩, ?_⟩
  · show (scene.stateAt here).typeTag.derivesFrom T = true ↔ _
    constructor
    · exact fun hderives => ⟨_, h, hderives, (hstrict _).2 rfl⟩
    · rintro ⟨S, -, hderives, hholds⟩
      rwa [(hstrict S).1 hholds]
  · rintro S ⟨-, hholds⟩
    exact ((hstrict S).1 hholds).symm
  · intro S _ T _ hderives hholds
    have hstate : (scene.stateAt here).typeTag.derivesFrom S = true := hholds
    exact TypeTag.derivesFrom_trans hstate hderives

namespace Landscape

/-- The tags of all that is placed are registered. -/
structure Typed (l : Landscape) : Prop where
  closed : l.registry.Closed
  typeTag : ∀ here, l.registry.HasTypeTag (l.world.stateAt here).block.typeTag

variable {l : Landscape}

theorem Typed.step (h : l.Typed) (s : Step) : (l.step s).Typed := by
  cases s with
  | define definition =>
    have hwithin := (l.registry.grows_step definition).within
    exact ⟨h.closed.step definition, fun here => hwithin.hasTypeTag (h.typeTag here)⟩
  | set p =>
    cases hblock : l.registry.block? p.block with
    | none =>
      rw [step_of_unknown hblock]
      exact h
    | some block =>
      rw [step_of_known hblock]
      refine ⟨h.closed, fun here => ?_⟩
      show l.registry.HasTypeTag ((l.world.put _ _).stateAt here).block.typeTag
      rw [World.stateAt_put]
      split
      · exact (h.closed.block _ block hblock).2.1
      · exact h.typeTag here

theorem Typed.run (h : l.Typed) (steps : List Step) : (l.run steps).Typed := by
  induction steps generalizing l with
  | nil => exact h
  | cons s rest ih => exact ih (h.step s)

theorem typed_of_filled {r : Registry} {fillBlock : String} {w : World} (hr : r.Closed)
    (hfill : World.filled r fillBlock = .ok w) : (⟨r, w⟩ : Landscape).Typed := by
  obtain ⟨fill, hstate, rfl⟩ := map_eq_ok_iff.1 hfill
  obtain ⟨block, hblock, rfl⟩ := World.stateOf_eq_ok_iff.1 hstate
  exact ⟨hr, fun _ => (hr.block _ block hblock).2.1⟩

theorem Typed.tagsAt (h : l.Typed) (here : Position) :
    Predicate.TagsAt l.registry l.world.scene here :=
  Predicate.tagsAt_of_mem (h.closed.hasTypeTag_iff.1 (h.typeTag here))

/-- Whatever was defined, tags are a forest that only grows, and whatever is placed and defined from
there on, tests of tags follow it. -/
theorem forest_run (number : Nat) (tagPrefixes : List String) (defaultNamespace : String)
    (definitions : List Registry.Step) :
    let r := (Registry.empty number tagPrefixes defaultNamespace).run definitions
    r.Forest ∧
      (∀ later, ∀ S ∈ r.typeTags.values, ∀ T ∈ r.typeTags.values,
        S ∈ (r.run later).typeTags.values ∧
          (Relation.ReflTransGen (r.run later).Parent S.name T.name ↔
            Relation.ReflTransGen r.Parent S.name T.name)) ∧
      ∀ fillBlock w, World.filled r fillBlock = .ok w → ∀ steps here,
        let l := (⟨r, w⟩ : Landscape).run steps
        l.registry.Forest ∧ Predicate.TagsAt l.registry l.world.scene here := by
  intro r
  have hclosed : r.Closed :=
    (Registry.Closed.empty number tagPrefixes defaultNamespace).run definitions
  refine ⟨hclosed.forest, fun later S hS T hT => hclosed.walk_run later hS hT,
    fun fillBlock w hfill steps here => ?_⟩
  have htyped := (typed_of_filled hclosed hfill).run steps
  exact ⟨htyped.closed.forest, htyped.tagsAt here⟩

def strata : List Registry.Step :=
  [.typeTag "core.Block" none, .typeTag "core.Stone" (some "core.Block"),
    .typeTag "core.Granite" (some "core.Stone"), .material "rock",
    .block ⟨"air", "core.Block", "rock", some true⟩, .block ⟨"granite", "core.Granite", "rock", none⟩]

def stoneTag : TypeTag := .derived "core.Stone" (.root 0 "core.Block")

def graniteTag : TypeTag := .derived "core.Granite" stoneTag

/-- Granite is placed, and then there is another kind of stone. -/
def intrusion : List Step :=
  [.set ⟨.ofInts 3 (-7) 0, "granite", [("Grain", "Fine")]⟩,
    .define (.typeTag "core.Basalt" (some "core.Stone"))]

theorem forest_run_strata :
    let r := (Registry.empty 0 Registry.standardTagPrefixes Registry.standardNamespace).run strata
    World.filled r "air" = .ok unhewn ∧
      (Predicate.typeTag stoneTag false).holds
        ((⟨r, unhewn⟩ : Landscape).run intrusion).world.scene (.ofInts 3 (-7) 0) = true ∧
      Relation.ReflTransGen (r.run [.typeTag "core.Basalt" (some "core.Stone")]).Parent
        "core.Granite" "core.Stone" := by
  intro r
  have hfill : World.filled r "air" = .ok unhewn :=
    map_eq_ok_iff.2 ⟨_, World.stateOf_eq_ok_iff.2 ⟨air, by decide +kernel, rfl⟩, rfl⟩
  obtain ⟨hforest, hlater, hworld⟩ :=
    forest_run 0 Registry.standardTagPrefixes Registry.standardNamespace strata
  have hgranite : graniteTag ∈ r.typeTags.values := by decide +kernel
  have hstone : stoneTag ∈ r.typeTags.values := by decide +kernel
  have hderives : graniteTag.derivesFrom stoneTag = true := by decide
  have htags := (hworld "air" unhewn hfill intrusion (.ofInts 3 (-7) 0)).2
  refine ⟨hfill, ?_, ?_⟩
  · exact (htags.derived stoneTag (by decide +kernel)).2
      ⟨graniteTag, by decide +kernel, hderives, by decide +kernel⟩
  · exact (hlater _ graniteTag hgranite stoneTag hstone).2.2
      ((hforest.walk graniteTag hgranite stoneTag hstone).1 hderives)

end Landscape

end VoxelQuery
