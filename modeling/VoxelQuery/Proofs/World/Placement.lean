import VoxelQuery.Proofs.History
import VoxelQuery.Proofs.Success
import VoxelQuery.World.Basic

/-! Worlds made of placements. Each position shows what was placed there last, and the fill block if
nothing was. A world is made unless a block is unknown, and the first one that is ends the work. -/
namespace VoxelQuery

/-- The position shows a block with some properties. -/
structure Scene.ShowsAt (scene : Scene) (here : Position) (block : Block)
    (properties : List (String × String)) : Prop where
  state : scene.stateAt here = (BlockState.ofPairs block properties).view
  emptiness : scene.isEmpty here = block.isEmpty

/-- Each position shows what is placed there last, and all others show the fill block without
properties. -/
structure Scene.Shows (scene : Scene) (r : Registry) (fillBlock : String)
    (placements : List Placement) : Prop where
  placed : ∀ p, IsLast Placement.position placements p →
    ∃ block, r.block? p.block = some block ∧ scene.ShowsAt p.position block p.properties
  filled : ∀ here, (∀ p ∈ placements, p.position ≠ here) →
    ∃ block, r.block? fillBlock = some block ∧ scene.ShowsAt here block []

namespace World

/-- The first placement of a block that the registry does not find. -/
def unknown? (r : Registry) (placements : List Placement) : Option Placement :=
  placements.find? fun p => (r.block? p.block).isNone

variable {r : Registry} {w last : World} {fillBlock : String} {placements : List Placement}

theorem stateOf_eq_ok_iff {block : String} {properties : List (String × String)}
    {state : BlockState} :
    stateOf r block properties = .ok state ↔
      ∃ found, r.block? block = some found ∧ state = .ofPairs found properties := by
  rw [stateOf]
  cases r.block? block with
  | none => simp
  | some found => simp [eq_comm]

theorem place_of_unknown {p : Placement} (h : r.block? p.block = none) (w : World) :
    w.place r p = .error ⟨p.block, .unknownBlock p.block⟩ := by
  rw [place, stateOf, h]
  rfl

theorem place_of_known {p : Placement} {block : Block} (h : r.block? p.block = some block)
    (w : World) : w.place r p = .ok (w.put p.position (.ofPairs block p.properties)) := by
  rw [place, stateOf, h]
  rfl

theorem isSome_unknown?_iff :
    (unknown? r placements).isSome = true ↔ ∃ p ∈ placements, r.block? p.block = none := by
  simp [unknown?]

theorem placeAll_of_unknown (w : World) {p : Placement} (h : unknown? r placements = some p) :
    w.placeAll r placements = .error ⟨p.block, .unknownBlock p.block⟩ := by
  induction placements generalizing w with
  | nil => cases h
  | cons first rest ih =>
    rw [unknown?, List.find?_cons] at h
    rw [placeAll, List.foldlM_cons]
    cases hblock : r.block? first.block with
    | none =>
      rw [hblock] at h
      cases h
      rw [place_of_unknown hblock]
      rfl
    | some block =>
      rw [hblock] at h
      rw [place_of_known hblock]
      exact ih _ h

theorem exists_placeAll (w : World) (h : unknown? r placements = none) :
    ∃ last, w.placeAll r placements = .ok last := by
  induction placements generalizing w with
  | nil => exact ⟨w, rfl⟩
  | cons first rest ih =>
    rw [unknown?, List.find?_cons] at h
    rw [placeAll, List.foldlM_cons]
    cases hblock : r.block? first.block with
    | none =>
      rw [hblock] at h
      cases h
    | some block =>
      rw [hblock] at h
      rw [place_of_known hblock]
      exact ih _ h

/-- A position holds what is placed there last. -/
theorem stateAt_placeAll (h : w.placeAll r placements = .ok last) :
    (∀ p, IsLast Placement.position placements p →
      ∃ block, r.block? p.block = some block ∧
        last.stateAt p.position = .ofPairs block p.properties) ∧
      ∀ here, (∀ p ∈ placements, p.position ≠ here) → last.stateAt here = w.stateAt here := by
  induction placements generalizing w with
  | nil =>
    cases h
    refine ⟨fun p hp => ?_, fun here _ => rfl⟩
    cases hp.mem
  | cons first rest ih =>
    rw [placeAll, List.foldlM_cons] at h
    obtain ⟨next, hnext, hrest⟩ := bind_eq_ok_iff.1 h
    obtain ⟨hplaced, hothers⟩ := ih hrest
    obtain ⟨state, hstate, rfl⟩ := map_eq_ok_iff.1 hnext
    obtain ⟨block, hblock, rfl⟩ := stateOf_eq_ok_iff.1 hstate
    refine ⟨fun p hp => ?_, fun here hnone => ?_⟩
    -- What stands behind decides, and the first placement where nothing else is placed.
    · rcases isLast_cons_iff.1 hp with hp | ⟨rfl, hnone⟩
      · exact hplaced p hp
      · refine ⟨block, hblock, ?_⟩
        rw [hothers p.position hnone, stateAt_put, if_pos rfl]
    · obtain ⟨hfirst, hnone⟩ := List.forall_mem_cons.1 hnone
      rw [hothers here hnone, stateAt_put, if_neg hfirst]

theorem shows_of_ofPlacements (h : ofPlacements r fillBlock placements = .ok last) :
    last.scene.Shows r fillBlock placements := by
  obtain ⟨start, hstart, hplaced⟩ := bind_eq_ok_iff.1 h
  obtain ⟨fill, hfill, rfl⟩ := map_eq_ok_iff.1 hstart
  obtain ⟨found, hfound, rfl⟩ := stateOf_eq_ok_iff.1 hfill
  obtain ⟨hlast, hothers⟩ := stateAt_placeAll hplaced
  have hshows : ∀ here block properties, last.stateAt here = .ofPairs block properties →
      last.scene.ShowsAt here block properties := by
    intro here block properties heq
    exact ⟨congrArg BlockState.view heq, congrArg (fun state => state.block.isEmpty) heq⟩
  refine ⟨fun p hp => ?_, fun here hnone => ⟨found, hfound, hshows _ _ _ (hothers here hnone)⟩⟩
  obtain ⟨block, hblock, hstate⟩ := hlast p hp
  exact ⟨block, hblock, hshows _ _ _ hstate⟩

/-- With a fill block that is known, a world is made unless a placement has an unknown block. -/
theorem ofPlacements_of_known (hfill : (r.block? fillBlock).isSome = true) :
    (∀ p, unknown? r placements = some p →
      ofPlacements r fillBlock placements = .error ⟨p.block, .unknownBlock p.block⟩) ∧
      (unknown? r placements = none → ∃ w, ofPlacements r fillBlock placements = .ok w) := by
  obtain ⟨found, hfound⟩ := Option.isSome_iff_exists.1 hfill
  have hstart : filled r fillBlock = .ok ⟨.ofPairs found [], .empty⟩ :=
    map_eq_ok_iff.2 ⟨_, stateOf_eq_ok_iff.2 ⟨found, hfound, rfl⟩, rfl⟩
  refine ⟨fun p hp => ?_, fun hnone => ?_⟩
  · rw [ofPlacements, hstart]
    exact placeAll_of_unknown _ hp
  · rw [ofPlacements, hstart]
    exact exists_placeAll _ hnone

end World

end VoxelQuery
