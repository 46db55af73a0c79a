import VoxelQuery.Proofs.Number.Text
import VoxelQuery.Proofs.Registry.Growth
import VoxelQuery.Proofs.World.Cell
import VoxelQuery.Proofs.World.Placement

/-! A world under a registry that goes on changing. Each position holds what was placed there last,
with the block as the registry had it then. Nothing else matters: not what fails, not what is
defined later, and not in which order different positions were written. -/
namespace VoxelQuery

namespace Position

variable {p q : Position}

/-- The coordinates with commas between them. -/
def name (p : Position) : String := p.x.text ++ "," ++ p.y.text ++ "," ++ p.z.text

structure Rounded (p : Position) : Prop where
  x : p.x.Rounded
  y : p.y.Rounded
  z : p.z.Rounded

theorem rounded_ofInts (x y z : Int) : (ofInts x y z).Rounded :=
  ⟨Number.rounded_ofInt x, Number.rounded_ofInt y, Number.rounded_ofInt z⟩

theorem number_inj_of_comma {a b : Number} (ha : a.Rounded) (hb : b.Rounded)
    {behind after : List Char} (h : a.text.toList ++ ',' :: behind = b.text.toList ++ ',' :: after) :
    a = b ∧ behind = after := by
  obtain ⟨htext, hrest⟩ := Text.append_inj_of_head (p := fun c => decide (c ≠ ','))
    (Text.ne_of_notMem (Number.comma_notMem_text ha))
    (Text.ne_of_notMem (Number.comma_notMem_text hb)) (by simp) (by simp) h
  exact ⟨(Number.text_inj ha hb).1 (String.toList_inj.1 htext), (List.cons.inj hrest).2⟩

/-- Different positions have different names. -/
theorem name_inj (hp : p.Rounded) (hq : q.Rounded) : p.name = q.name ↔ p = q := by
  refine ⟨fun h => ?_, fun h => by rw [h]⟩
  have hchars : ∀ p : Position, p.name.toList =
      p.x.text.toList ++ ',' :: (p.y.text.toList ++ ',' :: p.z.text.toList) := by
    intro p
    simp [name]
  have h := congrArg String.toList h
  rw [hchars, hchars] at h
  obtain ⟨hx, h⟩ := number_inj_of_comma hp.x hq.x h
  obtain ⟨hy, h⟩ := number_inj_of_comma hp.y hq.y h
  have hz := (Number.text_inj hp.z hq.z).1 (String.toList_inj.1 h)
  cases p
  cases q
  simp_all

end Position

theorem Cell.rounded_position (c : Cell) : c.position.Rounded := Position.rounded_ofInts c.x c.y c.z

/-- Two worlds that cannot be told apart. -/
structure World.Alike (w other : World) : Prop where
  stateAt : ∀ here, w.stateAt here = other.stateAt here
  isEmpty : ∀ here, w.isEmpty here = other.isEmpty here
  size : w.size = other.size

/-- A world, and the registry in which it looks up the blocks to place. -/
structure Landscape where
  registry : Registry
  world : World

namespace Landscape

inductive Step where
  | define (definition : Registry.Step)
  | set (placement : Placement)

/-- A placement that fails leaves the world as it is. -/
def step (l : Landscape) : Step → Landscape
  | .define definition => { l with registry := l.registry.step definition }
  | .set p =>
    match l.world.place l.registry p with
    | .ok world => { l with world }
    | .error _ => l

def run (l : Landscape) (steps : List Step) : Landscape := steps.foldl step l

/-- The state that a step places, with its position. -/
def placed? (l : Landscape) : Step → Option (Position × BlockState)
  | .define _ => none
  | .set p => (World.stateOf l.registry p.block p.properties).toOption.map fun s => (p.position, s)

/-- All that a run places, in its order. -/
def placed (l : Landscape) (steps : List Step) : List (Position × BlockState) :=
  trace step placed? l steps

variable {l : Landscape} {w : World} {p : Placement} {block : Block} {steps : List Step}

theorem run_append (l : Landscape) (before behind : List Step) :
    l.run (before ++ behind) = (l.run before).run behind := List.foldl_append

theorem placed_append (l : Landscape) (before behind : List Step) :
    l.placed (before ++ behind) = l.placed before ++ (l.run before).placed behind :=
  trace_append _ _ _ _ _

theorem placed?_of_known (h : l.registry.block? p.block = some block) :
    l.placed? (.set p) = some (p.position, .ofPairs block p.properties) := by
  rw [placed?, World.stateOf, h]
  rfl

theorem placed?_of_unknown (h : l.registry.block? p.block = none) : l.placed? (.set p) = none := by
  rw [placed?, World.stateOf, h]
  rfl

theorem step_of_known (h : l.registry.block? p.block = some block) :
    l.step (.set p) = { l with world := l.world.put p.position (.ofPairs block p.properties) } := by
  rw [step, World.place_of_known h]

theorem step_of_unknown (h : l.registry.block? p.block = none) : l.step (.set p) = l := by
  rw [step, World.place_of_unknown h]

/-- A step puts into the world what it places. -/
theorem world_step (l : Landscape) (s : Step) :
    (l.step s).world = (l.placed? s).elim l.world fun e => l.world.put e.1 e.2 := by
  cases s with
  | define definition => rfl
  | set p =>
    cases h : l.registry.block? p.block with
    | none => rw [step_of_unknown h, placed?_of_unknown h, Option.elim_none]
    | some block => rw [step_of_known h, placed?_of_known h, Option.elim_some]

theorem world_run (l : Landscape) (steps : List Step) :
    (l.run steps).world = (l.placed steps).foldl (fun w e => w.put e.1 e.2) l.world := by
  have hkeeps : ∀ (l : Landscape) (s : Step), True → True := fun _ _ _ => trivial
  exact foldl_eq_foldl_trace world (fun w (e : Position × BlockState) => w.put e.1 e.2) hkeeps
    (fun l s _ => world_step l s) trivial steps

theorem foldl_put (w : World) (history : List (Position × BlockState)) :
    history.foldl (fun w e => w.put e.1 e.2) w =
      ⟨w.fill, history.foldl (fun t e => t.put e.1 e.2) w.cells⟩ := by
  induction history generalizing w with
  | nil => rfl
  | cons e rest ih => rw [List.foldl_cons, ih]; rfl

/-- The cells of a world that was filled are the table of all that was placed. -/
theorem world_run_of_filled (hcells : l.world.cells = .empty) (steps : List Step) :
    (l.run steps).world = ⟨l.world.fill, .ofPairs (l.placed steps)⟩ := by
  rw [world_run, foldl_put, hcells, Table.ofPairs]

section Order

variable {l' : Landscape} {sets sets' : List Placement}

theorem registry_set (l : Landscape) (p : Placement) : (l.step (.set p)).registry = l.registry := by
  cases h : l.registry.block? p.block with
  | none => rw [step_of_unknown h]
  | some block => rw [step_of_known h]

theorem registry_run_sets (l : Landscape) (sets : List Placement) :
    (l.run (sets.map .set)).registry = l.registry := by
  induction sets generalizing l with
  | nil => rfl
  | cons p rest ih => exact (ih (l.step (.set p))).trans (registry_set l p)

theorem placed?_congr (h : l.registry = l'.registry) (s : Step) : l.placed? s = l'.placed? s := by
  cases s with
  | define definition => rfl
  | set p => rw [placed?, placed?, h]

/-- What is placed depends on the registry only, and the registry on nothing that is placed. -/
theorem placed_congr (h : l.registry = l'.registry) (steps : List Step) :
    l.placed steps = l'.placed steps ∧ (l.run steps).registry = (l'.run steps).registry := by
  induction steps generalizing l l' with
  | nil => exact ⟨rfl, h⟩
  | cons s rest ih =>
    have hstep : (l.step s).registry = (l'.step s).registry := by
      cases s with
      | define definition => exact congrArg (Registry.step · definition) h
      | set p => rw [registry_set, registry_set, h]
    obtain ⟨hrest, hrun⟩ := ih hstep
    refine ⟨?_, hrun⟩
    show (l.placed? s).toList ++ (l.step s).placed rest =
      (l'.placed? s).toList ++ (l'.step s).placed rest
    rw [placed?_congr h, hrest]

theorem placed_sets (l : Landscape) (sets : List Placement) :
    l.placed (sets.map .set) = sets.filterMap fun p => l.placed? (.set p) := by
  induction sets generalizing l with
  | nil => rfl
  | cons p rest ih =>
    show (l.placed? (.set p)).toList ++ (l.step (.set p)).placed (rest.map .set) = _
    have hsame : (fun p => (l.step (.set p)).placed? (.set p)) = fun p => l.placed? (.set p) := by
      funext p
      exact placed?_congr (registry_set l p) (.set p)
    rw [ih, List.filterMap_cons]
    simp only [placed?_congr (registry_set l p)]
    cases l.placed? (.set p) <;> rfl

/-- Placements that change places change the places of what they place. -/
theorem rearranged_placed (h : Rearranged Placement.position sets sets') (l : Landscape)
    (before behind : List Step) :
    Rearranged Prod.fst (l.placed (before ++ sets.map .set ++ behind))
      (l.placed (before ++ sets'.map .set ++ behind)) := by
  have hregistry : (l.run (before ++ sets.map .set)).registry =
      (l.run (before ++ sets'.map .set)).registry := by
    rw [run_append, run_append, registry_run_sets, registry_run_sets]
  have hposition : ∀ p e, (l.run before).placed? (.set p) = some e → e.1 = p.position := by
    intro p e he
    obtain ⟨state, -, rfl⟩ := Option.map_eq_some_iff.1 he
    rfl
  rw [placed_append, placed_append l _ behind, placed_append, placed_append l before, placed_sets,
    placed_sets, (placed_congr hregistry behind).1]
  exact (h.filterMap hposition).append

end Order

section Filled

variable (hcells : l.world.cells = .empty)

include hcells

theorem stateAt_of_isLast {here : Position} {state : BlockState}
    (h : IsLast Prod.fst (l.placed steps) (here, state)) :
    (l.run steps).world.stateAt here = state := by
  rw [world_run_of_filled hcells, World.stateAt, Table.get?_ofPairs_iff.2 h, Option.getD_some]

theorem stateAt_of_not_placed {here : Position} (h : ∀ e ∈ l.placed steps, e.1 ≠ here) :
    (l.run steps).world.stateAt here = l.world.fill := by
  have hnone : (Table.ofPairs (l.placed steps)).get? here = none := by
    rw [Option.eq_none_iff_forall_ne_some]
    intro state hstate
    exact h _ (Table.get?_ofPairs_iff.1 hstate).mem rfl
  rw [world_run_of_filled hcells, World.stateAt, hnone, Option.getD_none]

theorem alike_of_rearranged {steps' : List Step}
    (h : Rearranged Prod.fst (l.placed steps) (l.placed steps')) :
    (l.run steps).world.Alike (l.run steps').world := by
  have hget : ∀ here, (Table.ofPairs (l.placed steps)).get? here =
      (Table.ofPairs (l.placed steps')).get? here := by
    intro here
    ext state
    rw [Table.get?_ofPairs_iff, Table.get?_ofPairs_iff, h.isLast_iff]
  rw [world_run_of_filled hcells, world_run_of_filled hcells]
  refine ⟨fun here => ?_, fun here => ?_, Table.size_congr hget⟩
  · rw [World.stateAt, World.stateAt, hget]
  · rw [World.isEmpty, World.isEmpty, World.stateAt, World.stateAt, hget]

end Filled

/-- Placements that all succeed are those of a run. -/
theorem run_of_placeAll {r : Registry} {placements : List Placement} {last : World}
    (h : w.placeAll r placements = .ok last) :
    (⟨r, w⟩ : Landscape).run (placements.map .set) = ⟨r, last⟩ := by
  induction placements generalizing w with
  | nil =>
    cases h
    rfl
  | cons p rest ih =>
    rw [World.placeAll, List.foldlM_cons] at h
    obtain ⟨next, hnext, hrest⟩ := bind_eq_ok_iff.1 h
    have hstep : (⟨r, w⟩ : Landscape).step (.set p) = ⟨r, next⟩ := by rw [step, hnext]
    show ((⟨r, w⟩ : Landscape).step (.set p)).run (rest.map .set) = _
    rw [hstep, ih hrest]

/-- After some steps, each position shows the block that was found for the last placement there
which did not fail, and all others show the fill block. Under the names of the positions the same
is kept. -/
structure ShowsLast (start : Landscape) (steps : List Step) : Prop where
  placed : ∀ before p behind block, steps = before ++ .set p :: behind →
    (start.run before).registry.block? p.block = some block →
    (∀ e ∈ (start.run (before ++ [.set p])).placed behind, e.1 ≠ p.position) →
    (start.run steps).world.stateAt p.position = .ofPairs block p.properties ∧
      (start.run steps).world.isEmpty p.position = block.isEmpty
  filled : ∀ here, (∀ e ∈ start.placed steps, e.1 ≠ here) →
    (start.run steps).world.stateAt here = start.world.fill ∧
      (start.run steps).world.isEmpty here = start.world.fill.block.isEmpty
  size : (start.run steps).world.size = ((start.placed steps).map Prod.fst).toFinset.card
  named : (∀ e ∈ start.placed steps, e.1.Rounded) →
    let cells := Table.ofPairs ((start.placed steps).map fun e => (e.1.name, e.2))
    cells.size = (start.run steps).world.size ∧ ∀ here : Position, here.Rounded →
      (cells.get? here.name).getD start.world.fill = (start.run steps).world.stateAt here

theorem showsLast_of_filled (hcells : l.world.cells = .empty) (steps : List Step) :
    l.ShowsLast steps := by
  refine ⟨fun before p behind block hsteps hblock hbehind => ?_, fun here hnone => ?_, ?_,
    fun hrounded => ⟨?_, fun here hhere => ?_⟩⟩
  · have hlast : IsLast Prod.fst (l.placed steps) (p.position, .ofPairs block p.properties) := by
      have hcut : steps = before ++ [.set p] ++ behind := by simp [hsteps]
      have hone : (l.run before).placed [.set p] = [(p.position, .ofPairs block p.properties)] := by
        show ((l.run before).placed? (.set p)).toList ++ [] = _
        rw [placed?_of_known hblock]
        rfl
      refine ⟨l.placed before, (l.run (before ++ [.set p])).placed behind, ?_, hbehind⟩
      rw [hcut, placed_append, placed_append, hone]
      simp
    have hstate := stateAt_of_isLast hcells hlast
    exact ⟨hstate, congrArg (fun state => state.block.isEmpty) hstate⟩
  · have hstate := stateAt_of_not_placed hcells hnone
    exact ⟨hstate, congrArg (fun state => state.block.isEmpty) hstate⟩
  · rw [world_run_of_filled hcells]
    exact Table.size_ofPairs _
  · rw [world_run_of_filled hcells]
    exact Table.size_ofPairs_renamed (fun _ _ => Position.name_inj) hrounded
  · rw [world_run_of_filled hcells, World.stateAt,
      Table.get?_ofPairs_renamed (fun _ _ => Position.name_inj) hrounded hhere]

/-- Nothing tells the two landscapes apart. -/
structure Alike (l other : Landscape) : Prop where
  registry : l.registry = other.registry
  world : l.world.Alike other.world

theorem alike_run_of_rearranged (hcells : l.world.cells = .empty) {sets sets' : List Placement}
    (h : Rearranged Placement.position sets sets') (before behind : List Step) :
    (l.run (before ++ sets.map .set ++ behind)).Alike
      (l.run (before ++ sets'.map .set ++ behind)) := by
  refine ⟨?_, alike_of_rearranged hcells (rearranged_placed h l before behind)⟩
  have hregistry : (l.run (before ++ sets.map .set)).registry =
      (l.run (before ++ sets'.map .set)).registry := by
    rw [run_append, run_append, registry_run_sets, registry_run_sets]
  rw [run_append, run_append l _ behind]
  exact (placed_congr hregistry behind).2

/-- The world is a map from positions to what was placed last. Placements that fail change nothing,
different positions have different names, the order counts for placements at one position only,
and a list of placements makes the world that the single ones make. -/
theorem showsLast_run {r : Registry} {fillBlock : String} {w : World}
    (hfill : World.filled r fillBlock = .ok w) (steps : List Step) :
    let start : Landscape := ⟨r, w⟩
    start.ShowsLast steps ∧
      (∀ before p behind, (start.run before).registry.block? p.block = none →
        (start.run before).world.place (start.run before).registry p =
            .error ⟨p.block, .unknownBlock p.block⟩ ∧
          start.run (before ++ .set p :: behind) = start.run (before ++ behind)) ∧
      (∀ p q : Position, p.Rounded → q.Rounded → (p.name = q.name ↔ p = q)) ∧
      (∀ c : Cell, c.position.Rounded) ∧
      (∀ c d : Cell, c.Kept → d.Kept → (c.position.name = d.position.name ↔ c = d)) ∧
      (∀ before sets sets' behind, Rearranged Placement.position sets sets' →
        (start.run (before ++ sets.map .set ++ behind)).Alike
          (start.run (before ++ sets'.map .set ++ behind))) ∧
      (∀ before (sets sets' : List Placement) behind, sets.Perm sets' →
        (sets.map Placement.position).Nodup →
        (start.run (before ++ sets.map .set ++ behind)).Alike
          (start.run (before ++ sets'.map .set ++ behind))) ∧
      ∀ placements, World.ofPlacements r fillBlock placements =
        match World.unknown? r placements with
        | some p => .error ⟨p.block, .unknownBlock p.block⟩
        | none => .ok (start.run (placements.map .set)).world := by
  intro start
  have hcells : start.world.cells = .empty := by
    obtain ⟨fill, -, rfl⟩ := map_eq_ok_iff.1 hfill
    rfl
  refine ⟨showsLast_of_filled hcells steps, fun before p behind hblock => ⟨?_, ?_⟩,
    fun p q => Position.name_inj, fun c => c.rounded_position, fun c d hc hd => ?_,
    fun before sets sets' behind h => alike_run_of_rearranged hcells h before behind,
    fun before sets sets' behind hperm hnodup =>
      alike_run_of_rearranged hcells (rearranged_of_perm hperm hnodup) before behind,
    fun placements => ?_⟩
  · exact World.place_of_unknown hblock _
  · have hstep := step_of_unknown hblock
    rw [run_append, run_append]
    exact congrArg (fun l : Landscape => l.run behind) hstep
  · rw [Position.name_inj c.rounded_position d.rounded_position, Cell.position_inj hc hd]
  · rw [World.ofPlacements, hfill]
    cases hunknown : World.unknown? r placements with
    | some p => exact World.placeAll_of_unknown w hunknown
    | none =>
      obtain ⟨last, hlast⟩ := World.exists_placeAll w hunknown
      have hrun : start.run (placements.map .set) = ⟨r, last⟩ := run_of_placeAll hlast
      rw [hrun]
      exact hlast

def quarry : Registry :=
  (Registry.empty 0 Registry.standardTagPrefixes Registry.standardNamespace).run
    [.typeTag "core.Block" none, .material "rock",
      .block ⟨"air", "core.Block", "rock", some true⟩, .block ⟨"stone", "core.Block", "rock", none⟩]

def air : Block := ⟨"core:air", .root 0 "core.Block", ⟨0, "rock"⟩, true⟩

def unhewn : World := ⟨.ofPairs air [], .empty⟩

def stone : Block := ⟨"core:stone", .root 0 "core.Block", ⟨0, "rock"⟩, false⟩

/-- Stone becomes an empty block while it stands somewhere, and there are no logs. -/
def weathering : List Step :=
  [.set ⟨.ofInts 0 (-1) 2, "stone", []⟩, .define (.block ⟨"stone", "core.Block", "rock", some true⟩),
    .set ⟨.ofInts 0 (-12) 0, "core:stone", []⟩, .set ⟨.ofInts 0 (-1) 2, "log", []⟩]

theorem showsLast_run_weathering :
    World.filled quarry "air" = .ok unhewn ∧
      ((⟨quarry, unhewn⟩ : Landscape).run weathering).world.isEmpty (.ofInts 0 (-1) 2) = false ∧
      ((⟨quarry, unhewn⟩ : Landscape).run weathering).world.size = 2 := by
  have hfill : World.filled quarry "air" = .ok unhewn :=
    map_eq_ok_iff.2 ⟨_, World.stateOf_eq_ok_iff.2 ⟨air, by decide +kernel, rfl⟩, rfl⟩
  obtain ⟨hplaced, -, hsize, -⟩ := (showsLast_run hfill weathering).1
  have hstone := hplaced [] ⟨.ofInts 0 (-1) 2, "stone", []⟩ _ stone rfl (by decide +kernel)
    (by decide +kernel)
  exact ⟨hfill, hstone.2, hsize.trans (by decide +kernel)⟩

end Landscape

end VoxelQuery
