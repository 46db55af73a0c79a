import VoxelQuery.Proofs.Catalog.Building
import VoxelQuery.Proofs.Library.Restart
import VoxelQuery.Proofs.World.Cell

/-! Translation of worlds. A predicate that a text can be compiled to sees a world only relative to
the cell where it is evaluated. So it gives the same results, with the same readings in the same
order, when placements and cells are moved together, as long as all coordinates are kept exactly. -/
namespace VoxelQuery

/-- A reading of a kept cell, and the same reading of the cell that it was moved to. -/
inductive Access.ShiftedBy (d : Cell) : Access → Access → Prop
  | state {c : Cell} (hc : c.Kept) (hd : (c + d).Kept) :
      ShiftedBy d (.state c.position) (.state (c + d).position)
  | emptiness {c : Cell} (hc : c.Kept) (hd : (c + d).Kept) :
      ShiftedBy d (.emptiness c.position) (.emptiness (c + d).position)

/-- The same value, from readings that were moved one by one. -/
structure Outcome.ShiftedBy (d : Cell) (found moved : Outcome) : Prop where
  holds : moved.holds = found.holds
  accesses : List.Forall₂ (Access.ShiftedBy d) found.accesses moved.accesses

/-- Cell by cell, the second scene shows what the first one shows before the move. -/
def Scene.ShiftedBy (d : Cell) (scene moved : Scene) : Prop :=
  ∀ c : Cell, c.Kept → (c + d).Kept →
    moved.stateAt (c + d).position = scene.stateAt c.position ∧
      moved.isEmpty (c + d).position = scene.isEmpty c.position

namespace Outcome.ShiftedBy

variable {d c : Cell} {scene moved : Scene}

theorem settled (d : Cell) (holds : Bool) :
    Outcome.ShiftedBy d (Outcome.settled holds) (Outcome.settled holds) := ⟨rfl, .nil⟩

theorem ofState (h : scene.ShiftedBy d moved) (hc : c.Kept) (hd : (c + d).Kept)
    (test : CellView → Bool) :
    Outcome.ShiftedBy d (Outcome.ofState scene c.position test)
      (Outcome.ofState moved (c + d).position test) :=
  ⟨congrArg test (h c hc hd).1, .cons (.state hc hd) .nil⟩

theorem search (h : scene.ShiftedBy d moved) (test : CellView → Bool) {cells : List Cell}
    (hcells : ∀ c ∈ cells, c.Kept ∧ (c + d).Kept) :
    Outcome.ShiftedBy d (Outcome.search scene test (cells.map Cell.position))
      (Outcome.search moved test (cells.map fun c => (c + d).position)) := by
  induction cells with
  | nil => exact settled d false
  | cons c rest ih =>
    obtain ⟨⟨hc, hd⟩, hrest⟩ := List.forall_mem_cons.1 hcells
    obtain ⟨hholds, haccesses⟩ := ih hrest
    rw [List.map_cons, List.map_cons, Outcome.search, Outcome.search, (h c hc hd).1]
    split
    · exact ⟨rfl, .cons (.state hc hd) .nil⟩
    · exact ⟨hholds, .cons (.state hc hd) haccesses⟩

/-- Children are evaluated until one settles the value, and it is the same one behind the move. -/
theorem children {here there : Position} {connective : Connective} {children : List Predicate}
    (h : ∀ child ∈ children,
      Outcome.ShiftedBy d (child.evaluate scene here) (child.evaluate moved there)) :
    Outcome.ShiftedBy d (Predicate.evaluateChildren scene here connective children)
      (Predicate.evaluateChildren moved there connective children) := by
  induction children with
  | nil => exact settled d _
  | cons child rest ih =>
    obtain ⟨hfirst, hrest⟩ := List.forall_mem_cons.1 h
    obtain ⟨hholds, haccesses⟩ := ih hrest
    rw [Predicate.evaluateChildren, Predicate.evaluateChildren, hfirst.holds]
    split
    · exact hfirst
    · exact ⟨hholds, List.rel_append hfirst.accesses haccesses⟩

end Outcome.ShiftedBy

theorem Predicate.Grounded.evaluate_shifted {r : Registry} {p : Predicate} (hp : p.Grounded r)
    {d : Cell} {scene moved : Scene} (hscene : scene.ShiftedBy d moved) {c : Cell} (hc : c.Exact)
    (hd : (c + d).Exact) :
    Outcome.ShiftedBy d (p.evaluate scene c.position) (p.evaluate moved (c + d).position) := by
  -- A grounded predicate has no test of the altitude, the one thing that would see the move.
  induction hp with
  | always => exact .settled d true
  | never => exact .settled d false
  | combination connective hmany hall ih => exact .children ih
  | negation h ih => exact ⟨congrArg not ih.holds, ih.accesses⟩
  | block h => exact .ofState hscene hc.kept hd.kept _
  | typeTag strict h => exact .ofState hscene hc.kept hd.kept _
  | property hname hvalues hne hnodup => exact .ofState hscene hc.kept hd.kept _
  | material h => exact .ofState hscene hc.kept hd.kept _
  | @adjacent m h =>
    have hcells : ∀ next ∈ Cell.sideways.map (c + ·), next.Kept ∧ (next + d).Kept := by
      refine List.forall_mem_map.2 fun o ho => ⟨hc.kept_add (Cell.near_of_mem_sideways ho), ?_⟩
      rw [Cell.add_right_comm]
      exact hd.kept_add (Cell.near_of_mem_sideways ho)
    have hsearch := Outcome.ShiftedBy.search hscene (fun s => decide (s.material = m)) hcells
    rw [List.map_map, List.map_map] at hsearch
    simp only [Function.comp_def, Cell.add_right_comm c _ d] at hsearch
    rwa [evaluate, evaluate, Cell.neighbours_position hc, Cell.neighbours_position hd]
  | emptyAbove =>
    have hkept := hc.kept_add Cell.near_upwards
    have hmoved := hd.kept_add Cell.near_upwards
    rw [evaluate, evaluate, Cell.above_position hc, Cell.above_position hd]
    rw [← Cell.add_right_comm] at hmoved ⊢
    exact ⟨(hscene _ hkept hmoved).2, .cons (.emptiness hkept hmoved) .nil⟩

/-- A placement at a cell. -/
structure Site where
  cell : Cell
  block : String
  properties : List (String × String)

namespace Site

def placement (s : Site) : Placement := ⟨s.cell.position, s.block, s.properties⟩

def shift (d : Cell) (s : Site) : Site := { s with cell := s.cell + d }

end Site

namespace World

variable {d : Cell} {w moved : World} {r : Registry} {sites : List Site}

/-- Cell by cell, the second world holds what the first one holds before the move. -/
def ShiftedBy (d : Cell) (w moved : World) : Prop :=
  ∀ c : Cell, c.Kept → (c + d).Kept → moved.stateAt (c + d).position = w.stateAt c.position

theorem ShiftedBy.scene (h : w.ShiftedBy d moved) : w.scene.ShiftedBy d moved.scene :=
  fun c hc hd => ⟨congrArg BlockState.view (h c hc hd),
    congrArg (fun state => state.block.isEmpty) (h c hc hd)⟩

theorem ShiftedBy.put (h : w.ShiftedBy d moved) {c : Cell} (hc : c.Kept) (hd : (c + d).Kept)
    (state : BlockState) :
    (w.put c.position state).ShiftedBy d (moved.put (c + d).position state) := by
  intro other hother hother'
  rw [stateAt_put, stateAt_put, h other hother hother']
  simp only [Cell.position_inj hc hother, Cell.position_inj hd hother', Cell.add_right_inj]

/-- The two works fail alike, or give worlds that differ by the move. -/
theorem placeAll_shifted (h : w.ShiftedBy d moved)
    (hsites : ∀ s ∈ sites, s.cell.Kept ∧ (s.cell + d).Kept) :
    (∃ e, w.placeAll r (sites.map Site.placement) = .error e ∧
      moved.placeAll r (sites.map fun s => (s.shift d).placement) = .error e) ∨
    ∃ last last', w.placeAll r (sites.map Site.placement) = .ok last ∧
      moved.placeAll r (sites.map fun s => (s.shift d).placement) = .ok last' ∧
      last.ShiftedBy d last' := by
  induction sites generalizing w moved with
  | nil => exact .inr ⟨w, moved, rfl, rfl, h⟩
  | cons s rest ih =>
    obtain ⟨⟨hc, hd⟩, hrest⟩ := List.forall_mem_cons.1 hsites
    simp only [placeAll, List.map_cons, List.foldlM_cons, place, Site.placement, Site.shift]
    cases stateOf r s.block s.properties with
    | error e => exact .inl ⟨e, rfl, rfl⟩
    | ok state => exact ih (h.put hc hd state) hrest

theorem ofPlacements_shifted (r : Registry) (fillBlock : String)
    (hsites : ∀ s ∈ sites, s.cell.Kept ∧ (s.cell + d).Kept) :
    (∃ e, ofPlacements r fillBlock (sites.map Site.placement) = .error e ∧
      ofPlacements r fillBlock (sites.map fun s => (s.shift d).placement) = .error e) ∨
    ∃ w moved, ofPlacements r fillBlock (sites.map Site.placement) = .ok w ∧
      ofPlacements r fillBlock (sites.map fun s => (s.shift d).placement) = .ok moved ∧
      w.ShiftedBy d moved := by
  simp only [ofPlacements, filled]
  cases stateOf r fillBlock [] with
  | error e => exact .inl ⟨e, rfl, rfl⟩
  | ok fill =>
    have hstart : ShiftedBy d ⟨fill, .empty⟩ ⟨fill, .empty⟩ := fun _ _ _ => rfl
    exact placeAll_shifted hstart hsites

end World

/-- The same values for the same cells in their order, and the same readings, each of them moved. -/
structure Predicate.Translated (d : Cell) (found moved : List (Position × Outcome)) : Prop where
  flags : moved.map (fun e => e.2.holds) = found.map fun e => e.2.holds
  accesses : List.Forall₂ (Access.ShiftedBy d) (found.flatMap fun e => e.2.accesses)
    (moved.flatMap fun e => e.2.accesses)

theorem Predicate.Grounded.translated {r : Registry} {p : Predicate} (hp : p.Grounded r)
    {d : Cell} {scene moved : Scene} (hscene : scene.ShiftedBy d moved) {cells : List Cell}
    (hcells : ∀ c ∈ cells, c.Exact ∧ (c + d).Exact) :
    Translated d (p.evaluateAll scene (cells.map Cell.position))
      (p.evaluateAll moved (cells.map fun c => (c + d).position)) := by
  induction cells with
  | nil => exact ⟨rfl, .nil⟩
  | cons c rest ih =>
    obtain ⟨⟨hc, hd⟩, hrest⟩ := List.forall_mem_cons.1 hcells
    obtain ⟨hflags, haccesses⟩ := ih hrest
    obtain ⟨hholds, hfirst⟩ := hp.evaluate_shifted hscene hc hd
    exact ⟨congrArg₂ List.cons hholds hflags, List.rel_append hfirst haccesses⟩

namespace Library

/-- Whatever is done behind the start from a catalog, a text that compiles gives the same flags and
the same readings when the placements and the cells are moved together. -/
theorem translated_run {catalog : Catalog} {number : Nat} {context : Context}
    (hcontext : catalog.context number = .ok context) (db : Database) (steps : List Step)
    {text : String} {p : Predicate} (hp : (run ⟨context, db⟩ steps).context.compile text = .ok p)
    (fillBlock : String) {d : Cell} {sites : List Site} {cells : List Cell}
    (hsites : ∀ s ∈ sites, s.cell.Exact ∧ (s.cell + d).Exact)
    (hcells : ∀ c ∈ cells, c.Exact ∧ (c + d).Exact) :
    let r := (run ⟨context, db⟩ steps).context.registry
    (∃ e, World.ofPlacements r fillBlock (sites.map Site.placement) = .error e ∧
      World.ofPlacements r fillBlock (sites.map fun s => (s.shift d).placement) = .error e) ∨
    ∃ w moved, World.ofPlacements r fillBlock (sites.map Site.placement) = .ok w ∧
      World.ofPlacements r fillBlock (sites.map fun s => (s.shift d).placement) = .ok moved ∧
      Predicate.Translated d (p.evaluateAll w.scene (cells.map Cell.position))
        (p.evaluateAll moved.scene (cells.map fun c => (c + d).position)) := by
  intro r
  have hsound := (Catalog.context_eq_ok_iff.1 hcontext).sound
  have hgrounded := (@sound_run ⟨context, db⟩ hsound steps).compile hp
  have hkept : ∀ s ∈ sites, s.cell.Kept ∧ (s.cell + d).Kept :=
    fun s hs => ⟨(hsites s hs).1.kept, (hsites s hs).2.kept⟩
  refine (World.ofPlacements_shifted r fillBlock hkept).imp_right ?_
  rintro ⟨w, moved, hw, hmoved, hshifted⟩
  exact ⟨w, moved, hw, hmoved, hgrounded.translated hshifted.scene hcells⟩

/-- A query that looks upwards, saved under a second name, with a restart behind it. -/
def piling : List Step :=
  [.declare ⟨"heap", none, "@soil, @airAbove"⟩, .database Database.blank.migrate,
    .define ⟨"1", "2026"⟩ ⟨"pile", none, "@heap !~rock"⟩, .load]

/-- Two cells, one of them written twice. -/
def pile : List Site :=
  [⟨⟨0, 64, 0⟩, "stone", []⟩, ⟨⟨0, 65, 0⟩, "dirt", [("snowy", "true")]⟩, ⟨⟨0, 64, 0⟩, "core:dirt", []⟩]

theorem translated_run_pile :
    ∃ context, Catalog.quarry.context 0 = .ok context ∧
      ∃ p, (run ⟨context, .blank⟩ piling).context.compile "@pile" = .ok p ∧
        (∀ s ∈ pile, s.cell.Exact ∧ (s.cell + ⟨-3, 12, 7⟩).Exact) ∧
        (∀ c ∈ pile.map Site.cell, c.Exact ∧ (c + ⟨-3, 12, 7⟩).Exact) ∧
        let r := (run ⟨context, .blank⟩ piling).context.registry
        (∃ e, World.ofPlacements r "stone" (pile.map Site.placement) = .error e ∧
          World.ofPlacements r "stone" (pile.map fun s => (s.shift ⟨-3, 12, 7⟩).placement) =
            .error e) ∨
        ∃ w moved, World.ofPlacements r "stone" (pile.map Site.placement) = .ok w ∧
          World.ofPlacements r "stone" (pile.map fun s => (s.shift ⟨-3, 12, 7⟩).placement) =
            .ok moved ∧
          Predicate.Translated ⟨-3, 12, 7⟩
            (p.evaluateAll w.scene ((pile.map Site.cell).map Cell.position))
            (p.evaluateAll moved.scene ((pile.map Site.cell).map fun c => (c + ⟨-3, 12, 7⟩).position)) := by
  have hcompile : ∃ context, Catalog.quarry.context 0 = .ok context ∧
      ∃ p, (run ⟨context, .blank⟩ piling).context.compile "@pile" = .ok p := ⟨_, by cbv, _, by cbv⟩
  obtain ⟨context, hcontext, p, hp⟩ := hcompile
  have hpile : ∀ s ∈ pile, s.cell.Exact ∧ (s.cell + ⟨-3, 12, 7⟩).Exact := by decide
  have hcells : ∀ c ∈ pile.map Site.cell, c.Exact ∧ (c + ⟨-3, 12, 7⟩).Exact := by decide
  exact ⟨context, hcontext, p, hp, hpile, hcells,
    translated_run hcontext .blank piling hp "stone" hpile hcells⟩

end Library

end VoxelQuery
