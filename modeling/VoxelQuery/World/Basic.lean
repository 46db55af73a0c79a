import VoxelQuery.Query.Error
import VoxelQuery.Registry.Basic
import VoxelQuery.World.BlockState

/-! Worlds: the last state placed at each position, and a fill state everywhere else. A state
keeps the block it was placed with, also when the registry gets another block of that name later.
-/
namespace VoxelQuery

structure Placement where
  position : Position
  block : String
  properties : List (String × String)

structure World where
  fill : BlockState
  cells : Table Position BlockState

namespace World

def standardFillBlock : String := "core:air"

def stateOf (r : Registry) (block : String) (properties : List (String × String)) :
    Except QueryError BlockState :=
  match r.block? block with
  | some found => .ok (.ofPairs found properties)
  | none => .error ⟨block, .unknownBlock block⟩

def filled (r : Registry) (fillBlock : String) : Except QueryError World :=
  (stateOf r fillBlock []).map fun fill => ⟨fill, .empty⟩

def put (w : World) (position : Position) (state : BlockState) : World :=
  { w with cells := w.cells.put position state }

def place (w : World) (r : Registry) (p : Placement) : Except QueryError World :=
  (stateOf r p.block p.properties).map (w.put p.position)

/-- Placements are made in order, and the first unknown block ends the work. -/
def placeAll (w : World) (r : Registry) (placements : List Placement) : Except QueryError World :=
  placements.foldlM (fun w p => w.place r p) w

def ofPlacements (r : Registry) (fillBlock : String) (placements : List Placement) :
    Except QueryError World := do
  (← filled r fillBlock).placeAll r placements

def stateAt (w : World) (position : Position) : BlockState := (w.cells.get? position).getD w.fill

def isEmpty (w : World) (position : Position) : Bool := (w.stateAt position).block.isEmpty

/-- The number of positions at which a state was placed. -/
def size (w : World) : Nat := w.cells.size

def scene (w : World) : Scene where
  stateAt position := (w.stateAt position).view
  isEmpty := w.isEmpty

@[simp] theorem stateAt_put (w : World) (position other : Position) (state : BlockState) :
    (w.put position state).stateAt other = if position = other then state else w.stateAt other := by
  simp only [stateAt, put, Table.get?_put]
  split <;> rfl

end World

end VoxelQuery
