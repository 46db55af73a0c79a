import VoxelQuery.Number.Basic
import VoxelQuery.Registry.Entry

/-! What a predicate can see of a world: the state of the block at a position, and whether the
position counts as empty. -/
namespace VoxelQuery

structure Position where
  x : Number
  y : Number
  z : Number
  deriving DecidableEq

namespace Position

def ofInts (x y z : Int) : Position := ⟨.ofInt x, .ofInt y, .ofInt z⟩

def west (p : Position) : Position := { p with x := p.x + .ofInt (-1) }
def east (p : Position) : Position := { p with x := p.x + .ofInt 1 }
def north (p : Position) : Position := { p with z := p.z + .ofInt (-1) }
def south (p : Position) : Position := { p with z := p.z + .ofInt 1 }
def above (p : Position) : Position := { p with y := p.y + .ofInt 1 }

/-- The horizontal neighbours in the order in which they are looked at. -/
def neighbours (p : Position) : List Position := [p.west, p.east, p.north, p.south]

end Position

/-- One block state as it is read. Property names are looked up without regard to case. -/
structure CellView where
  identifier : String
  typeTag : TypeTag
  material : Material
  property? : String → Option String
  key : String

structure Scene where
  stateAt : Position → CellView
  isEmpty : Position → Bool

/-- One reading of a world. -/
inductive Access where
  | state (position : Position)
  | emptiness (position : Position)
  deriving DecidableEq

end VoxelQuery
