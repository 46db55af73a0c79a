import VoxelQuery.Record
import VoxelQuery.Text.Lower
import VoxelQuery.Text.Units
import VoxelQuery.World.Scene

/-! Block states: a block with the values of its properties. Names of properties are kept in lower
case, values as they are written, and the key of a state writes both in lower case with sorted
names. -/
namespace VoxelQuery

structure BlockState where
  block : Block
  properties : Table String String
  deriving DecidableEq

namespace BlockState

/-- Of two names that are equal in lower case the later one, in the order of a record, decides. -/
def ofPairs (block : Block) (pairs : List (String × String)) : BlockState :=
  ⟨block, .ofPairs ((Record.fields pairs).map fun e => (Text.lower e.1, e.2))⟩

def property? (s : BlockState) (name : String) : Option String :=
  s.properties.get? (Text.lower name)

/-- Property names in increasing order, with their values in lower case. -/
def keyEntries (s : BlockState) : List (String × String) :=
  (s.properties.entries.map fun e => (e.1, Text.lower e.2)).mergeSort
    fun a b => Text.unitsLe a.1 b.1

def key (s : BlockState) : String :=
  if s.properties.size = 0 then s.block.identifier
  else
    let entries := s.keyEntries.map fun e => e.1 ++ "=" ++ e.2
    s.block.identifier ++ "[" ++ ",".intercalate entries ++ "]"

def view (s : BlockState) : CellView where
  identifier := s.block.identifier
  typeTag := s.block.typeTag
  material := s.block.material
  property? := s.property?
  key := s.key

end BlockState

end VoxelQuery
