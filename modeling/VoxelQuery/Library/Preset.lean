import VoxelQuery.Library.Store
import VoxelQuery.Registry.Basic

/-! Presets, the queries that are there from the start. Those that look above or beside a position
can be reached by name only. -/
namespace VoxelQuery

inductive Preset where
  | anything
  | nothing
  | airAbove
  | hasWater
  deriving DecidableEq

namespace Preset

def all : List Preset := [anything, nothing, airAbove, hasWater]

def name : Preset → String
  | anything => "anything"
  | nothing => "nothing"
  | airAbove => "airAbove"
  | hasWater => "hasWater"

def description : Preset → String
  | anything => "Matches every position."
  | nothing => "Matches no position."
  | airAbove => "The position directly above is empty."
  | hasWater => "At least one horizontal neighbour has the water material."

def find? (name : String) : Option Preset := all.find? fun p => decide (p.name = name)

/-- Water at a neighbour can be asked for only where a material of that name is defined. -/
def predicate? (r : Registry) : Preset → Option Predicate
  | anything => some .always
  | nothing => some .never
  | airAbove => some .emptyAbove
  | hasWater => (r.material? "water").map .adjacent

/-- The presets that a registry supports, with their predicates. -/
def supported (r : Registry) : List (String × Predicate) :=
  all.filterMap fun p => (p.predicate? r).map fun predicate => (p.name, predicate)

def install (store : QueryStore) (r : Registry) : Except Failure (QueryStore × List String) := do
  let store ← (supported r).foldlM (fun s e => s.register e.1 e.2) store
  .ok (store, (supported r).map Prod.fst)

end Preset

end VoxelQuery
