import VoxelQuery.Library.Preset
import VoxelQuery.Query.Compile
import VoxelQuery.World.Basic

/-! Contexts: a registry, the store of named predicates, and the queries that a host declared, in
the order of their first declaration. -/
namespace VoxelQuery

structure QuerySpec where
  name : String
  description : Option String
  text : String
  deriving DecidableEq

structure Context where
  registry : Registry
  store : QueryStore
  defaultProperty : String
  fillBlock : String
  declared : Table String QuerySpec

namespace Context

/-- The presets that the registry supports are registered at once. -/
def create (r : Registry) (defaultProperty fillBlock : String) : Context :=
  ⟨r, ⟨.ofPairs (Preset.supported r), false⟩, defaultProperty, fillBlock, .empty⟩

def environment (c : Context) : Environment where
  identifier? := c.registry.identifier?
  typeTag? := c.registry.typeTag?
  material? := c.registry.material?
  query? := c.store.lookup?
  defaultProperty := some c.defaultProperty

def compile (c : Context) (text : String) : Except QueryError Predicate :=
  c.environment.compile text

/-- Compile a text and register the predicate under a name. -/
def register (c : Context) (name text : String) : Except Failure (Context × Predicate) :=
  match c.compile text with
  | .error e => .error (.query e)
  | .ok p => (c.store.register name p).map fun store => ({ c with store := store }, p)

/-- A query declared again keeps its place in the list of declarations. -/
def declare (c : Context) (q : QuerySpec) : Except Failure (Context × Predicate) :=
  (c.register q.name q.text).map fun r => ({ r.1 with declared := r.1.declared.put q.name q }, r.2)

/-- The world of some placements in the fill block of the context. -/
def world (c : Context) (placements : List Placement) : Except QueryError World :=
  World.ofPlacements c.registry c.fillBlock placements

end Context

end VoxelQuery
