import VoxelQuery.Registry.Entry
import VoxelQuery.Table

/-! Registries give meaning to the names in a query. A material or a tag can be defined once, a tag
derives from an earlier one, and a block defined again takes the place of the earlier block. -/
namespace VoxelQuery

inductive DefinitionError where
  | registryFrozen
  | materialDefined (name : String)
  | typeTagDefined (name : String)
  | parentUndefined (name parent : String)
  | blockTypeTagUndefined (identifier typeTag : String)
  | blockMaterialUndefined (identifier material : String)
  deriving DecidableEq

def DefinitionError.message : DefinitionError → String
  | registryFrozen => "Cannot modify the name registry after it has been frozen"
  | materialDefined name => s!"Material '{name}' is already defined"
  | typeTagDefined name => s!"Type tag '{name}' is already defined"
  | parentUndefined name parent => s!"Type tag '{name}' derives from undefined tag '{parent}'"
  | blockTypeTagUndefined identifier typeTag =>
    s!"Block '{identifier}' uses undefined type tag '{typeTag}'"
  | blockMaterialUndefined identifier material =>
    s!"Block '{identifier}' uses undefined material '{material}'"

/-- A block as it is written down, with names in place of entries. -/
structure BlockSpec where
  identifier : String
  typeTag : String
  material : String
  isEmpty : Option Bool
  deriving DecidableEq

structure Registry where
  number : Nat
  tagPrefixes : List String
  defaultNamespace : String
  materials : Table String Material
  typeTags : Table String TypeTag
  blocks : Table String Block
  frozen : Bool
  deriving DecidableEq

namespace Registry

/-- A tag name is looked for as it stands, then among custom tags, then among core tags. -/
def standardTagPrefixes : List String := ["", "custom.", "core."]

def standardNamespace : String := "core"

def empty (number : Nat) (tagPrefixes : List String) (defaultNamespace : String) : Registry :=
  ⟨number, tagPrefixes, defaultNamespace, .empty, .empty, .empty, false⟩

def freeze (r : Registry) : Registry := { r with frozen := true }

/-- An identifier without a namespace gets the default one. -/
def canonical (r : Registry) (text : String) : String :=
  if ':' ∈ text.toList then text else r.defaultNamespace ++ ":" ++ text

def block? (r : Registry) (text : String) : Option Block := r.blocks.get? (r.canonical text)

def identifier? (r : Registry) (text : String) : Option String :=
  (r.block? text).map Block.identifier

/-- The first of the tag prefixes that makes the name a defined one decides. -/
def typeTag? (r : Registry) (text : String) : Option TypeTag :=
  r.tagPrefixes.findSome? fun start => r.typeTags.get? (start ++ text)

def material? (r : Registry) (text : String) : Option Material := r.materials.get? text

def addMaterial (r : Registry) (name : String) : Except DefinitionError (Registry × Material) :=
  if r.frozen then .error .registryFrozen
  else if r.materials.contains name then .error (.materialDefined name)
  else
    let material : Material := ⟨r.number, name⟩
    .ok ({ r with materials := r.materials.put name material }, material)

def putTypeTag (r : Registry) (tag : TypeTag) : Registry × TypeTag :=
  ({ r with typeTags := r.typeTags.put tag.name tag }, tag)

def addTypeTag (r : Registry) (name : String) (parent : Option String) :
    Except DefinitionError (Registry × TypeTag) :=
  if r.frozen then .error .registryFrozen
  else if r.typeTags.contains name then .error (.typeTagDefined name)
  else
    match parent with
    | none => .ok (r.putTypeTag (.root r.number name))
    | some parentName =>
      match r.typeTags.get? parentName with
      | none => .error (.parentUndefined name parentName)
      | some parentTag => .ok (r.putTypeTag (.derived name parentTag))

def addBlock (r : Registry) (entry : BlockSpec) : Except DefinitionError (Registry × Block) :=
  if r.frozen then .error .registryFrozen
  else
    match r.typeTags.get? entry.typeTag with
    | none => .error (.blockTypeTagUndefined entry.identifier entry.typeTag)
    | some typeTag =>
      match r.materials.get? entry.material with
      | none => .error (.blockMaterialUndefined entry.identifier entry.material)
      | some material =>
        let identifier := r.canonical entry.identifier
        let block : Block := ⟨identifier, typeTag, material, entry.isEmpty.getD false⟩
        .ok ({ r with blocks := r.blocks.put identifier block }, block)

end Registry

end VoxelQuery
