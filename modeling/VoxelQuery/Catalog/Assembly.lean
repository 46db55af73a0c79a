import VoxelQuery.Catalog.Basic
import VoxelQuery.Schema.Issue
import VoxelQuery.Json.Printer
import VoxelQuery.Text.Utf8

/-! From catalog documents to contexts. A catalog is read from JSON, its entries are defined in
the order in which they are listed, and its queries are declared one after the other. -/
namespace VoxelQuery

inductive CatalogError where
  | notJson (file : String) (error : Json.SyntaxError)
  | invalid (issues : List Issue)
  | definition (error : DefinitionError)
  | fillBlockUndefined (name : String)
  | query (name : String) (failure : Failure)
  deriving DecidableEq

/-- The message about a file that is no JSON document, without what is wrong with it. -/
def CatalogError.notJsonText (file : String) : String := s!"Catalog {file} is not valid JSON"

def CatalogError.message : CatalogError → String
  | notJson file error => notJsonText file ++ ": " ++ error.message
  | invalid issues => "Invalid catalog: " ++ (Json.list (issues.map Issue.toJson)).pretty
  | definition error => error.message
  | fillBlockUndefined name => s!"Fill block '{name}' is not defined"
  | query name failure => s!"Catalog query '{name}': {failure.message}"

namespace Catalog

def parse (value : Json) : Except CatalogError Catalog :=
  match schema.issues [] value with
  | [] => .ok (read value)
  | issues => .error (.invalid issues)

/-- Read the content of a catalog file. -/
def load (file : String) (content : List UInt8) : Except CatalogError Catalog :=
  match Json.parse (Text.decodeUtf8 content) with
  | .ok value => parse value
  | .error e => .error (.notJson file e)

def addMaterials (r : Registry) (names : List String) : Except DefinitionError Registry :=
  names.foldlM (fun r name => (r.addMaterial name).map Prod.fst) r

def addTypeTags (r : Registry) (entries : List TypeTagSpec) : Except DefinitionError Registry :=
  entries.foldlM (fun r entry => (r.addTypeTag entry.name entry.parent).map Prod.fst) r

def addBlocks (r : Registry) (entries : List BlockSpec) : Except DefinitionError Registry :=
  entries.foldlM (fun r entry => (r.addBlock entry).map Prod.fst) r

/-- All definitions of a catalog: materials, then type tags, then blocks. -/
def define (c : Catalog) (number : Nat) : Except DefinitionError Registry := do
  let r ← addMaterials (.empty number c.tagPrefixes c.defaultNamespace) c.materials
  let r ← addTypeTags r c.typeTags
  addBlocks r c.blocks

/-- The registry of a catalog, in which the fill block has to be a defined block. -/
def registry (c : Catalog) (number : Nat) : Except CatalogError Registry :=
  match c.define number with
  | .error e => .error (.definition e)
  | .ok r =>
    if (r.block? c.fillBlock).isSome then .ok r else .error (.fillBlockUndefined c.fillBlock)

/-- A query of a catalog can refer to the presets and to the queries before it. -/
def declareAll (context : Context) (queries : List QuerySpec) : Except CatalogError Context :=
  queries.foldlM (fun context q =>
    match context.declare q with
    | .ok (context, _) => .ok context
    | .error failure => .error (.query q.name failure)) context

def context (c : Catalog) (number : Nat) : Except CatalogError Context := do
  let r ← c.registry number
  declareAll (.create r c.defaultProperty c.fillBlock) c.queries

end Catalog

end VoxelQuery
