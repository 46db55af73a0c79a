import VoxelQuery.Service.Tool
import VoxelQuery.Service.Uri

/-! The documents that a library offers for reading: its named queries, and the names that a query
can refer to. -/
namespace VoxelQuery

inductive Resource where
  | queries
  | catalog
  deriving DecidableEq

inductive ResourceError where
  | uriInvalid
  | unknown (uri : String)
  | failed (failure : Failure)
  deriving DecidableEq

/-- A failure behind the request has another code than a request for nothing that is there. -/
def ResourceError.message : ResourceError → String
  | uriInvalid => "MCP error -32603: Invalid URL"
  | unknown uri => "MCP error -32602: MCP error -32602: Resource " ++ uri ++ " not found"
  | failed failure => "MCP error -32603: " ++ failure.message

namespace Resource

def all : List Resource := [queries, catalog]

def name : Resource → String
  | queries => "queries"
  | catalog => "catalog"

def uri (r : Resource) : String := "blockquery://" ++ r.name

def description : Resource → String
  | queries => "Named queries (presets, catalog and saved) usable as @name"
  | catalog => "Blocks, type tags and materials known to the query compiler"

def mimeType : String := "application/json"

/-- The document of a URI that is in normal form. -/
def find? (uri : String) : Option Resource := all.find? fun r => decide (r.uri = uri)

def listingJson (q : Listing) : Json :=
  .object ([("name", .text q.name)] ++ Json.fieldOf "description" (q.description.map .text) ++
    [("source", .text (Tool.sourceText q.source))] ++ Json.fieldOf "queryText" (q.text.map .text))

def typeTagJson (t : TypeTag) : Json :=
  .object (("name", .text t.name) :: Json.fieldOf "parent" (t.parent?.map fun p => .text p.name))

def blockJson (b : Block) : Json :=
  .object [("identifier", .text b.identifier), ("typeTag", .text b.typeTag.name),
    ("material", .text b.material.name), ("empty", .boolean b.isEmpty)]

/-- The definitions of a context, as a catalog without its fill block and its queries. -/
def catalogJson (c : Context) : Json :=
  let r := c.registry
  .object [
    ("defaultNamespace", .text r.defaultNamespace),
    ("typeTagPrefixes", .list (r.tagPrefixes.map .text)),
    ("defaultPropertyName", .text c.defaultProperty),
    ("materials", .list (r.materials.values.map fun m => .text m.name)),
    ("typeTags", .list (r.typeTags.values.map typeTagJson)),
    ("blocks", .list (r.blocks.values.map blockJson))]

def content (l : Library) : Resource → Except Failure Json
  | queries => l.list.map fun listings => .list (listings.map listingJson)
  | catalog => .ok (catalogJson l.context)

def read (l : Library) (r : Resource) : Except Failure String := (r.content l).map Json.pretty

/-- A request from outside, answered with the document and its text. -/
def request (l : Library) (uri : String) : Except ResourceError (Resource × String) :=
  match Uri.normal? uri with
  | none => .error .uriInvalid
  | some normal =>
    match find? normal with
    | none => .error (.unknown normal)
    | some r =>
      match r.read l with
      | .ok text => .ok (r, text)
      | .error failure => .error (.failed failure)

end Resource

end VoxelQuery
