import VoxelQuery.Json.Reader
import VoxelQuery.Schema.Basic
import VoxelQuery.Library.Context

/-! Catalogs: the materials, type tags, blocks and named queries of a host, as they are written
down in a JSON document. -/
namespace VoxelQuery

structure TypeTagSpec where
  name : String
  parent : Option String
  deriving DecidableEq

structure Catalog where
  defaultNamespace : String
  tagPrefixes : List String
  defaultProperty : String
  fillBlock : String
  materials : List String
  typeTags : List TypeTagSpec
  blocks : List BlockSpec
  queries : List QuerySpec
  deriving DecidableEq

namespace Catalog

def schema : Schema :=
  .object [
    ("defaultNamespace", false, .text .word),
    ("typeTagPrefixes", false, .list (.text .any)),
    ("defaultPropertyName", false, .text .word),
    ("fillBlock", false, .text .nonEmpty),
    ("materials", true, .list (.text .word)),
    ("typeTags", true, .list (.object [
      ("name", true, .text .nonEmpty),
      ("parent", false, .text .nonEmpty)])),
    ("blocks", true, .list (.object [
      ("identifier", true, .text .identifier),
      ("typeTag", true, .text .nonEmpty),
      ("material", true, .text .nonEmpty),
      ("empty", false, .boolean)])),
    ("queries", false, .list (.object [
      ("name", true, .text .word),
      ("description", false, .text .any),
      ("query", true, .text .nonEmpty)]))]

def readTypeTag (value : Json) : TypeTagSpec := ⟨value.textAt "name", value.textAt? "parent"⟩

def readBlock (value : Json) : BlockSpec :=
  ⟨value.textAt "identifier", value.textAt "typeTag", value.textAt "material",
    (value.field? "empty").bind Json.boolean?⟩

def readQuery (value : Json) : QuerySpec :=
  ⟨value.textAt "name", value.textAt? "description", value.textAt "query"⟩

/-- The catalog of a document that fits the schema, with defaults for what it leaves out. -/
def read (value : Json) : Catalog where
  defaultNamespace := (value.textAt? "defaultNamespace").getD Registry.standardNamespace
  tagPrefixes :=
    ((value.field? "typeTagPrefixes").map fun v => Json.texts v.items).getD
      Registry.standardTagPrefixes
  defaultProperty := (value.textAt? "defaultPropertyName").getD Environment.standardProperty
  fillBlock := (value.textAt? "fillBlock").getD World.standardFillBlock
  materials := Json.texts (value.itemsAt "materials")
  typeTags := (value.itemsAt "typeTags").map readTypeTag
  blocks := (value.itemsAt "blocks").map readBlock
  queries := (value.itemsAt "queries").map readQuery

def typeTagJson (entry : TypeTagSpec) : Json :=
  .object (("name", .text entry.name) :: Json.fieldOf "parent" (entry.parent.map .text))

def blockJson (entry : BlockSpec) : Json :=
  .object ([("identifier", .text entry.identifier), ("typeTag", .text entry.typeTag),
    ("material", .text entry.material)] ++ Json.fieldOf "empty" (entry.isEmpty.map .boolean))

def queryJson (q : QuerySpec) : Json :=
  .object (("name", .text q.name) :: (Json.fieldOf "description" (q.description.map .text) ++
    [("query", .text q.text)]))

def toJson (c : Catalog) : Json :=
  .object [
    ("defaultNamespace", .text c.defaultNamespace),
    ("typeTagPrefixes", .list (c.tagPrefixes.map .text)),
    ("defaultPropertyName", .text c.defaultProperty),
    ("fillBlock", .text c.fillBlock),
    ("materials", .list (c.materials.map .text)),
    ("typeTags", .list (c.typeTags.map typeTagJson)),
    ("blocks", .list (c.blocks.map blockJson)),
    ("queries", .list (c.queries.map queryJson))]

end Catalog

end VoxelQuery
