import VoxelQuery.Json.Basic
import VoxelQuery.Text.Word

/-! Schemas of JSON documents. Checking a document finds every rule that it breaks, each once, in
the order of the schema and of the items of a list; below a value of the wrong kind nothing is
checked. -/
namespace VoxelQuery

namespace Json

inductive Kind where
  | null
  | boolean
  | number
  | text
  | list
  | object
  deriving DecidableEq

def kind : Json → Kind
  | null => .null
  | boolean _ => .boolean
  | number _ => .number
  | text _ => .text
  | list _ => .list
  | object _ => .object

end Json

def Json.Kind.label : Json.Kind → String
  | null => "null"
  | boolean => "boolean"
  | number => "number"
  | text => "string"
  | list => "array"
  | object => "object"

/-- What a text in a document has to look like. -/
inductive TextRule where
  | any
  | nonEmpty
  | word
  | identifier
  deriving DecidableEq

def TextRule.accepts (rule : TextRule) (text : String) : Bool :=
  match rule with
  | any => true
  | nonEmpty => !text.toList.isEmpty
  | word => Text.isWord text.toList
  | identifier => Text.isIdentifier text.toList

/-- A record has fields of any name, an object those that are listed, each required or not. -/
inductive Schema where
  | text (rule : TextRule)
  | boolean
  | integer
  | list (item : Schema)
  | record (value : Schema)
  | object (fields : List (String × Bool × Schema))

inductive PathStep where
  | field (name : String)
  | item (index : Nat)
  deriving DecidableEq

inductive Problem where
  | missing (expected : Json.Kind)
  | wrongKind (expected received : Json.Kind)
  | notInteger
  | refused (rule : TextRule)
  deriving DecidableEq

structure Issue where
  path : List PathStep
  problem : Problem
  deriving DecidableEq

namespace Schema

def kind : Schema → Json.Kind
  | text _ => .text
  | boolean => .boolean
  | integer => .number
  | list _ => .list
  | record _ => .object
  | object _ => .object

mutual

/-- The rules of a schema that a value at the end of a path breaks. -/
def issues (path : List PathStep) : Schema → Json → List Issue
  | text rule, .text value => if rule.accepts value then [] else [⟨path, .refused rule⟩]
  | boolean, .boolean _ => []
  | integer, .number value => if value.isInteger then [] else [⟨path, .notInteger⟩]
  | list item, .list items =>
    items.zipIdx.flatMap fun e => issues (path ++ [.item e.2]) item e.1
  | record value, .object fields =>
    fields.flatMap fun e => issues (path ++ [.field e.1]) value e.2
  | object fields, .object values => fieldIssues path (.object values) fields
  | schema, value => [⟨path, .wrongKind schema.kind value.kind⟩]

def fieldIssues (path : List PathStep) (value : Json) : List (String × Bool × Schema) → List Issue
  | [] => []
  | (name, required, schema) :: rest =>
    let place := path ++ [.field name]
    let here :=
      match value.field? name with
      | some found => issues place schema found
      | none => if required then [⟨place, .missing schema.kind⟩] else []
    here ++ fieldIssues path value rest

end

def accepts (schema : Schema) (value : Json) : Bool := (schema.issues [] value).isEmpty

end Schema

end VoxelQuery
