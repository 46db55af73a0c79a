import VoxelQuery.Number.Basic

/-! JSON documents. The fields of an object are kept in the order in which they are listed. -/
namespace VoxelQuery

inductive Json where
  | null
  | boolean (value : Bool)
  | number (value : Number)
  | text (value : String)
  | list (items : List Json)
  | object (fields : List (String × Json))

namespace Json

instance : Inhabited Json := ⟨null⟩

/-- The field of an object, and nothing for a value of another kind. -/
def field? (name : String) : Json → Option Json
  | object fields => (fields.find? fun e => decide (e.1 = name)).map Prod.snd
  | _ => none

def text? : Json → Option String
  | text value => some value
  | _ => none

def boolean? : Json → Option Bool
  | boolean value => some value
  | _ => none

def number? : Json → Option Number
  | number value => some value
  | _ => none

/-- The items of a list; a value of another kind has none. -/
def items : Json → List Json
  | list items => items
  | _ => []

/-- The fields of an object; a value of another kind has none. -/
def fields : Json → List (String × Json)
  | object fields => fields
  | _ => []

/-- A text field of an object. -/
def textAt? (value : Json) (name : String) : Option String := (value.field? name).bind text?

/-- A text field of an object, and the empty text in place of anything else. -/
def textAt (value : Json) (name : String) : String := (value.textAt? name).getD ""

/-- The items of a list field, and no items in place of anything else. -/
def itemsAt (value : Json) (name : String) : List Json := ((value.field? name).map items).getD []

/-- The texts among the items of a list. -/
def texts (items : List Json) : List String := items.filterMap text?

/-- A field for an object that holds it only if there is a value. -/
def fieldOf (name : String) : Option Json → List (String × Json)
  | some value => [(name, value)]
  | none => []

end Json

end VoxelQuery
