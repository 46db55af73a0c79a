import VoxelQuery.Schema.Issue
import VoxelQuery.Json.Printer
import VoxelQuery.Library.Basic
import VoxelQuery.Predicate.Evaluation
import VoxelQuery.Predicate.Text

/-! The tools that a library offers to its clients. A tool takes its arguments as a JSON document,
which has to fit the schema of the tool, and answers with a text. -/
namespace VoxelQuery

inductive Tool where
  | compileQuery
  | matchQuery
  | defineQuery
  | listQueries
  deriving DecidableEq

structure ToolAnswer where
  isError : Bool
  text : String
  deriving DecidableEq

namespace Tool

def all : List Tool := [compileQuery, matchQuery, defineQuery, listQueries]

def name : Tool → String
  | compileQuery => "compile_query"
  | matchQuery => "match_query"
  | defineQuery => "define_query"
  | listQueries => "list_queries"

def description : Tool → String
  | compileQuery => "Compile a block query and show the resulting predicate tree. " ++
    "Commas separate alternatives (OR), adjacent terms must all match (AND), " ++
    "\"!\" negates one term."
  | matchQuery => "Evaluate a block query at the given positions of a block snapshot. " ++
    "Positions not listed in blocks hold the fill block (air)."
  | defineQuery => "Compile a block query and save it under a name so other queries can " ++
    "reference it as @name. Redefining a name replaces it."
  | listQueries => "List the named queries available as @name: presets, catalog queries and " ++
    "saved queries."

def find? (name : String) : Option Tool := all.find? fun t => decide (t.name = name)

def coordinates : List (String × Bool × Schema) :=
  [("x", true, .integer), ("y", true, .integer), ("z", true, .integer)]

def schema : Tool → Schema
  | compileQuery => .object [("query", true, .text .any)]
  | matchQuery => .object [
      ("query", true, .text .any),
      ("blocks", true, .list (.object (coordinates ++ [
        ("block", true, .text .any),
        ("properties", false, .record (.text .any))]))),
      ("positions", true, .list (.object coordinates))]
  | defineQuery => .object [
      ("name", true, .text .word),
      ("query", true, .text .any),
      ("description", false, .text .any)]
  | listQueries => .object []

def readPosition (value : Json) : Position :=
  let coordinate (name : String) : Number := ((value.field? name).bind Json.number?).getD default
  ⟨coordinate "x", coordinate "y", coordinate "z"⟩

/-- The one name that no record of properties can hold. -/
def reservedName : String := "__proto__"

/-- Names that are taken but stand for no tool, so a call finds one that is switched off. -/
def disabledNames : List String :=
  [reservedName, "constructor", "hasOwnProperty", "isPrototypeOf", "propertyIsEnumerable",
    "toLocaleString", "toString", "valueOf", "__defineGetter__", "__defineSetter__",
    "__lookupGetter__", "__lookupSetter__"]

def readProperties (value : Json) : List (String × String) :=
  value.fields.filterMap fun e =>
    if e.1 = reservedName then none else e.2.text?.map fun text => (e.1, text)

def readPlacement (value : Json) : Placement :=
  ⟨readPosition value, value.textAt "block",
    ((value.field? "properties").map readProperties).getD []⟩

def readNamedQuery (value : Json) : QuerySpec :=
  ⟨value.textAt "name", value.textAt? "description", value.textAt "query"⟩

def success (text : String) : ToolAnswer := ⟨false, text⟩

/-- A query that cannot be compiled, placed or defined. -/
def queryError (message : String) : ToolAnswer := ⟨true, "Query error: " ++ message⟩

def compileAnswer (c : Context) (text : String) : ToolAnswer :=
  match c.compile text with
  | .ok p => success p.text
  | .error e => queryError e.message

def matchJson (m : Position × Outcome) : Json :=
  .object [("x", .number m.1.x), ("y", .number m.1.y), ("z", .number m.1.z),
    ("matched", .boolean m.2.holds)]

/-- The query is compiled before the world is made, so its error comes first. -/
def matchAnswer (c : Context) (text : String) (placements : List Placement)
    (positions : List Position) : ToolAnswer :=
  let found : Except QueryError (List (Position × Outcome)) := do
    let p ← c.compile text
    let world ← c.world placements
    .ok (p.evaluateAll world.scene positions)
  match found with
  | .ok results => success (Json.list (results.map matchJson)).pretty
  | .error e => queryError e.message

def savedJson (q : SavedQuery) : Json :=
  .object ([("id", .text q.id), ("name", .text q.name)] ++
    Json.fieldOf "description" (q.description.map .text) ++
    [("queryText", .text q.text), ("createdAt", .text q.createdAt),
      ("updatedAt", .text q.updatedAt)])

def defineAnswer (l : Library) (stamp : Stamp) (q : QuerySpec) : ToolAnswer × Library :=
  match l.define stamp q with
  | (.ok saved, l) => (success (savedJson saved).pretty, l)
  | (.error failure, l) => (queryError failure.message, l)

def sourceText : Source → String
  | .preset => "preset"
  | .declared => "declared"
  | .saved => "saved"

/-- An empty description is left out like one that is absent. -/
def listingLine (q : Listing) : String :=
  let description := q.description.getD ""
  "- " ++ q.name ++ " [" ++ sourceText q.source ++ "]" ++
    (if description = "" then "" else ": " ++ description) ++
    (match q.text with
      | some text => " = " ++ text
      | none => "")

def listAnswer (l : Library) : ToolAnswer :=
  match l.list with
  | .error failure => ⟨true, failure.message⟩
  | .ok [] => success "No named queries."
  | .ok listings => success ("Named queries:\n" ++ "\n".intercalate (listings.map listingLine))

/-- What a tool does with arguments that fit its schema. -/
def run (l : Library) (stamp : Stamp) (arguments : Json) : Tool → ToolAnswer × Library
  | compileQuery => (compileAnswer l.context (arguments.textAt "query"), l)
  | matchQuery =>
    (matchAnswer l.context (arguments.textAt "query")
      ((arguments.itemsAt "blocks").map readPlacement)
      ((arguments.itemsAt "positions").map readPosition), l)
  | defineQuery => defineAnswer l stamp (readNamedQuery arguments)
  | listQueries => (listAnswer l, l)

/-- A call from outside, with a name that may be unknown and arguments that may not fit. -/
def call (l : Library) (stamp : Stamp) (name : String) (arguments : Json) : ToolAnswer × Library :=
  match find? name with
  | none =>
    let state := if name ∈ disabledNames then "disabled" else "not found"
    (⟨true, "MCP error -32602: Tool " ++ name ++ " " ++ state⟩, l)
  | some tool =>
    match tool.schema.issues [] arguments with
    | [] => tool.run l stamp arguments
    | issues =>
      let start := "MCP error -32602: Input validation error: Invalid arguments for tool "
      (⟨true, start ++ name ++ ": " ++ "\n".intercalate (issues.map Issue.line)⟩, l)

end Tool

end VoxelQuery
