import VoxelQuery.Schema.Basic

/-! How issues are reported: as a JSON list, and as lines of text with the path of each. -/
namespace VoxelQuery

def Problem.message : Problem → String
  | missing _ => "Required"
  | wrongKind expected received => s!"Expected {expected.label}, received {received.label}"
  | notInteger => "Expected integer, received float"
  | refused .nonEmpty => "String must contain at least 1 character(s)"
  | refused _ => "Invalid"

def PathStep.toJson : PathStep → Json
  | field name => .text name
  | item index => .number (.ofInt index)

namespace Issue

/-- The fields come in a fixed order, which differs between the kinds of problem. -/
def toJson (issue : Issue) : Json :=
  let path : String × Json := ("path", .list (issue.path.map PathStep.toJson))
  let message : String × Json := ("message", .text issue.problem.message)
  let ofKinds (expected received : String) : Json :=
    .object [("code", .text "invalid_type"), ("expected", .text expected),
      ("received", .text received), path, message]
  match issue.problem with
  | .missing expected => ofKinds expected.label "undefined"
  | .wrongKind expected received => ofKinds expected.label received.label
  | .notInteger => ofKinds "integer" "float"
  | .refused .nonEmpty =>
    .object [("code", .text "too_small"), ("minimum", .number (.ofInt 1)), ("type", .text "string"),
      ("inclusive", .boolean true), ("exact", .boolean false), message, path]
  | .refused _ =>
    .object [("validation", .text "regex"), ("code", .text "invalid_string"), message, path]

/-- Names are set off by points and indices by brackets. -/
def pathText : List PathStep → String
  | [] => ""
  | .item index :: rest => s!"[{index}]" ++ pathText rest
  | .field name :: rest => "." ++ name ++ pathText rest

/-- An issue of the whole document has no path to tell. -/
def line (issue : Issue) : String :=
  match issue.path with
  | [] => issue.problem.message
  | .field name :: rest => issue.problem.message ++ " at " ++ name ++ pathText rest
  | path => issue.problem.message ++ " at " ++ pathText path

end Issue

end VoxelQuery
