import VoxelQuery.Predicate.Basic
import VoxelQuery.Number.Decimal

/-! The text of a predicate, one line that shows its whole tree. -/
namespace VoxelQuery

def Connective.text : Connective → String
  | and => "and"
  | or => "or"

namespace Predicate

mutual

def text : Predicate → String
  | always => "any"
  | never => "none"
  | combination connective children =>
    connective.text ++ "(" ++ ", ".intercalate (texts children) ++ ")"
  | negation child => "not(" ++ text child ++ ")"
  | block identifier => "block(" ++ identifier ++ ")"
  | state key => "state(" ++ key ++ ")"
  | typeTag tag strict => (if strict then "strictType(" else "type(") ++ tag.name ++ ")"
  | property name values => "property(" ++ name ++ "=" ++ "|".intercalate values ++ ")"
  | material m => "material(" ++ m.name ++ ")"
  | adjacent m => "adjacent(" ++ m.name ++ ")"
  | emptyAbove => "airAbove"
  | altitude low high => "altitude(" ++ low.text ++ ".." ++ high.text ++ ")"

def texts : List Predicate → List String
  | [] => []
  | child :: rest => text child :: texts rest

end

@[simp] theorem texts_eq_map (children : List Predicate) : texts children = children.map text := by
  induction children with
  | nil => rfl
  | cons child rest ih => simp [texts, ih]

end Predicate

end VoxelQuery
