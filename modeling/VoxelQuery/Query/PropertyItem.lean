import VoxelQuery.Text.Blank
import VoxelQuery.Text.Pieces
import VoxelQuery.Text.Word

/-! Items of a bracket group: accepted values between bars, with or without the name of the property
in front of an equals sign. -/
namespace VoxelQuery

structure PropertyItem where
  name : Option String
  values : List String
  deriving DecidableEq

namespace PropertyItem

/-- The values of an item, each a word. -/
def values? (text : List Char) : Option (List String) :=
  let words := Text.pieces '|' text
  if words.all Text.isWord then some (words.map String.ofList) else none

/-- The name in front of the equals sign, and the text behind it, without the blanks around it. -/
def splitName (text : List Char) : Option (List Char) × List Char :=
  let word := text.takeWhile Text.isWordPart
  match Text.trimLeft (text.dropWhile Text.isWordPart) with
  | '=' :: behind => if word.isEmpty then (none, text) else (some word, Text.trimLeft behind)
  | _ => (none, text)

def parse? (item : String) : Option PropertyItem :=
  let (name, behind) := splitName item.toList
  (values? behind).map fun values => ⟨name.map String.ofList, values⟩

example : parse? "a = x|y" = some ⟨some "a", ["x", "y"]⟩ := by cbv
example : parse? "x|" = none := by cbv

end PropertyItem

end VoxelQuery
