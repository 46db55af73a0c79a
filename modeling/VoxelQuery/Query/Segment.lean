import VoxelQuery.Text.Blank
import VoxelQuery.Text.Pieces

/-! Segments, the alternatives of a query, stand between commas outside brackets. Blanks at their
ends do not count, and empty segments at the end of the text are dropped, save a segment that is
alone. -/
namespace VoxelQuery

/-- The bracket depth behind a character. A closing bracket without an opening one has no effect. -/
def depthAfter (depth : Nat) (c : Char) : Nat :=
  if c = '[' then depth + 1 else if c = ']' then depth - 1 else depth

/-- The texts between the commas at depth zero, as they stand. -/
def cutSegments : Nat → List Char → List (List Char)
  | _, [] => [[]]
  | depth, c :: rest =>
    if c = ',' ∧ depth = 0 then [] :: cutSegments 0 rest
    else Text.extendFirst c (cutSegments (depthAfter depth c) rest)

def dropTrailingEmpty : List (List Char) → List (List Char)
  | [] => []
  | first :: rest => first :: (rest.reverse.dropWhile List.isEmpty).reverse

def segmentChars (text : List Char) : List (List Char) :=
  dropTrailingEmpty ((cutSegments 0 text).map Text.trimChars)

def segments (text : String) : List String := (segmentChars text.toList).map String.ofList

/-- The items of a bracket group stand between its commas. -/
def groupItems (interior : String) : List String :=
  (Text.pieces ',' interior.toList).map fun item => String.ofList (Text.trimChars item)

theorem cutSegments_ne_nil (depth : Nat) (text : List Char) : cutSegments depth text ≠ [] := by
  cases text with
  | nil => simp [cutSegments]
  | cons c rest => rw [cutSegments]; split <;> simp [Text.extendFirst_ne_nil]

/-- Cutting loses nothing. -/
@[simp] theorem joinWith_cutSegments (depth : Nat) (text : List Char) :
    Text.joinWith ',' (cutSegments depth text) = text := by
  induction text generalizing depth with
  | nil => rfl
  | cons c rest ih =>
    rw [cutSegments]
    split
    · rename_i h
      match hp : cutSegments 0 rest, cutSegments_ne_nil 0 rest with
      | piece :: more, _ =>
        have := ih 0
        rw [hp] at this
        simp [Text.joinWith, this, h.1]
    · rw [Text.joinWith_extendFirst _ _ _ (cutSegments_ne_nil _ _), ih]

theorem segments_ne_nil (text : String) : segments text ≠ [] := by
  unfold segments segmentChars
  match h : cutSegments 0 text.toList, cutSegments_ne_nil 0 text.toList with
  | first :: rest, _ => simp [dropTrailingEmpty]

example : segmentChars " a,[b,c] , ,".toList = ["a".toList, "[b,c]".toList] := by decide +kernel
example : segmentChars ",".toList = [[]] := by decide +kernel

end VoxelQuery
