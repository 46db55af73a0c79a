import VoxelQuery.Number.Basic
import VoxelQuery.Query.Error
import VoxelQuery.Text.Units

/-! Tokens are lexemes at their places in a segment. Only four characters may stand between them,
and a place is counted in UTF-16 units. -/
namespace VoxelQuery

structure Token where
  lexeme : Lexeme
  offset : Nat
  deriving DecidableEq

/-- Space, tab, carriage return and line feed. -/
def isGap (c : Char) : Bool := c == ' ' || c == '\t' || c == '\r' || c == '\n'

namespace Token

def width (t : Token) : Nat := Text.unitLength t.lexeme.chars

/-- The first token of a text that starts at the given offset, and what follows it. -/
def next (offset : Nat) : List Char → Except QueryFault (Option (Token × List Char))
  | [] => .ok none
  | c :: rest =>
    if isGap c then next (offset + 1) rest
    else
      match Lexeme.scan c rest with
      | .ok (lexeme, behind) => .ok (some (⟨lexeme, offset⟩, behind))
      | .error fault => .error (.malformed (String.ofList (c :: rest)) fault)

theorem length_lt_of_next {offset : Nat} {text behind : List Char} {t : Token}
    (h : next offset text = .ok (some (t, behind))) : behind.length < text.length := by
  induction text generalizing offset with
  | nil => simp [next] at h
  | cons c rest ih =>
    rw [next] at h
    split at h
    · exact Nat.lt_succ_of_lt (ih h)
    · split at h
      · next hs => cases h; exact Lexeme.length_lt_of_scan hs
      · cases h

/-- All tokens of a text, or the first place where none can be read. -/
def scan (offset : Nat) (text : List Char) : Except QueryFault (List Token) :=
  match h : next offset text with
  | .error fault => .error fault
  | .ok none => .ok []
  | .ok (some (t, behind)) =>
    have := length_lt_of_next h
    (scan (t.offset + t.width) behind).map (t :: ·)
termination_by text.length

end Token

/-- The first token at or behind an offset of a text, and nothing if only gaps are left. -/
def tokenFrom (text : String) (offset : Nat) : Except QueryError (Option Token) :=
  match Token.next offset (Text.dropUnits offset text.toList) with
  | .ok found => .ok (found.map Prod.fst)
  | .error fault => .error ⟨text, fault⟩

/-- The place that a number counts to in a text of the given length, from the end if negative. -/
def placeOf (length : Nat) (n : Number) : Nat :=
  let whole := n.truncate
  if whole < 0 then (length + whole).toNat else whole.toNat

/-- As `tokenFrom`, but for any number. Behind the text there is no token, and at a number that is
no place in a text there is no character that one could start with. -/
def tokenAt (text : String) (offset : Number) : Except QueryError (Option Token) :=
  match offset.natural? with
  | some n => tokenFrom text n
  | none =>
    let length := Text.unitLength text.toList
    if (Number.ofInt length).le offset then .ok none
    else
      let rest := Text.dropUnits (placeOf length offset) text.toList
      .error ⟨text, .malformed (String.ofList rest) .strayCharacter⟩

def tokens (segment : String) : Except QueryError (List Token) :=
  match Token.scan 0 segment.toList with
  | .ok found => .ok found
  | .error fault => .error ⟨segment, fault⟩

end VoxelQuery
