import VoxelQuery.Json.Basic
import VoxelQuery.Number.Decimal

/-! Writing JSON over several lines, two blanks deeper for each level. Empty lists and objects stay
on one line, and only quotes, backslashes and control characters are escaped. -/
namespace VoxelQuery.Json

def hexDigit (n : Nat) : Char := (Nat.toDigits 16 n).headD '0'

def escape (c : Char) : List Char :=
  if c = '"' then ['\\', '"']
  else if c = '\\' then ['\\', '\\']
  else if c = '\x08' then ['\\', 'b']
  else if c = '\t' then ['\\', 't']
  else if c = '\n' then ['\\', 'n']
  else if c = '\x0c' then ['\\', 'f']
  else if c = '\r' then ['\\', 'r']
  else if c.toNat < 0x20 then
    ['\\', 'u', '0', '0', hexDigit (c.toNat / 16), hexDigit (c.toNat % 16)]
  else [c]

def quote (s : String) : String := String.ofList ('"' :: (s.toList.flatMap escape ++ ['"']))

def margin (depth : Nat) : String := String.ofList ('\n' :: List.replicate (2 * depth) ' ')

mutual

/-- A number that is not finite has no written form and becomes a null. -/
def render (depth : Nat) : Json → String
  | null => "null"
  | boolean value => if value then "true" else "false"
  | number (.finite value) => (Number.finite value).text
  | number _ => "null"
  | text value => quote value
  | list [] => "[]"
  | list (item :: rest) =>
    "[" ++ margin (depth + 1) ++ render (depth + 1) item ++ renderItems (depth + 1) rest ++
      margin depth ++ "]"
  | object [] => "\x7b\x7d"
  | object ((name, value) :: rest) =>
    "\x7b" ++ margin (depth + 1) ++ quote name ++ ": " ++ render (depth + 1) value ++
      renderFields (depth + 1) rest ++ margin depth ++ "\x7d"

def renderItems (depth : Nat) : List Json → String
  | [] => ""
  | item :: rest => "," ++ margin depth ++ render depth item ++ renderItems depth rest

def renderFields (depth : Nat) : List (String × Json) → String
  | [] => ""
  | (name, value) :: rest =>
    "," ++ margin depth ++ quote name ++ ": " ++ render depth value ++ renderFields depth rest

end

def pretty (value : Json) : String := render 0 value

end VoxelQuery.Json
