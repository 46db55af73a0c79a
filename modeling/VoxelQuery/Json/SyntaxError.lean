import VoxelQuery.Text.Units

/-! What is wrong with a text that is no JSON document, and where. The message gives the place by
position, line and column, or shows the characters around one that starts no value. -/
namespace VoxelQuery.Json

inductive SyntaxFault where
  | valueExpected
  | digitAfterMinus
  | digitAfterPoint
  | digitInExponent
  | quoteMissing
  | controlCharacter
  | escapeUnknown
  | escapeDigits
  | nameOrBrace
  | nameExpected
  | colonExpected
  | commaOrBracket
  | commaOrBrace
  | textBehind
  deriving DecidableEq

/-- The offset of the fault is counted in UTF-16 units. -/
structure SyntaxError where
  source : String
  offset : Nat
  fault : SyntaxFault
  deriving DecidableEq

/-- A place where a value should start is described by what stands there instead. -/
def SyntaxFault.phrase? : SyntaxFault → Option String
  | valueExpected => none
  | digitAfterMinus => some "No number after minus sign in"
  | digitAfterPoint => some "Unterminated fractional number in"
  | digitInExponent => some "Exponent part is missing a number in"
  | quoteMissing => some "Unterminated string in"
  | controlCharacter => some "Bad control character in string literal in"
  | escapeUnknown => some "Bad escaped character in"
  | escapeDigits => some "Bad Unicode escape in"
  | nameOrBrace => some "Expected property name or '\x7d' in"
  | nameExpected => some "Expected double-quoted property name in"
  | colonExpected => some "Expected ':' after property name in"
  | commaOrBracket => some "Expected ',' or ']' after array element in"
  | commaOrBrace => some "Expected ',' or '\x7d' after property value in"
  | textBehind => some "Unexpected non-whitespace character after"

/-- Line and column behind some units, counted on from the given ones. A carriage return and the
line feed behind it end one line. -/
def placeBehind (line column : Nat) : List Nat → Nat × Nat
  | [] => (line, column)
  | 0x0D :: 0x0A :: rest => placeBehind (line + 1) 1 rest
  | unit :: rest =>
    if unit = 0x0A ∨ unit = 0x0D then placeBehind (line + 1) 1 rest
    else placeBehind line (column + 1) rest

namespace SyntaxError

def units (e : SyntaxError) : List Nat := e.source.toList.flatMap Text.codeUnits

def placed (e : SyntaxError) (phrase : String) : String :=
  let (line, column) := placeBehind 1 1 (e.units.take e.offset)
  s!"{phrase} JSON at position {e.offset} (line {line} column {column})"

/-- How many units are shown on each side of a fault. -/
def reach : Nat := 10

/-- The quoted source, or of a long one the part within reach, with dots where it is cut. -/
def excerpt (e : SyntaxError) : String :=
  let size := e.units.length
  let long := 2 * reach < size
  let cutBefore := long ∧ reach ≤ e.offset
  let cutBehind := long ∧ e.offset + reach < size
  let shown := if cutBehind then e.units.take (e.offset + reach) else e.units
  let shown := if cutBefore then shown.drop (e.offset - reach) else shown
  (if cutBefore then "..." else "") ++ "\"" ++ String.ofList (Text.ofUnits shown) ++ "\"" ++
    (if cutBehind then "..." else "")

/-- Texts of values that are no documents, which are named as a whole. -/
def valueNames : List String := ["NaN", "Infinity", "undefined", "[object Object]"]

/-- The message for a place where a value should start. -/
def tokenMessage (e : SyntaxError) : String :=
  match e.units.drop e.offset with
  | [] => "Unexpected end of JSON input"
  | unit :: _ =>
    if unit = '"'.toNat then e.placed "Unexpected string in"
    else if unit = '-'.toNat ∨ ('0'.toNat ≤ unit ∧ unit ≤ '9'.toNat) then
      e.placed "Unexpected number in"
    else if e.source ∈ valueNames then "\"" ++ e.source ++ "\" is not valid JSON"
    else
      let token := String.ofList (Text.ofUnits [unit])
      s!"Unexpected token '{token}', {e.excerpt} is not valid JSON"

def message (e : SyntaxError) : String :=
  match e.fault.phrase? with
  | some phrase => e.placed phrase
  | none => e.tokenMessage

end SyntaxError

end VoxelQuery.Json
