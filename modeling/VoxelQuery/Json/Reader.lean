import VoxelQuery.Json.Basic
import VoxelQuery.Json.SyntaxError
import VoxelQuery.Record

/-! Reading JSON strictly: no comments, no trailing commas, no byte order mark, no control character
inside a text. Numbers are rounded to the nearest binary fraction. The first fault ends the reading
and is reported with its place. -/
namespace VoxelQuery.Json

/-- A fault, with the input from its place on. -/
structure Stop where
  fault : SyntaxFault
  rest : List Char

def isSpace (c : Char) : Bool := c == ' ' || c == '\t' || c == '\n' || c == '\r'

def skipSpace (input : List Char) : List Char := input.dropWhile isSpace

def hexDigit? (c : Char) : Option Nat :=
  if '0' ≤ c ∧ c ≤ '9' then some (c.toNat - '0'.toNat)
  else if 'a' ≤ c ∧ c ≤ 'f' then some (c.toNat - 'a'.toNat + 10)
  else if 'A' ≤ c ∧ c ≤ 'F' then some (c.toNat - 'A'.toNat + 10)
  else none

def hexUnit? (a b c d : Char) : Option Nat := do
  let digits ← [a, b, c, d].mapM hexDigit?
  some (digits.foldl (fun n digit => 16 * n + digit) 0)

def escaped? : Char → Option Nat
  | '"' => some 0x22
  | '\\' => some 0x5C
  | '/' => some 0x2F
  | 'b' => some 0x08
  | 'f' => some 0x0C
  | 'n' => some 0x0A
  | 'r' => some 0x0D
  | 't' => some 0x09
  | _ => none

def skipHex (input : List Char) : List Char := input.dropWhile fun c => (hexDigit? c).isSome

/-- The code units up to the closing quote. -/
def readUnits : List Char → Except Stop (List Nat × List Char)
  | [] => .error ⟨.quoteMissing, []⟩
  | '"' :: rest => .ok ([], rest)
  | '\\' :: 'u' :: a :: b :: c :: d :: rest =>
    match hexUnit? a b c d with
    | some unit => (readUnits rest).map fun r => (unit :: r.1, r.2)
    | none => .error ⟨.escapeDigits, skipHex (a :: b :: c :: d :: rest)⟩
  | '\\' :: 'u' :: rest => .error ⟨.escapeDigits, skipHex rest⟩
  | '\\' :: c :: rest =>
    match escaped? c with
    | some unit => (readUnits rest).map fun r => (unit :: r.1, r.2)
    | none => .error ⟨.escapeUnknown, c :: rest⟩
  | c :: rest =>
    if c = '\\' then .error ⟨.escapeUnknown, rest⟩
    else if c.toNat < 0x20 then .error ⟨.controlCharacter, c :: rest⟩
    else (readUnits rest).map fun r => (Text.codeUnits c ++ r.1, r.2)

def readText (input : List Char) : Except Stop (String × List Char) :=
  (readUnits input).map fun r => (String.ofList (Text.ofUnits r.1), r.2)

def digitsValue (digits : List Char) : Nat :=
  digits.foldl (fun n c => 10 * n + (c.toNat - '0'.toNat)) 0

/-- At least one digit; without any, a fault of the given kind. -/
def readDigits (missing : SyntaxFault) (input : List Char) : Except Stop (List Char × List Char) :=
  match input.takeWhile Char.isDigit with
  | [] => .error ⟨missing, input⟩
  | digits => .ok (digits, input.dropWhile Char.isDigit)

/-- The digits behind a point; without a point there are none. -/
def readPlaces : List Char → Except Stop (List Char × List Char)
  | '.' :: rest => readDigits .digitAfterPoint rest
  | rest => .ok ([], rest)

def readPower : List Char → Except Stop (Int × List Char)
  | [] => .ok (0, [])
  | c :: rest =>
    if c = 'e' ∨ c = 'E' then
      let (negative, rest) :=
        match rest with
        | '-' :: rest => (true, rest)
        | '+' :: rest => (false, rest)
        | _ => (false, rest)
      (readDigits .digitInExponent rest).map fun r =>
        let size : Int := digitsValue r.1
        (if negative then -size else size, r.2)
    else .ok (0, c :: rest)

/-- No plus sign in front and no zero before another digit. -/
def readNumber (input : List Char) : Except Stop (Number × List Char) := do
  let (negative, input) :=
    match input with
    | '-' :: rest => (true, rest)
    | _ => (false, input)
  let (whole, behind) ← readDigits .digitAfterMinus input
  if whole.head? = some '0' ∧ whole ≠ ['0'] then .error ⟨.valueExpected, input.drop 1⟩
  else
    let (places, behind) ← readPlaces behind
    let (power, behind) ← readPower behind
    let coefficient := digitsValue (whole ++ places)
    .ok (Number.ofDecimal negative coefficient (power - places.length), behind)

/-- A value that is written as one fixed word. -/
def readWord (value : Json) : List Char → List Char → Except Stop (Json × List Char)
  | [], input => .ok (value, input)
  | _ :: _, [] => .error ⟨.valueExpected, []⟩
  | expected :: word, c :: rest =>
    if c = expected then readWord value word rest else .error ⟨.valueExpected, c :: rest⟩

/-- The input behind a character that has to come next, blanks passed over. -/
def readMark (mark : Char) (missing : SyntaxFault) (input : List Char) :
    Except Stop (List Char) :=
  match skipSpace input with
  | [] => .error ⟨missing, []⟩
  | c :: rest => if c = mark then .ok rest else .error ⟨missing, c :: rest⟩

mutual

/-- The fuel bounds the number of nested values and of list items together. -/
def readValue : Nat → List Char → Except Stop (Json × List Char)
  | 0, input => .error ⟨.valueExpected, input⟩
  | fuel + 1, input =>
    match skipSpace input with
    | '"' :: rest => (readText rest).map fun r => (text r.1, r.2)
    | '[' :: rest =>
      match skipSpace rest with
      | ']' :: rest => .ok (list [], rest)
      | rest => (readItems fuel rest).map fun r => (list r.1, r.2)
    | '{' :: rest =>
      match skipSpace rest with
      | '}' :: rest => .ok (object [], rest)
      | rest => (readFields .nameOrBrace fuel rest).map fun r => (object (Record.fields r.1), r.2)
    | 'n' :: rest => readWord null ['u', 'l', 'l'] rest
    | 't' :: rest => readWord (boolean true) ['r', 'u', 'e'] rest
    | 'f' :: rest => readWord (boolean false) ['a', 'l', 's', 'e'] rest
    | [] => .error ⟨.valueExpected, []⟩
    | c :: rest =>
      if c = '-' ∨ c.isDigit then (readNumber (c :: rest)).map fun r => (number r.1, r.2)
      else .error ⟨.valueExpected, c :: rest⟩

def readItems : Nat → List Char → Except Stop (List Json × List Char)
  | 0, input => .error ⟨.valueExpected, input⟩
  | fuel + 1, input => do
    let (item, rest) ← readValue fuel input
    match skipSpace rest with
    | ',' :: rest => (readItems fuel rest).map fun r => (item :: r.1, r.2)
    | rest => (readMark ']' .commaOrBracket rest).map fun rest => ([item], rest)

/-- The fault of a missing name is another one behind the opening brace than behind a comma. -/
def readFields (missing : SyntaxFault) :
    Nat → List Char → Except Stop (List (String × Json) × List Char)
  | 0, input => .error ⟨.valueExpected, input⟩
  | fuel + 1, input => do
    let rest ← readMark '"' missing input
    let (name, rest) ← readText rest
    let rest ← readMark ':' .colonExpected rest
    let (value, rest) ← readValue fuel rest
    match skipSpace rest with
    | ',' :: rest => (readFields .nameExpected fuel rest).map fun r => ((name, value) :: r.1, r.2)
    | rest => (readMark '}' .commaOrBrace rest).map fun rest => ([(name, value)], rest)

end

/-- A document with nothing but blanks behind it. Two steps of fuel for each character are enough,
since a value and its list take one each. -/
def readDocument (input : List Char) : Except Stop Json := do
  let (value, rest) ← readValue (2 * input.length + 2) input
  match skipSpace rest with
  | [] => .ok value
  | rest => .error ⟨.textBehind, rest⟩

def parse (source : String) : Except SyntaxError Json :=
  (readDocument source.toList).mapError fun stop =>
    ⟨source, Text.unitLength source.toList - Text.unitLength stop.rest, stop.fault⟩

end VoxelQuery.Json
