/-! Decoding UTF-8. Bytes that are no part of a character are replaced: each longest start of a
character that breaks off becomes one U+FFFD. -/
namespace VoxelQuery.Text

/-- A character that is begun: the bytes still owed, the range of the next one, and the bits so
far. -/
structure Begun where
  owed : Nat
  low : Nat
  high : Nat
  bits : Nat

/-- What a byte at the start of a character gives at once, and what it begins. -/
def firstByte (b : Nat) : List Char × Option Begun :=
  if b < 0x80 then ([Char.ofNat b], none)
  else if b < 0xC2 then (['\uFFFD'], none)
  else if b < 0xE0 then ([], some ⟨1, 0x80, 0xBF, b - 0xC0⟩)
  else if b < 0xF0 then
    ([], some ⟨2, if b = 0xE0 then 0xA0 else 0x80, if b = 0xED then 0x9F else 0xBF, b - 0xE0⟩)
  else if b < 0xF5 then
    ([], some ⟨3, if b = 0xF0 then 0x90 else 0x80, if b = 0xF4 then 0x8F else 0xBF, b - 0xF0⟩)
  else (['\uFFFD'], none)

def decodeFrom : Option Begun → List Nat → List Char
  | none, [] => []
  | some _, [] => ['\uFFFD']
  | none, b :: rest =>
    let (out, next) := firstByte b
    out ++ decodeFrom next rest
  | some begun, b :: rest =>
    if begun.low ≤ b ∧ b ≤ begun.high then
      let bits := 64 * begun.bits + (b - 0x80)
      if begun.owed = 1 then Char.ofNat bits :: decodeFrom none rest
      else decodeFrom (some ⟨begun.owed - 1, 0x80, 0xBF, bits⟩) rest
    else
      let (out, next) := firstByte b
      '\uFFFD' :: (out ++ decodeFrom next rest)

def decodeUtf8 (bytes : List UInt8) : String :=
  String.ofList (decodeFrom none (bytes.map UInt8.toNat))

example : decodeFrom none [0x61, 0xC3, 0xA9, 0xF0, 0x9F, 0x98, 0x80] = ['a', 'é', '😀'] := by decide
example : decodeFrom none [0xE2, 0x82, 0x41, 0xC0, 0xED, 0xA0] =
    ['\uFFFD', 'A', '\uFFFD', '\uFFFD', '\uFFFD'] := by decide

end VoxelQuery.Text
