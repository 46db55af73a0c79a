import VoxelQuery.Number.Basic

/-! The text of a number: the fewest decimal digits that read back, written positionally when the
point falls near them and with an exponent otherwise. -/
namespace VoxelQuery

/-- The value `coefficient * 10 ^ exponent`. -/
structure Decimal where
  coefficient : Nat
  exponent : Int
  deriving DecidableEq

namespace Decimal

def value (d : Decimal) : Rat := d.coefficient * 10 ^ d.exponent

/-- The two neighbours of a positive quotient among decimals of at most `count` digits, the nearer
one first, and of two equally near ones the even one. The upper one may be a power of ten, which
has one digit only. -/
def neighbours (q : Rat) (count : Nat) : List Decimal :=
  let exponent := leadingExponent 10 q - (count - 1 : Int)
  let scaled := q * 10 ^ (-exponent)
  let floor := scaled.floor.toNat
  let below : Decimal := ⟨floor, exponent⟩
  let above : Decimal :=
    if floor + 1 = Nat.pow 10 count then ⟨1, exponent + count⟩ else ⟨floor + 1, exponent⟩
  if roundEven scaled = floor then [below, above] else [above, below]

/-- Of the decimals that read back as the given positive value, one with the fewest digits, and
the nearest of those. Seventeen digits are always enough. -/
def shortest (value : Dyadic) : Decimal :=
  let readsBack (d : Decimal) : Bool := roundBinary d.value = value
  let found := (List.range 17).findSome? fun n => (neighbours value.toRat (n + 1)).find? readsBack
  found.getD ⟨0, 0⟩

def digits (d : Decimal) : List Char := (toString d.coefficient).toList

def zeros (n : Int) : List Char := List.replicate n.toNat '0'

/-- Up to 21 places before the point and up to 5 zeros behind it are written out. -/
def layout (d : Decimal) : List Char :=
  let digits := d.digits
  let count : Int := digits.length
  let point := count + d.exponent
  if count ≤ point ∧ point ≤ 21 then digits ++ zeros (point - count)
  else if 0 < point ∧ point ≤ 21 then digits.take point.toNat ++ '.' :: digits.drop point.toNat
  else if -6 < point ∧ point ≤ 0 then '0' :: '.' :: zeros (-point) ++ digits
  else
    let mantissa := if count = 1 then digits else digits.take 1 ++ '.' :: digits.drop 1
    let power := point - 1
    mantissa ++ 'e' :: (if power < 0 then '-' else '+') :: (toString power.natAbs).toList

end Decimal

namespace Number

def text : Number → String
  | undefined => "NaN"
  | infinite negative => if negative then "-Infinity" else "Infinity"
  | finite value =>
    if value = 0 then "0"
    else if value < 0 then String.ofList ('-' :: (Decimal.shortest (-value)).layout)
    else String.ofList (Decimal.shortest value).layout

end Number

end VoxelQuery
