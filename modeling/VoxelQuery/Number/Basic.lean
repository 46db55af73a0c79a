import VoxelQuery.Number.Rounding

/-! Numbers of world positions and of JSON documents: finite binary fractions, two infinities and
an undefined value. Zero has no sign, and equality is that of the values, so the undefined number
names one cell like any other; only the order of `le` leaves it out. -/
namespace VoxelQuery

inductive Number where
  | undefined
  | infinite (negative : Bool)
  | finite (value : Dyadic)
  deriving DecidableEq

namespace Number

instance : Inhabited Number := ⟨finite 0⟩

/-- All finite numbers are smaller in size than the 1024th power of two. -/
def sizeLimit : Dyadic := .ofIntWithPrec 1 (-1024)

/-- The nearest number of an exact quotient; from the middle of the last step on, an infinity. -/
def nearest (q : Rat) : Number :=
  let value := roundBinary q
  if sizeLimit ≤ value then infinite false
  else if value ≤ -sizeLimit then infinite true
  else finite value

def ofInt (i : Int) : Number := nearest i

/-- The number nearest to `coefficient * 10 ^ exponent`. Sizes that no finite number can have are
settled from the exponent of ten alone. -/
def ofDecimal (negative : Bool) (coefficient : Nat) (exponent : Int) : Number :=
  let size : Int := floorLog 10 coefficient + exponent
  if coefficient = 0 ∨ size < -324 then finite 0
  else if 308 < size then infinite negative
  else nearest ((if negative then -(coefficient : Rat) else coefficient) * 10 ^ exponent)

def add : Number → Number → Number
  | finite x, finite y => nearest (x + y).toRat
  | infinite a, infinite b => if a = b then infinite a else undefined
  | infinite a, finite _ => infinite a
  | finite _, infinite b => infinite b
  | undefined, _ => undefined
  | _, undefined => undefined

instance : Add Number := ⟨add⟩

/-- The undefined number is below, above and equal to nothing. -/
def le : Number → Number → Bool
  | finite x, finite y => decide (x ≤ y)
  | infinite true, finite _ => true
  | infinite true, infinite _ => true
  | finite _, infinite false => true
  | infinite false, infinite false => true
  | _, _ => false

/-- A whole number that is not negative, as a count. -/
def natural? : Number → Option Nat
  | finite value =>
    let q := value.toRat
    if q.den = 1 ∧ 0 ≤ q.num then some q.num.toNat else none
  | _ => none

/-- A number without its places, and zero for one that is not finite. -/
def truncate : Number → Int
  | finite value => value.toRat.num.tdiv value.toRat.den
  | _ => 0

def isInteger : Number → Bool
  | finite value => value.toRat.den == 1
  | _ => false

end Number

end VoxelQuery
