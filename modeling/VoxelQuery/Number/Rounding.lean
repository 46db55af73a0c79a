/-! Rounding of exact quotients: the exponent of a quotient in a base, the nearest integer, and the
nearest binary fraction with 53 significant bits. -/
namespace VoxelQuery

/-- The greatest `k` with `base ^ k ≤ n`, and zero for `n = 0`. -/
def floorLog (base n : Nat) : Nat :=
  if h : 1 < base ∧ base ≤ n then floorLog base (n / base) + 1 else 0
termination_by n
decreasing_by exact Nat.div_lt_self (by omega) h.1

/-- The greatest `e` with `base ^ e ≤ q`, for a positive quotient. -/
def leadingExponent (base : Nat) (q : Rat) : Int :=
  let e : Int := floorLog base q.num.natAbs - floorLog base q.den
  if (base : Rat) ^ e ≤ q then e else e - 1

/-- The nearest integer, a half going to the even neighbour. -/
def roundEven (q : Rat) : Int :=
  let below := q.floor
  let rest := q - below
  if rest < 1 / 2 then below
  else if 1 / 2 < rest then below + 1
  else if below % 2 = 0 then below
  else below + 1

/-- The nearest fraction of 53 bits without a bound above, no finer than the 1074th binary place. -/
def roundBinary (q : Rat) : Dyadic :=
  if q = 0 then 0
  else
    let places := min (52 - leadingExponent 2 q.abs) 1074
    Dyadic.ofIntWithPrec (roundEven (q * 2 ^ places)) places

@[simp] theorem roundEven_intCast (i : Int) : roundEven i = i := by
  have h : ((i : Rat) - i) < 1 / 2 := by rw [Rat.sub_self]; decide +kernel
  simp only [roundEven, Rat.floor_intCast, h, if_true]

@[simp] theorem roundBinary_zero : roundBinary 0 = 0 := rfl

end VoxelQuery
