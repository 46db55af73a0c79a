import Mathlib.Algebra.Order.Field.Power
import Mathlib.Algebra.Order.Field.Rat
import Mathlib.Tactic.Linarith
import Mathlib.Tactic.Positivity
import Mathlib.Tactic.Ring
import VoxelQuery.Number.Integer

/-! Rounding to 53 bits. A quotient near a fraction with the places that are kept is rounded to that
fraction, and what was rounded once is not changed by rounding it again. -/
namespace VoxelQuery

/-- A positive quotient lies between two neighbouring powers of the base. -/
theorem leadingExponent_spec {base : Nat} (hbase : 1 < base) {q : Rat} (hq : 0 < q) :
    (base : Rat) ^ leadingExponent base q ≤ q ∧ q < (base : Rat) ^ (leadingExponent base q + 1) := by
  have hb : (0 : Rat) < base := by exact_mod_cast Nat.lt_of_succ_lt hbase
  have hnum : 0 < q.num := Rat.num_pos.2 hq
  have hden : (0 : Rat) < q.den := by exact_mod_cast q.den_pos
  have hquot : q * q.den = q.num.natAbs := by
    rw [Rat.mul_den_eq_num, ← Int.cast_natCast, Int.natAbs_of_nonneg hnum.le]
  obtain ⟨hnlow, hnhigh⟩ : (base : Rat) ^ floorLog base q.num.natAbs ≤ q * q.den ∧
      q * q.den < (base : Rat) ^ (floorLog base q.num.natAbs + 1) := by
    rw [hquot]
    exact_mod_cast floorLog_spec base q.num.natAbs hbase (by omega)
  obtain ⟨hdlow, hdhigh⟩ : (base : Rat) ^ floorLog base q.den ≤ q.den ∧
      (q.den : Rat) < (base : Rat) ^ (floorLog base q.den + 1) := by
    exact_mod_cast floorLog_spec base q.den hbase q.den_pos
  rw [leadingExponent]
  generalize floorLog base q.num.natAbs = a at *
  generalize floorLog base q.den = c at *
  have hbelow : (base : Rat) ^ ((a : Int) - c - 1) ≤ q := by
    have hpow : (base : Rat) ^ ((a : Int) - c - 1) * (base : Rat) ^ (c + 1) = (base : Rat) ^ a := by
      rw [← zpow_natCast, ← zpow_add₀ hb.ne', ← zpow_natCast]
      congr 1
      omega
    refine le_of_mul_le_mul_right (le_trans ?_ hnlow) hden
    rw [← hpow]
    exact mul_le_mul_of_nonneg_left hdhigh.le (by positivity)
  have habove : q < (base : Rat) ^ ((a : Int) - c + 1) := by
    have hpow : (base : Rat) ^ ((a : Int) - c + 1) * (base : Rat) ^ c = (base : Rat) ^ (a + 1) := by
      rw [← zpow_natCast, ← zpow_add₀ hb.ne', ← zpow_natCast]
      congr 1
      omega
    refine lt_of_mul_lt_mul_right (lt_of_lt_of_le hnhigh ?_) hden.le
    rw [← hpow]
    exact mul_le_mul_of_nonneg_left hdlow (by positivity)
  split
  · next h => exact ⟨h, habove⟩
  · next h => exact ⟨hbelow, by simpa using lt_of_not_ge h⟩

theorem roundEven_of_near {x : Rat} {m : Int} (h : |x - m| < 1 / 2) : roundEven x = m := by
  obtain ⟨hlow, hhigh⟩ := abs_lt.1 h
  have hfloor : (x.floor : Rat) ≤ x := Rat.floor_le x
  have hnext : x - 1 < x.floor := Rat.lt_floor
  have hle : x.floor ≤ m := by
    have : (x.floor : Rat) < (m : Rat) + 1 := by linarith
    exact Int.lt_add_one_iff.1 (by exact_mod_cast this)
  have hge : m ≤ x.floor + 1 := by
    have : (m : Rat) < (x.floor : Rat) + 1 + 1 := by linarith
    exact Int.lt_add_one_iff.1 (by exact_mod_cast this)
  rw [roundEven]
  rcases hle.lt_or_eq with hlt | heq
  · obtain rfl : m = x.floor + 1 := by omega
    push_cast at hlow hhigh
    rw [if_neg (by linarith), if_pos (by linarith)]
  · rw [heq, if_pos (by linarith)]

/-- The binary places that rounding keeps. -/
def keptPlaces (q : Rat) : Int := min (52 - leadingExponent 2 q.abs) 1074

theorem roundBinary_of_ne_zero {q : Rat} (hq : q ≠ 0) :
    roundBinary q = Dyadic.ofIntWithPrec (roundEven (q * 2 ^ keptPlaces q)) (keptPlaces q) := by
  rw [roundBinary, if_neg hq, keptPlaces]

/-- A quotient that is near a fraction with the places that are kept is rounded to that fraction. -/
theorem roundBinary_of_near {q : Rat} (hq : q ≠ 0) {v : Dyadic} {m : Int}
    (hv : v.toRat * 2 ^ keptPlaces q = m) (hnear : |q - v.toRat| * 2 ^ keptPlaces q < 1 / 2) :
    roundBinary q = v := by
  have hpow : (0 : Rat) < 2 ^ keptPlaces q := by positivity
  have hround : roundEven (q * 2 ^ keptPlaces q) = m := by
    apply roundEven_of_near
    rwa [← hv, ← sub_mul, abs_mul, abs_of_pos hpow]
  rw [roundBinary_of_ne_zero hq, hround, ← Dyadic.toRat_inj,
    Dyadic.toRat_ofIntWithPrec_eq_mul_two_pow, ← hv, mul_assoc, ← zpow_add₀ (by norm_num)]
  simp

/-- A fraction that rounding leaves as it is has the places that are kept, and not more. -/
theorem exists_of_roundBinary_eq {v : Dyadic} (hv : roundBinary v.toRat = v) (hzero : v.toRat ≠ 0) :
    ∃ m : Int, v.toRat * 2 ^ keptPlaces v.toRat = m := by
  have h := congrArg Dyadic.toRat hv
  rw [roundBinary_of_ne_zero hzero, Dyadic.toRat_ofIntWithPrec_eq_mul_two_pow] at h
  generalize roundEven _ = m at h
  generalize keptPlaces v.toRat = P at h ⊢
  exact ⟨m, by rw [← h, mul_assoc, ← zpow_add₀ (by norm_num)]; simp⟩

theorem leadingExponent_two_spec {q : Rat} (hq : 0 < q) :
    (2 : Rat) ^ leadingExponent 2 q ≤ q ∧ q < 2 ^ (leadingExponent 2 q + 1) := by
  exact_mod_cast leadingExponent_spec (by decide) hq

theorem keptPlaces_eq (q : Rat) : keptPlaces q = min (52 - leadingExponent 2 |q|) 1074 := by
  have habs : q.abs = |q| := by
    rcases le_total 0 q with h | h
    · rw [Rat.abs_of_nonneg h, abs_of_nonneg h]
    · rw [← Rat.abs_neg, Rat.abs_of_nonneg (neg_nonneg.2 h), abs_of_nonpos h]
  rw [keptPlaces, habs]

/-- Rounding does not see the sign of what it keeps. -/
theorem roundBinary_neg {v : Dyadic} (hv : roundBinary v.toRat = v) :
    roundBinary (-v).toRat = -v := by
  rw [← Dyadic.toRat_inj, Dyadic.toRat_neg]
  by_cases hzero : v.toRat = 0
  · rw [hzero, neg_zero]
    rfl
  · obtain ⟨m, hm⟩ := exists_of_roundBinary_eq hv hzero
    have hplaces : keptPlaces (-v.toRat) = keptPlaces v.toRat := by
      rw [keptPlaces_eq, keptPlaces_eq, abs_neg]
    refine toRat_roundBinary_of_isInt (i := -m) ?_
    rw [← keptPlaces, hplaces, neg_mul, hm, Int.cast_neg]

theorem abs_roundEven_sub_le (x : Rat) : |(roundEven x : Rat) - x| ≤ 1 / 2 := by
  have hfloor : (x.floor : Rat) ≤ x := Rat.floor_le x
  have hnext : x - 1 < x.floor := Rat.lt_floor
  rw [abs_le, roundEven]
  split
  · constructor <;> linarith
  · split
    · push_cast
      constructor <;> linarith
    · split
      · constructor <;> linarith
      · push_cast
        constructor <;> linarith

/-- Rounding keeps 53 bits at most, or makes the power of two above them. -/
theorem natAbs_roundEven_le {q : Rat} (hq : q ≠ 0) :
    (roundEven (q * 2 ^ keptPlaces q)).natAbs ≤ 2 ^ 53 := by
  obtain ⟨-, hhigh⟩ := leadingExponent_two_spec (abs_pos.2 hq)
  have hplaces : keptPlaces q ≤ 52 - leadingExponent 2 |q| := by
    rw [keptPlaces_eq]
    exact min_le_left _ _
  have hP : (0 : Rat) < 2 ^ keptPlaces q := by positivity
  have hsize : |q * 2 ^ keptPlaces q| < 2 ^ (53 : Int) := by
    rw [abs_mul, abs_of_pos hP]
    refine lt_of_lt_of_le (mul_lt_mul_of_pos_right hhigh hP) ?_
    rw [← zpow_add₀ (by norm_num)]
    exact zpow_le_zpow_right₀ (by norm_num) (by omega)
  obtain ⟨hlow, hhigh⟩ := abs_lt.1 hsize
  obtain ⟨hnlow, hnhigh⟩ := abs_le.1 (abs_roundEven_sub_le (q * 2 ^ keptPlaces q))
  have hupper : roundEven (q * 2 ^ keptPlaces q) < 2 ^ 53 + 1 := by
    have : (roundEven (q * 2 ^ keptPlaces q) : Rat) < 2 ^ 53 + 1 := by
      norm_num at hhigh ⊢
      linarith
    exact_mod_cast this
  have hlower : -(2 ^ 53 + 1) < roundEven (q * 2 ^ keptPlaces q) := by
    have : (-(2 ^ 53 + 1) : Rat) < roundEven (q * 2 ^ keptPlaces q) := by
      norm_num at hlow ⊢
      linarith
    exact_mod_cast this
  omega

/-- Fractions of 53 bits have their places among those that are kept, and so has the power of two
above them. -/
theorem exists_scaled {m P : Int} (hm : m ≠ 0) (hsize : m.natAbs ≤ 2 ^ 53) (hP : P ≤ 1074) :
    ∃ i : Int, (m * 2 ^ (-P) : Rat) * 2 ^ keptPlaces (m * 2 ^ (-P)) = i := by
  have hpow : (0 : Rat) < 2 ^ (-P) := by positivity
  have hvalue : |(m * 2 ^ (-P) : Rat)| = m.natAbs * 2 ^ (-P) := by
    rw [abs_mul, abs_of_pos hpow, Nat.cast_natAbs, Int.cast_abs]
  have hpos : (0 : Rat) < m.natAbs * 2 ^ (-P) := by
    have : (0 : Rat) < m.natAbs := by exact_mod_cast Int.natAbs_pos.2 hm
    positivity
  obtain ⟨hlow, -⟩ := leadingExponent_two_spec hpos
  -- One place less than before is enough for the power of two, which is even.
  have hbound : ∀ k : Nat, m.natAbs < 2 ^ k →
      leadingExponent 2 (m.natAbs * 2 ^ (-P) : Rat) < k - P := by
    intro k hk
    have hlt : (2 : Rat) ^ leadingExponent 2 (m.natAbs * 2 ^ (-P) : Rat) < 2 ^ ((k : Int) - P) := by
      refine lt_of_le_of_lt hlow ?_
      rw [sub_eq_add_neg, zpow_add₀ (by norm_num), zpow_natCast]
      exact mul_lt_mul_of_pos_right (by exact_mod_cast hk) hpow
    exact (zpow_lt_zpow_iff_right₀ (by norm_num)).1 hlt
  have hplaces := keptPlaces_eq (m * 2 ^ (-P) : Rat)
  rw [hvalue] at hplaces
  have hscaled : ∀ k : Nat, keptPlaces (m * 2 ^ (-P) : Rat) = P + k →
      (m * 2 ^ (-P) : Rat) * 2 ^ keptPlaces (m * 2 ^ (-P)) = ((m * 2 ^ k : Int) : Rat) := by
    intro k hk
    rw [hk, mul_assoc, ← zpow_add₀ (by norm_num), neg_add_cancel_left, zpow_natCast]
    push_cast
    rfl
  rcases hsize.lt_or_eq with hlt | heq
  · have hlead := hbound 53 hlt
    obtain ⟨k, hk⟩ := Int.le.dest (show P ≤ keptPlaces (m * 2 ^ (-P) : Rat) by omega)
    exact ⟨_, hscaled k hk.symm⟩
  · have hlead := hbound 54 (by omega)
    obtain ⟨n, hn⟩ : ∃ n, m = 2 * n := ⟨m / 2, by omega⟩
    obtain ⟨k, hk⟩ := Int.le.dest (show P - 1 ≤ keptPlaces (m * 2 ^ (-P) : Rat) by omega)
    refine ⟨n * 2 ^ k, ?_⟩
    rw [← hk, hn, mul_assoc, ← zpow_add₀ (by norm_num),
      show -P + (P - 1 + k) = (k : Int) - 1 by ring, zpow_sub_one₀ (by norm_num), zpow_natCast]
    push_cast
    ring

/-- What was rounded once is not changed by rounding it again. -/
theorem roundBinary_roundBinary (q : Rat) : roundBinary (roundBinary q).toRat = roundBinary q := by
  by_cases hq : q = 0
  · rw [hq]
    rfl
  have hsize := natAbs_roundEven_le hq
  have hP : keptPlaces q ≤ 1074 := min_le_right _ _
  rw [roundBinary_of_ne_zero hq, Dyadic.toRat_ofIntWithPrec_eq_mul_two_pow]
  generalize roundEven (q * 2 ^ keptPlaces q) = m at *
  generalize keptPlaces q = P at *
  rw [← Dyadic.toRat_inj, Dyadic.toRat_ofIntWithPrec_eq_mul_two_pow]
  by_cases hm : m = 0
  · rw [hm, Int.cast_zero, zero_mul]
    rfl
  · obtain ⟨i, hi⟩ := exists_scaled hm hsize hP
    exact toRat_roundBinary_of_isInt hi

end VoxelQuery
