import VoxelQuery.Number.Basic

/-! Integers among the numbers. Those of at most 53 bits are kept exactly, different ones stay
different, and their sums are the numbers of the sums. -/
namespace VoxelQuery

/-- The 53rd power of two. -/
def exactLimit : Nat := 9007199254740992

theorem floorLog_spec (base n : Nat) (hb : 1 < base) (hn : 0 < n) :
    Nat.pow base (floorLog base n) ≤ n ∧ n < Nat.pow base (floorLog base n + 1) := by
  show base ^ floorLog base n ≤ n ∧ n < base ^ (floorLog base n + 1)
  fun_induction floorLog base n with
  | case1 n h ih =>
    obtain ⟨lo, hi⟩ := ih (Nat.div_pos h.2 (by omega))
    rw [Nat.pow_succ]
    exact ⟨Nat.le_trans (Nat.mul_le_mul_right base lo) (Nat.div_mul_le_self n base),
      (Nat.div_lt_iff_lt_mul (by omega)).1 hi⟩
  | case2 n h =>
    have : n < base := by omega
    exact ⟨by simpa using Nat.succ_le_of_lt hn, by simpa using this⟩

theorem leadingExponent_natCast (n : Nat) (hn : 0 < n) : leadingExponent 2 n = floorLog 2 n := by
  have h1 : floorLog 2 1 = 0 := by rw [floorLog]; simp
  have h : 2 ^ floorLog 2 n ≤ n := (floorLog_spec 2 n (by decide) hn).1
  unfold leadingExponent
  simp only [Rat.num_natCast, Rat.den_natCast, Int.natAbs_natCast, h1]
  rw [if_pos]
  · simp
  · simp only [Int.natCast_zero, Int.sub_zero, Rat.zpow_natCast]
    exact_mod_cast h

/-- A quotient that needs no more places than are kept is not changed by rounding. -/
theorem toRat_roundBinary_of_isInt {q : Rat} {i : Int}
    (h : q * 2 ^ (min (52 - leadingExponent 2 q.abs) 1074) = i) : (roundBinary q).toRat = q := by
  unfold roundBinary
  split
  · next hq => rw [hq]; rfl
  · simp only [h, roundEven_intCast, Dyadic.toRat_ofIntWithPrec_eq_mul_two_pow]
    rw [← h, Rat.mul_assoc, ← Rat.zpow_add (by decide), Int.add_right_neg, Rat.zpow_zero,
      Rat.mul_one]

theorem abs_intCast (i : Int) : (i : Rat).abs = (i.natAbs : Rat) := by
  rcases Int.natAbs_eq i with h | h
  · rw [h, Int.natAbs_natCast, Rat.intCast_natCast,
      Rat.abs_of_nonneg (by exact_mod_cast Nat.zero_le _)]
  · rw [h, Int.natAbs_neg, Int.natAbs_natCast, Rat.intCast_neg, Rat.abs_neg, Rat.intCast_natCast,
      Rat.abs_of_nonneg (by exact_mod_cast Nat.zero_le _)]

theorem roundBinary_intCast {i : Int} (h : i.natAbs ≤ exactLimit) :
    roundBinary i = (i : Dyadic) := by
  rw [← Dyadic.toRat_inj, Dyadic.toRat_intCast]
  by_cases h0 : i = 0
  · subst h0; rfl
  have hpos : 0 < i.natAbs := by omega
  have lo : 2 ^ floorLog 2 i.natAbs ≤ i.natAbs := (floorLog_spec 2 i.natAbs (by decide) hpos).1
  have h : i.natAbs ≤ 2 ^ 53 := h
  have he : leadingExponent 2 (i : Rat).abs = floorLog 2 i.natAbs := by
    rw [abs_intCast, leadingExponent_natCast _ hpos]
  generalize floorLog 2 i.natAbs = e at lo he
  have hle : e ≤ 53 := (Nat.pow_le_pow_iff_right (by decide)).1 (Nat.le_trans lo h)
  by_cases he' : e ≤ 52
  · apply toRat_roundBinary_of_isInt (i := i * 2 ^ (52 - e))
    rw [he, show min (52 - (e : Int)) 1074 = ((52 - e : Nat) : Int) by omega, Rat.zpow_natCast]
    exact_mod_cast rfl
  · obtain rfl : e = 53 := by omega
    have habs : i.natAbs = 2 ^ 53 := by omega
    rcases Int.natAbs_eq i with hi | hi
    · rw [hi, habs]; exact toRat_roundBinary_of_isInt (i := 2 ^ 52) (by decide +kernel)
    · rw [hi, habs]; exact toRat_roundBinary_of_isInt (i := -2 ^ 52) (by decide +kernel)

namespace Number

theorem toRat_sizeLimit : sizeLimit.toRat = 2 ^ (1024 : Int) := by
  rw [sizeLimit, Dyadic.toRat_ofIntWithPrec_eq_mul_two_pow, Int.neg_neg, Rat.intCast_one,
    Rat.one_mul]

theorem ofInt_eq_finite {i : Int} (h : i.natAbs ≤ exactLimit) : ofInt i = finite (i : Dyadic) := by
  have bound : (exactLimit : Rat) < sizeLimit.toRat := by rw [toRat_sizeLimit]; decide +kernel
  have size : (-(exactLimit : Int) : Rat) ≤ i ∧ (i : Rat) ≤ (exactLimit : Int) := by
    constructor
    · exact_mod_cast show -(exactLimit : Int) ≤ i by omega
    · exact_mod_cast show i ≤ (exactLimit : Int) by omega
  rw [Rat.intCast_natCast] at size
  unfold ofInt nearest
  simp only [roundBinary_intCast h]
  rw [if_neg, if_neg]
  · rw [← Dyadic.toRat_le_toRat_iff, Dyadic.toRat_intCast, Dyadic.toRat_neg]
    grind
  · rw [← Dyadic.toRat_le_toRat_iff, Dyadic.toRat_intCast]
    grind

theorem ofInt_inj {i j : Int} (hi : i.natAbs ≤ exactLimit) (hj : j.natAbs ≤ exactLimit) :
    ofInt i = ofInt j ↔ i = j := by
  rw [ofInt_eq_finite hi, ofInt_eq_finite hj, finite.injEq, ← Dyadic.toRat_inj,
    Dyadic.toRat_intCast, Dyadic.toRat_intCast, Rat.intCast_inj]

theorem ofInt_add_ofInt {i j : Int} (hi : i.natAbs ≤ exactLimit) (hj : j.natAbs ≤ exactLimit) :
    ofInt i + ofInt j = ofInt (i + j) := by
  rw [ofInt_eq_finite hi, ofInt_eq_finite hj]
  show nearest _ = nearest _
  rw [Dyadic.toRat_add, Dyadic.toRat_intCast, Dyadic.toRat_intCast, Rat.intCast_add]

theorem ofInt_le_ofInt {i j : Int} (hi : i.natAbs ≤ exactLimit) (hj : j.natAbs ≤ exactLimit) :
    (ofInt i).le (ofInt j) = decide (i ≤ j) := by
  rw [ofInt_eq_finite hi, ofInt_eq_finite hj]
  simp only [le, ← Dyadic.toRat_le_toRat_iff, Dyadic.toRat_intCast, Rat.intCast_le_intCast]

end Number

end VoxelQuery
