import Mathlib.Tactic.Ring
import VoxelQuery.Number.Decimal
import VoxelQuery.Proofs.Number.Rounding

/-! Seventeen digits are enough. A decimal that is near a number of 53 bits, by the standard of its
seventeenth digit, is rounded to that number, so the fewest digits that read back are always found. -/
namespace VoxelQuery

section Close

variable {v : Dyadic} {q u : Rat}

/-- A quotient that is near a number of 53 bits does not reach the next power of two. -/
theorem leadingExponent_le_of_close (hv : roundBinary v.toRat = v) (hpos : 0 < v.toRat)
    (hq : 0 < q) (hclose : |q - v.toRat| * 2 ≤ u) (hu : 10 ^ 16 * u ≤ v.toRat) :
    leadingExponent 2 q ≤ leadingExponent 2 v.toRat := by
  obtain ⟨m, hm⟩ := exists_of_roundBinary_eq hv hpos.ne'
  have hplaces : keptPlaces v.toRat ≤ 52 - leadingExponent 2 v.toRat := by
    rw [keptPlaces_eq, abs_of_pos hpos]
    exact min_le_left _ _
  obtain ⟨-, hhigh⟩ := leadingExponent_two_spec hpos
  obtain ⟨hqlow, -⟩ := leadingExponent_two_spec hq
  generalize leadingExponent 2 v.toRat = L at *
  generalize leadingExponent 2 q = Lq at *
  generalize keptPlaces v.toRat = P at *
  generalize v.toRat = x at *
  have hP : (0 : Rat) < 2 ^ P := by positivity
  have hpow : (2 : Rat) ^ (L + 1) * 2 ^ P = 2 ^ (L + 1 + P) := (zpow_add₀ (by norm_num) _ _).symm
  have hm0 : 0 < m := by
    have : (0 : Rat) < m := by rw [← hm]; positivity
    exact_mod_cast this
  have hmK : (m : Rat) < 2 ^ (L + 1 + P) := by
    rw [← hm, ← hpow]
    exact mul_lt_mul_of_pos_right hhigh hP
  have hK : 0 < L + 1 + P := by
    rw [← zpow_lt_zpow_iff_right₀ (by norm_num : (1 : Rat) < 2), zpow_zero]
    refine lt_of_le_of_lt ?_ hmK
    exact_mod_cast hm0
  have hK53 : (2 : Rat) ^ (L + 1 + P) ≤ 2 ^ (53 : Int) :=
    zpow_le_zpow_right₀ (by norm_num) (by omega)
  -- The number is a whole count of its last place, so it leaves one place free below the power.
  have hnext : (m : Rat) + 1 ≤ 2 ^ (L + 1 + P) := by
    obtain ⟨k, hk⟩ := Int.eq_ofNat_of_zero_le hK.le
    rw [hk, zpow_natCast] at hmK ⊢
    exact_mod_cast hmK
  have hstep : |q - x| * 2 ^ P < 1 := by
    have hle : 10 ^ 16 * (|q - x| * 2) * 2 ^ P ≤ x * 2 ^ P := by
      refine mul_le_mul_of_nonneg_right (le_trans ?_ hu) hP.le
      linarith
    norm_num at hK53
    linarith
  have hlt : q * 2 ^ P < 2 ^ (L + 1) * 2 ^ P := by
    have hdiff : (q - x) * 2 ^ P ≤ |q - x| * 2 ^ P :=
      mul_le_mul_of_nonneg_right (le_abs_self _) hP.le
    rw [hpow]
    linarith
  have hpower : (2 : Rat) ^ Lq < 2 ^ (L + 1) :=
    lt_of_le_of_lt hqlow (lt_of_mul_lt_mul_right hlt hP.le)
  rw [zpow_lt_zpow_iff_right₀ (by norm_num)] at hpower
  omega

/-- A quotient is rounded to a number of 53 bits if it is no further from it than half of what the
seventeenth decimal digit of both of them counts. -/
theorem roundBinary_of_close (hv : roundBinary v.toRat = v) (hpos : 0 < v.toRat) (hq : 0 < q)
    (hclose : |q - v.toRat| * 2 ≤ u) (hu : 10 ^ 16 * u ≤ v.toRat) (huq : 10 ^ 16 * u ≤ q) :
    roundBinary q = v := by
  have hle := leadingExponent_le_of_close hv hpos hq hclose hu
  obtain ⟨m, hm⟩ := exists_of_roundBinary_eq hv hpos.ne'
  obtain ⟨-, hhigh⟩ := leadingExponent_two_spec hq
  have hplaces : keptPlaces v.toRat ≤ keptPlaces q ∧ keptPlaces q ≤ 52 - leadingExponent 2 q := by
    rw [keptPlaces_eq, keptPlaces_eq, abs_of_pos hpos, abs_of_pos hq]
    omega
  obtain ⟨k, hk⟩ := Int.le.dest hplaces.1
  have hvq : v.toRat * 2 ^ keptPlaces q = ((m * 2 ^ k : Int) : Rat) := by
    rw [← hk, zpow_add₀ (by norm_num), ← mul_assoc, hm, zpow_natCast]
    push_cast
    rfl
  refine roundBinary_of_near hq.ne' hvq ?_
  have hQ : (0 : Rat) < 2 ^ keptPlaces q := by positivity
  have hpow : (2 : Rat) ^ (leadingExponent 2 q + 1) * 2 ^ keptPlaces q ≤ 2 ^ (53 : Int) := by
    rw [← zpow_add₀ (by norm_num)]
    exact zpow_le_zpow_right₀ (by norm_num) (by omega)
  have hq53 : q * 2 ^ keptPlaces q < 2 ^ (53 : Int) :=
    lt_of_lt_of_le (mul_lt_mul_of_pos_right hhigh hQ) hpow
  have hle : 10 ^ 16 * (|q - v.toRat| * 2) * 2 ^ keptPlaces q ≤ q * 2 ^ keptPlaces q := by
    refine mul_le_mul_of_nonneg_right (le_trans ?_ huq) hQ.le
    linarith
  norm_num at hq53
  linarith

end Close

namespace Decimal

section Neighbours

variable {q : Rat}

/-- What the last one of so many digits counts. -/
def lastDigit (q : Rat) (count : Nat) : Int := leadingExponent 10 q - (count - 1 : Int)

/-- How often it counts into the quotient. -/
def floorAt (q : Rat) (count : Nat) : Nat := (q * 10 ^ (-lastDigit q count)).floor.toNat

/-- Both counts are among the neighbours, also if the upper one is a power of ten. -/
theorem exists_value_eq {count n : Nat} (hn : n = floorAt q count ∨ n = floorAt q count + 1) :
    ∃ d ∈ neighbours q count, d.value = n * 10 ^ lastDigit q count := by
  have hmem : ∀ d, (d = ⟨floorAt q count, lastDigit q count⟩ ∨
      d = if floorAt q count + 1 = Nat.pow 10 count then ⟨1, lastDigit q count + count⟩
        else ⟨floorAt q count + 1, lastDigit q count⟩) → d ∈ neighbours q count := by
    intro d hd
    show d ∈ if _ then [_, _] else [_, _]
    split
    · exact List.mem_cons.2 (hd.imp_right List.mem_singleton.2)
    · exact List.mem_cons.2 (hd.symm.imp_right List.mem_singleton.2)
  rcases hn with rfl | rfl
  · exact ⟨_, hmem _ (.inl rfl), rfl⟩
  · refine ⟨_, hmem _ (.inr rfl), ?_⟩
    split
    · next h =>
      rw [h, value, Nat.pow_eq, zpow_add₀ (by norm_num), zpow_natCast]
      push_cast
      ring
    · rfl

theorem floorAt_spec (hq : 0 < q) (count : Nat) :
    (floorAt q count : Rat) * 10 ^ lastDigit q count ≤ q ∧
      q < (floorAt q count + 1 : Nat) * 10 ^ lastDigit q count := by
  have hu : (0 : Rat) < 10 ^ lastDigit q count := by positivity
  have hscale : q * 10 ^ (-lastDigit q count) * 10 ^ lastDigit q count = q := by
    rw [mul_assoc, ← zpow_add₀ (by norm_num)]
    simp
  have hpos : 0 ≤ q * 10 ^ (-lastDigit q count) := by positivity
  have hcast : (floorAt q count : Rat) = (q * 10 ^ (-lastDigit q count)).floor := by
    have hfloor : 0 ≤ (q * 10 ^ (-lastDigit q count)).floor := by
      rw [Rat.le_floor_iff]
      exact_mod_cast hpos
    rw [floorAt, ← Int.cast_natCast, Int.toNat_of_nonneg hfloor]
  have hbelow : ((q * 10 ^ (-lastDigit q count)).floor : Rat) ≤ _ := Rat.floor_le _
  have habove : q * 10 ^ (-lastDigit q count) - 1 < (q * 10 ^ (-lastDigit q count)).floor :=
    Rat.lt_floor
  rw [← hcast] at hbelow habove
  constructor
  · calc (floorAt q count : Rat) * 10 ^ lastDigit q count
        ≤ q * 10 ^ (-lastDigit q count) * 10 ^ lastDigit q count :=
          mul_le_mul_of_nonneg_right hbelow hu.le
      _ = q := hscale
  · calc q = q * 10 ^ (-lastDigit q count) * 10 ^ lastDigit q count := hscale.symm
      _ < (floorAt q count + 1 : Nat) * 10 ^ lastDigit q count := by
          refine mul_lt_mul_of_pos_right ?_ hu
          push_cast
          linarith

/-- A positive quotient has its leading digit in front of all others. -/
theorem lastDigit_seventeen (hq : 0 < q) : (10 : Rat) ^ 16 * 10 ^ lastDigit q 17 ≤ q := by
  obtain ⟨hlow, -⟩ : (10 : Rat) ^ leadingExponent 10 q ≤ q ∧
      q < 10 ^ (leadingExponent 10 q + 1) := by
    exact_mod_cast leadingExponent_spec (by decide) hq
  refine le_of_eq_of_le ?_ hlow
  rw [lastDigit, ← zpow_natCast, ← zpow_add₀ (by norm_num)]
  congr 1
  omega

/-- One of the two neighbours of seventeen digits is no further away than half of its last digit. -/
theorem exists_neighbour (hq : 0 < q) :
    ∃ d ∈ neighbours q 17, ∃ u : Rat, 0 < u ∧ |d.value - q| * 2 ≤ u ∧ 10 ^ 16 * u ≤ q ∧
      10 ^ 16 * u ≤ d.value := by
  have hu : (0 : Rat) < 10 ^ lastDigit q 17 := by positivity
  have hlead := lastDigit_seventeen hq
  obtain ⟨hbelow, habove⟩ := floorAt_spec hq 17
  have hmem : ∀ n, n = floorAt q 17 ∨ n = floorAt q 17 + 1 →
      ∃ d ∈ neighbours q 17, d.value = n * 10 ^ lastDigit q 17 := fun n => exists_value_eq
  generalize (10 : Rat) ^ lastDigit q 17 = u at *
  generalize floorAt q 17 = m at *
  have hlarge : 10 ^ 16 ≤ m := by
    have hlt : (10 ^ 16 : Rat) < (m + 1 : Nat) :=
      lt_of_mul_lt_mul_right (lt_of_le_of_lt hlead habove) hu.le
    exact Nat.lt_succ_iff.1 (by exact_mod_cast hlt)
  have hdigits : 10 ^ 16 * u ≤ m * u :=
    mul_le_mul_of_nonneg_right (by exact_mod_cast hlarge) hu.le
  have hnext : ((m + 1 : Nat) : Rat) * u = m * u + u := by
    push_cast
    ring
  rw [hnext] at habove
  by_cases hhalf : (q - m * u) * 2 ≤ u
  · obtain ⟨d, hd, hvalue⟩ := hmem m (.inl rfl)
    refine ⟨d, hd, u, hu, ?_, hlead, by rwa [hvalue]⟩
    rw [hvalue, abs_sub_comm, abs_of_nonneg (by linarith)]
    exact hhalf
  · obtain ⟨d, hd, hvalue⟩ := hmem (m + 1) (.inr rfl)
    rw [hnext] at hvalue
    refine ⟨d, hd, u, hu, ?_, hlead, by rw [hvalue]; linarith⟩
    rw [hvalue, abs_of_nonneg (by linarith)]
    linarith

end Neighbours

/-- The shortest decimal is found, and it reads back. -/
theorem roundBinary_shortest {v : Dyadic} (hv : roundBinary v.toRat = v) (hpos : 0 < v.toRat) :
    roundBinary (shortest v).value = v := by
  have hsome : ((List.range 17).findSome? fun n => (neighbours v.toRat (n + 1)).find?
      fun d => decide (roundBinary d.value = v)).isSome = true := by
    obtain ⟨d, hd, u, hu, hclose, huv, hud⟩ := exists_neighbour hpos
    rw [List.findSome?_isSome_iff]
    refine ⟨16, by decide, List.find?_isSome.2 ⟨d, hd, ?_⟩⟩
    have hd0 : 0 < d.value := lt_of_lt_of_le (by positivity) hud
    exact decide_eq_true (roundBinary_of_close hv hpos hd0 hclose huv hud)
  obtain ⟨d, hd⟩ := Option.isSome_iff_exists.1 hsome
  obtain ⟨n, -, hfound⟩ := List.exists_of_findSome?_eq_some hd
  have hback := List.find?_some hfound
  rw [shortest, hd]
  simpa using hback

end Decimal

end VoxelQuery
