import VoxelQuery.Text.Lower

/-! Lower-casing a second time changes nothing. The forms that the table gives have no other form in
it, and the two letters that have rules of their own are no such forms. -/
namespace VoxelQuery.Text

namespace LowerRun

/-- The code point has a form in the run. -/
structure Covers (r : LowerRun) (n : Nat) : Prop where
  low : r.first ≤ n
  high : n ≤ r.last
  stride : (n - r.first) % r.stride = 0

/-- The forms of one run stand outside the other run, or between the code points that it covers. -/
def clears (r s : LowerRun) : Bool :=
  Nat.blt (r.target + (r.last - r.first)) s.first || Nat.blt s.last r.target ||
    (s.stride == 2 && (r.stride == 2 || r.first == r.last) && (r.target + s.first) % 2 == 1)

theorem not_covers_of_clears {r s : LowerRun} {n : Nat} (h : r.clears s = true)
    (hr : r.Covers n) : ¬s.Covers (r.target + (n - r.first)) := by
  intro hs
  obtain ⟨hlow, hhigh, hstride⟩ := hr
  obtain ⟨hlow', hhigh', hstride'⟩ := hs
  simp only [clears, Bool.or_eq_true, Bool.and_eq_true, Nat.blt_eq, beq_iff_eq] at h
  rcases h with (h | h) | ⟨⟨htwo, hstep⟩, hodd⟩
  · omega
  · omega
  · rw [htwo] at hstride'
    rcases hstep with hstep | hstep
    · rw [hstep] at hstride
      omega
    · omega

end LowerRun

theorem lowerCode_cases (n : Nat) (runs : List LowerRun) :
    lowerCode n runs = n ∨
      ∃ r ∈ runs, r.Covers n ∧ lowerCode n runs = r.target + (n - r.first) := by
  induction runs with
  | nil => exact .inl rfl
  | cons r rest ih =>
    rw [lowerCode]
    split
    · exact .inl rfl
    · next hlow =>
      split
      · next hhigh =>
        split
        · next hstride =>
          exact .inr ⟨r, List.mem_cons_self, ⟨Nat.le_of_not_lt hlow, hhigh, hstride⟩, rfl⟩
        · exact .inl rfl
      · refine ih.imp id ?_
        rintro ⟨s, hs, h⟩
        exact ⟨s, List.mem_cons_of_mem _ hs, h⟩

theorem clears_lowerRuns : (lowerRuns.all fun r => lowerRuns.all fun s => r.clears s) = true := by
  decide +kernel

theorem lowerCode_lowerCode (n : Nat) :
    lowerCode (lowerCode n lowerRuns) lowerRuns = lowerCode n lowerRuns := by
  rcases lowerCode_cases n lowerRuns with h | ⟨r, hr, hcovers, h⟩
  · rw [h, h]
  · apply (lowerCode_cases _ lowerRuns).resolve_right
    rintro ⟨s, hs, hagain, -⟩
    rw [h] at hagain
    have hclears := List.all_eq_true.1 (List.all_eq_true.1 clears_lowerRuns r hr) s hs
    exact LowerRun.not_covers_of_clears hclears hcovers hagain

/-- The forms of the table are characters, and the dotted capital I is none of them. -/
theorem lowerRuns_forms : ∀ r ∈ lowerRuns,
    (r.target + (r.last - r.first) < 0xD800 ∨
      0xDFFF < r.target ∧ r.target + (r.last - r.first) < 0x110000) ∧
    (r.target + (r.last - r.first) < 'İ'.toNat ∨ 'İ'.toNat < r.target) := by
  decide +kernel

theorem toNat_lowerChar (c : Char) : (lowerChar c).toNat = lowerCode c.toNat lowerRuns := by
  rw [lowerChar]
  rcases lowerCode_cases c.toNat lowerRuns with h | ⟨r, hr, hcovers, h⟩
  · rw [h, Char.ofNat_toNat]
  · have hvalid : (lowerCode c.toNat lowerRuns).isValidChar := by
      have hforms := (lowerRuns_forms r hr).1
      have hlow := hcovers.low
      have hhigh := hcovers.high
      rw [h, Nat.isValidChar]
      omega
    rw [Char.ofNat, dif_pos hvalid]
    rfl

@[simp] theorem lowerChar_lowerChar (c : Char) : lowerChar (lowerChar c) = lowerChar c := by
  rw [lowerChar, toNat_lowerChar, lowerCode_lowerCode]
  rfl

theorem lowerChar_ne_sigma (c : Char) : lowerChar c ≠ 'Σ' := by
  intro h
  have hagain := lowerChar_lowerChar c
  rw [h] at hagain
  exact absurd hagain (by decide +kernel)

theorem lowerChar_ne_dotted {c : Char} (hc : c ≠ 'İ') : lowerChar c ≠ 'İ' := by
  intro h
  have htoNat := toNat_lowerChar c
  rw [h] at htoNat
  rcases lowerCode_cases c.toNat lowerRuns with hsame | ⟨r, hr, hcovers, hform⟩
  · rw [hsame] at htoNat
    exact hc (Char.toNat_inj.1 htoNat.symm)
  · have hforms := (lowerRuns_forms r hr).2
    have hlow := hcovers.low
    have hhigh := hcovers.high
    omega

/-- A character that stands for itself in lower case, wherever it is. -/
structure IsLower (c : Char) : Prop where
  ne_sigma : c ≠ 'Σ'
  ne_dotted : c ≠ 'İ'
  lowerChar_eq : lowerChar c = c

theorem isLower_of_mem_lowerFrom {casedBefore : Bool} {text : List Char} :
    ∀ c ∈ lowerFrom casedBefore text, IsLower c := by
  induction text generalizing casedBefore with
  | nil => simp [lowerFrom]
  | cons first rest ih =>
    rw [lowerFrom]
    simp only [List.forall_mem_append]
    refine ⟨?_, ih⟩
    split
    · split
      · exact List.forall_mem_singleton.2 ⟨by decide, by decide, by decide +kernel⟩
      · exact List.forall_mem_singleton.2 ⟨by decide, by decide, by decide +kernel⟩
    · split
      · refine List.forall_mem_cons.2 ⟨⟨by decide, by decide, by decide +kernel⟩, ?_⟩
        exact List.forall_mem_singleton.2 ⟨by decide, by decide, by decide +kernel⟩
      · next hdotted =>
        refine List.forall_mem_singleton.2 ⟨lowerChar_ne_sigma first, ?_, lowerChar_lowerChar first⟩
        exact lowerChar_ne_dotted hdotted

theorem lowerFrom_of_isLower {text : List Char} (h : ∀ c ∈ text, IsLower c) (casedBefore : Bool) :
    lowerFrom casedBefore text = text := by
  induction text generalizing casedBefore with
  | nil => rfl
  | cons first rest ih =>
    obtain ⟨hfirst, hrest⟩ := List.forall_mem_cons.1 h
    rw [lowerFrom, if_neg hfirst.ne_sigma, if_neg hfirst.ne_dotted, hfirst.lowerChar_eq, ih hrest]
    rfl

@[simp] theorem lower_lower (text : String) : lower (lower text) = lower text := by
  have hsame : lowerChars (lowerChars text.toList) = lowerChars text.toList :=
    lowerFrom_of_isLower isLower_of_mem_lowerFrom false
  rw [lower, toList_lower, hsame]
  rfl

end VoxelQuery.Text
