import VoxelQuery.Proofs.Text.Cutting
import VoxelQuery.Text.Lower

/-! Texts that differ only in the case of ASCII letters. In lower case they are one text, and they
are cut and trimmed at the same places. -/
namespace VoxelQuery.Text

/-- Two forms of a letter that nothing but their case tells apart. -/
structure CaseForms (c d : Char) : Prop where
  lowerChar : lowerChar d = lowerChar c
  cased : isCased d = isCased c
  ignorable : isIgnorable d = isIgnorable c
  word : isWordPart d = isWordPart c
  blank : isBlank d = isBlank c
  alpha : d.isAlpha = c.isAlpha

theorem CaseForms.refl (c : Char) : CaseForms c c := ⟨rfl, rfl, rfl, rfl, rfl, rfl⟩

theorem toLower_cases (c : Char) :
    c.toLower = c ∨ ∃ n < 26, c = Char.ofNat ('A'.toNat + n) := by
  by_cases hupper : 'A'.val ≤ c.val ∧ c.val ≤ 'Z'.val
  · right
    obtain ⟨hlow, hhigh⟩ := hupper
    rw [UInt32.le_iff_toNat_le] at hlow hhigh
    have hlow : 65 ≤ c.toNat := hlow
    have hhigh : c.toNat ≤ 90 := hhigh
    refine ⟨c.toNat - 65, by omega, ?_⟩
    have hsum : 'A'.toNat + (c.toNat - 65) = c.toNat := by
      show 65 + (c.toNat - 65) = c.toNat
      omega
    rw [hsum, Char.ofNat_toNat]
  · left
    exact dif_neg hupper

/-- One look at each of the capital letters. -/
theorem forms_of_capital : ((List.range 26).all fun n =>
    let c := Char.ofNat ('A'.toNat + n)
    lowerChar c.toLower == lowerChar c && isCased c.toLower == isCased c &&
      isIgnorable c.toLower == isIgnorable c && isWordPart c.toLower == isWordPart c &&
      isBlank c.toLower == isBlank c && c.toLower.isAlpha && c.isAlpha) = true := by
  decide +kernel

theorem caseForms_toLower (c : Char) : CaseForms c c.toLower := by
  rcases toLower_cases c with h | ⟨n, hn, rfl⟩
  · rw [h]
    exact .refl c
  · have hforms := List.all_eq_true.1 forms_of_capital n (List.mem_range.2 hn)
    simp only [Bool.and_eq_true, beq_iff_eq] at hforms
    obtain ⟨⟨⟨⟨⟨⟨hlower, hcased⟩, hignorable⟩, hword⟩, hblank⟩, hsmall⟩, hcapital⟩ := hforms
    exact ⟨hlower, hcased, hignorable, hword, hblank, hsmall.trans hcapital.symm⟩

theorem toLower_eq_self {c : Char} (h : c.isAlpha = false) : c.toLower = c := by
  apply (toLower_cases c).resolve_right
  rintro ⟨n, hn, rfl⟩
  have hforms := List.all_eq_true.1 forms_of_capital n (List.mem_range.2 hn)
  simp only [Bool.and_eq_true] at hforms
  rw [hforms.2] at h
  cases h

/-- Only letters become letters. -/
theorem toLower_eq_iff {c d : Char} (hd : d.isAlpha = false) : c.toLower = d ↔ c = d := by
  constructor
  · rintro rfl
    rw [(caseForms_toLower c).alpha] at hd
    exact (toLower_eq_self hd).symm
  · rintro rfl
    exact toLower_eq_self hd

section Lower

theorem casedNext_map_toLower (text : List Char) :
    casedNext (text.map Char.toLower) = casedNext text := by
  have hignorable : isIgnorable ∘ Char.toLower = isIgnorable :=
    funext fun c => (caseForms_toLower c).ignorable
  rw [casedNext, List.dropWhile_map, hignorable, casedNext]
  cases text.dropWhile isIgnorable with
  | nil => rfl
  | cons c rest => exact (caseForms_toLower c).cased

theorem lowerFrom_map_toLower (casedBefore : Bool) (text : List Char) :
    lowerFrom casedBefore (text.map Char.toLower) = lowerFrom casedBefore text := by
  induction text generalizing casedBefore with
  | nil => rfl
  | cons c rest ih =>
    obtain ⟨hlower, hcased, hignorable, -, -, -⟩ := caseForms_toLower c
    have hsigma : c.toLower = 'Σ' ↔ c = 'Σ' := toLower_eq_iff (by decide)
    have hdotted : c.toLower = 'İ' ↔ c = 'İ' := toLower_eq_iff (by decide)
    simp only [List.map_cons, lowerFrom, ih, hlower, hcased, hignorable, casedNext_map_toLower,
      hsigma, hdotted]

/-- The text with small letters of ASCII in place of the capital ones. -/
def small (text : String) : String := String.ofList (text.toList.map Char.toLower)

@[simp] theorem lower_small (text : String) : lower (small text) = lower text := by
  rw [lower, lowerChars, small, String.toList_ofList, lowerFrom_map_toLower]
  rfl

end Lower

theorem isWord_map_toLower (word : List Char) : isWord (word.map Char.toLower) = isWord word := by
  have hpart : isWordPart ∘ Char.toLower = isWordPart :=
    funext fun c => (caseForms_toLower c).word
  simp [isWord, List.all_map, hpart]

/-- One look at each of the characters of words. -/
theorem isWordPart_lowerChar_of_lt : ((List.range 123).all fun n =>
    !isWordPart (Char.ofNat n) || isWordPart (lowerChar (Char.ofNat n))) = true := by
  decide +kernel

theorem isWordPart_lowerChar {c : Char} (h : isWordPart c = true) :
    isWordPart (lowerChar c) = true := by
  have hcode := toNat_of_isWordPart h
  have hforms := List.all_eq_true.1 isWordPart_lowerChar_of_lt c.toNat
    (List.mem_range.2 (by omega))
  rwa [Char.ofNat_toNat, h, Bool.not_true, Bool.false_or] at hforms

/-- No letter of a word has a rule of its own. -/
theorem lowerFrom_of_isWordPart {text : List Char} (h : ∀ c ∈ text, isWordPart c = true)
    (casedBefore : Bool) : lowerFrom casedBefore text = text.map lowerChar := by
  induction text generalizing casedBefore with
  | nil => rfl
  | cons first rest ih =>
    obtain ⟨hfirst, hrest⟩ := List.forall_mem_cons.1 h
    have hsigma : first ≠ 'Σ' := by
      rintro rfl
      exact absurd hfirst (by decide)
    have hdotted : first ≠ 'İ' := by
      rintro rfl
      exact absurd hfirst (by decide)
    rw [lowerFrom, if_neg hsigma, if_neg hdotted, ih hrest]
    rfl

/-- A word stays a word in lower case. -/
theorem isWord_lower {word : String} (h : isWord word.toList = true) :
    isWord (lower word).toList = true := by
  obtain ⟨hne, hparts⟩ := (isWord_iff _).1 h
  rw [toList_lower, lowerChars, lowerFrom_of_isWordPart hparts, isWord_iff]
  exact ⟨by simpa using hne, List.forall_mem_map.2 fun c hc => isWordPart_lowerChar (hparts c hc)⟩

theorem trimLeft_map_toLower (text : List Char) :
    trimLeft (text.map Char.toLower) = (trimLeft text).map Char.toLower := by
  have hblank : isBlank ∘ Char.toLower = isBlank := funext fun c => (caseForms_toLower c).blank
  rw [trimLeft, List.dropWhile_map, hblank, trimLeft]

theorem pieces_map_toLower {separator : Char} (hseparator : separator.isAlpha = false)
    (text : List Char) : pieces separator (text.map Char.toLower) =
      (pieces separator text).map (List.map Char.toLower) := by
  induction text with
  | nil => rfl
  | cons c rest ih =>
    simp only [List.map_cons, pieces, ih, toLower_eq_iff hseparator]
    split
    · rfl
    · cases pieces separator rest <;> rfl

end VoxelQuery.Text
