import Mathlib.Tactic.NormNum
import VoxelQuery.Proofs.Number.Shortest
import VoxelQuery.Proofs.Text.Cutting

/-! Texts of numbers. A finite number is written with a sign, digits before and behind the point,
and an exponent. These parts are told from the text, and the number from them, so that different
numbers have different texts. -/
namespace VoxelQuery

namespace Decimal

/-- Digits behind the point. -/
def pointed (places : List Char) : List Char := if places = [] then [] else '.' :: places

/-- The power of ten behind the digits. -/
def scaled (power : Int) : List Char :=
  if power = 0 then []
  else 'e' :: (if power < 0 then '-' else '+') :: (toString power.natAbs).toList

theorem isDigit_of_mem_toString {n : Nat} {c : Char} (h : c ∈ (toString n).toList) :
    c.isDigit = true := by
  rw [Nat.toString_eq_repr, Nat.toList_repr] at h
  exact Nat.isDigit_of_mem_toDigits (by decide) (by decide) h

theorem ofDigitChars_toString (n : Nat) : Nat.ofDigitChars 10 (toString n).toList 0 = n := by
  rw [Nat.toString_eq_repr, Nat.toList_repr, Nat.ofDigitChars_ten_toDigits]

theorem head_scaled (power : Int) : ∀ c ∈ (scaled power).head?, c = 'e' := by
  rw [scaled]
  split <;> simp [eq_comm]

theorem scaled_inj {power other : Int} (h : scaled power = scaled other) : power = other := by
  by_cases hp : power = 0
  · by_cases hq : other = 0
    · rw [hp, hq]
    · simp [scaled, hp, hq] at h
  · by_cases hq : other = 0
    · simp [scaled, hp, hq] at h
    · simp only [scaled, if_neg hp, if_neg hq, List.cons.injEq, true_and] at h
      obtain ⟨hsign, hdigits⟩ := h
      have hsize : power.natAbs = other.natAbs := by
        rw [← ofDigitChars_toString power.natAbs, hdigits, ofDigitChars_toString]
      split at hsign
      · split at hsign
        · omega
        · cases hsign
      · split at hsign
        · cases hsign
        · omega

/-- The parts of a written decimal: digits before and behind the point, and the power of ten. -/
@[ext] structure Parts where
  whole : List Char
  places : List Char
  power : Int
  digits : ∀ c ∈ whole ++ places, c.isDigit = true
  whole_ne_nil : whole ≠ []

namespace Parts

variable {p q : Parts}

def text (p : Parts) : List Char := p.whole ++ (pointed p.places ++ scaled p.power)

def value (p : Parts) : Rat :=
  Nat.ofDigitChars 10 (p.whole ++ p.places) 0 * 10 ^ (p.power - p.places.length)

theorem digit_of_mem_whole (p : Parts) : ∀ c ∈ p.whole, c.isDigit = true :=
  fun c hc => p.digits c (List.mem_append_left _ hc)

theorem digit_of_mem_places (p : Parts) : ∀ c ∈ p.places, c.isDigit = true :=
  fun c hc => p.digits c (List.mem_append_right _ hc)

/-- The parts are told from the text. -/
theorem text_inj (h : p.text = q.text) : p = q := by
  have hscaled : ∀ power, ∀ c ∈ (scaled power).head?, c.isDigit = false := by
    intro power c hc
    rw [head_scaled power c hc]
    rfl
  have hrest : ∀ p : Parts, ∀ c ∈ (pointed p.places ++ scaled p.power).head?,
      c.isDigit = false := by
    intro p c hc
    rw [pointed] at hc
    split at hc
    · exact hscaled p.power c hc
    · obtain rfl : '.' = c := by simpa using hc
      rfl
  obtain ⟨hwhole, h⟩ := Text.append_inj_of_head p.digit_of_mem_whole q.digit_of_mem_whole
    (hrest p) (hrest q) h
  -- The power of ten cannot be taken for a point.
  have hpoint : ∀ power places, scaled power ≠ '.' :: places := by
    intro power places heq
    have hhead := head_scaled power '.' (by simp [heq])
    cases hhead
  obtain ⟨hplaces, h⟩ : p.places = q.places ∧ scaled p.power = scaled q.power := by
    rw [pointed, pointed] at h
    split at h
    · next hp =>
      split at h
      · next hq => exact ⟨hp.trans hq.symm, h⟩
      · exact absurd h (hpoint _ _)
    · split at h
      · exact absurd h.symm (hpoint _ _)
      · exact Text.append_inj_of_head p.digit_of_mem_places q.digit_of_mem_places
          (hscaled p.power) (hscaled q.power) (List.cons.inj h).2
  exact Parts.ext hwhole hplaces (scaled_inj h)

theorem isDigit_of_head_text (p : Parts) : ∀ c ∈ p.text.head?, c.isDigit = true := by
  intro c hc
  rw [text, List.head?_append_of_ne_nil _ p.whole_ne_nil] at hc
  exact p.digit_of_mem_whole c (List.mem_of_mem_head? hc)

theorem mem_text {c : Char} (h : c ∈ p.text) : c.isDigit = true ∨ c ∈ ['.', 'e', '-', '+'] := by
  rw [text, List.mem_append, List.mem_append] at h
  rcases h with hwhole | hplaces | hpower
  · exact .inl (p.digit_of_mem_whole c hwhole)
  · rw [pointed] at hplaces
    split at hplaces
    · cases hplaces
    · rcases List.mem_cons.1 hplaces with rfl | hplaces
      · simp
      · exact .inl (p.digit_of_mem_places c hplaces)
  · rw [scaled] at hpower
    split at hpower
    · cases hpower
    · rcases List.mem_cons.1 hpower with rfl | hpower
      · simp
      · rcases List.mem_cons.1 hpower with rfl | hsize
        · split <;> simp
        · exact .inl (isDigit_of_mem_toString hsize)

end Parts

section Layout

variable {d : Decimal}

theorem isDigit_of_mem_zeros {n : Int} {c : Char} (h : c ∈ zeros n) : c.isDigit = true := by
  rw [List.eq_of_mem_replicate h]
  rfl

/-- Zeros in front of the digits count for nothing, and zeros behind them for powers of ten. -/
theorem exists_parts_of (whole places : List Char) (power before behind : Int)
    (hwhole : whole ≠ []) (hchars : whole ++ places = zeros before ++ d.digits ++ zeros behind)
    (hbehind : 0 ≤ behind) (hpower : power - places.length + behind = d.exponent) :
    ∃ p : Parts, whole ++ (pointed places ++ scaled power) = p.text ∧ p.value = d.value := by
  have hdigits : ∀ c ∈ whole ++ places, c.isDigit = true := by
    intro c hc
    rw [hchars, List.mem_append, List.mem_append] at hc
    rcases hc with (hc | hc) | hc
    · exact isDigit_of_mem_zeros hc
    · exact isDigit_of_mem_toString hc
    · exact isDigit_of_mem_zeros hc
  refine ⟨⟨whole, places, power, hdigits, hwhole⟩, rfl, ?_⟩
  obtain ⟨n, rfl⟩ := Int.eq_ofNat_of_zero_le hbehind
  rw [Parts.value, Decimal.value, hchars, Nat.ofDigitChars_append, Nat.ofDigitChars_append, zeros,
    zeros, Nat.ofDigitChars_replicate_zero, Nat.ofDigitChars_replicate_zero, mul_zero, digits,
    ofDigitChars_toString, Int.toNat_natCast, ← hpower, zpow_add₀ (by norm_num), zpow_natCast]
  push_cast
  ring

/-- A layout has parts, and they have the value of the decimal. -/
theorem exists_parts (d : Decimal) : ∃ p : Parts, d.layout = p.text ∧ p.value = d.value := by
  have hlength : 0 < d.digits.length := by
    rw [digits, Nat.toString_eq_repr, Nat.toList_repr]
    exact Nat.length_toDigits_pos
  have hnil : d.digits ≠ [] := List.length_pos_iff.1 hlength
  have hsplit : ∀ n, d.digits.take n ++ d.digits.drop n = zeros 0 ++ d.digits ++ zeros 0 := by
    intro n
    simp [zeros]
  rw [layout]
  split
  · next h =>
    obtain ⟨p, htext, hvalue⟩ := exists_parts_of (d := d) (d.digits ++ zeros d.exponent) [] 0 0
      d.exponent (by simp [hnil]) (by simp [zeros]) (by omega) (by simp)
    refine ⟨p, ?_, hvalue⟩
    rw [← htext]
    simp [pointed, scaled]
  · split
    · next h hbetween =>
      obtain ⟨n, hn⟩ := Int.eq_ofNat_of_zero_le hbetween.1.le
      have hshort : n < d.digits.length := by omega
      obtain ⟨p, htext, hvalue⟩ := exists_parts_of (d.digits.take n) (d.digits.drop n) 0 0 0
        (by simp [hnil]; omega) (hsplit n) le_rfl (by rw [List.length_drop]; omega)
      refine ⟨p, ?_, hvalue⟩
      rw [← htext, hn, pointed, if_neg (by simpa using hshort)]
      simp [scaled]
    · split
      · next h =>
        obtain ⟨n, hn⟩ := Int.eq_ofNat_of_zero_le (show 0 ≤ -(d.digits.length + d.exponent) by omega)
        obtain ⟨p, htext, hvalue⟩ := exists_parts_of (d := d) ['0'] (zeros n ++ d.digits) 0 (n + 1) 0
          (by simp) (by simp [zeros, List.replicate_succ]) le_rfl
          (by simp [zeros]; omega)
        refine ⟨p, ?_, hvalue⟩
        rw [← htext, hn, pointed, if_neg (by simp [hnil])]
        simp [scaled]
      · next hlarge hbetween hsmall =>
        have hpower : d.digits.length + d.exponent - 1 ≠ 0 := by omega
        by_cases hone : d.digits.length = 1
        · obtain ⟨p, htext, hvalue⟩ := exists_parts_of (d := d) d.digits []
            (d.digits.length + d.exponent - 1) 0 0 hnil (by simp [zeros]) le_rfl
            (by simp; omega)
          refine ⟨p, ?_, hvalue⟩
          rw [← htext, scaled, if_neg hpower, if_pos (by omega)]
          simp [pointed]
        · obtain ⟨p, htext, hvalue⟩ := exists_parts_of (d.digits.take 1) (d.digits.drop 1)
            (d.digits.length + d.exponent - 1) 0 0 (by simp [hnil]) (hsplit 1) le_rfl
            (by rw [List.length_drop]; omega)
          refine ⟨p, ?_, hvalue⟩
          rw [← htext, scaled, if_neg hpower, if_neg (by omega), pointed,
            if_neg (by rw [List.drop_eq_nil_iff]; omega)]
          simp

end Layout

end Decimal

namespace Number

/-- What a computation can give: a fraction of 53 bits, or no finite number. -/
def Rounded : Number → Prop
  | finite value => roundBinary value.toRat = value
  | _ => True

theorem rounded_nearest (q : Rat) : (nearest q).Rounded := by
  rw [nearest]
  split
  · trivial
  · split
    · trivial
    · exact roundBinary_roundBinary q

theorem rounded_ofInt (i : Int) : (ofInt i).Rounded := rounded_nearest i

def signed (negative : Bool) (text : List Char) : List Char :=
  if negative then '-' :: text else text

theorem signed_inj {negative other : Bool} {p q : Decimal.Parts}
    (h : signed negative p.text = signed other q.text) : negative = other ∧ p = q := by
  have hsign : ∀ p q : Decimal.Parts, p.text ≠ '-' :: q.text := by
    intro p q heq
    have hdigit := p.isDigit_of_head_text '-' (by simp [heq])
    cases hdigit
  cases negative <;> cases other
  · exact ⟨rfl, Decimal.Parts.text_inj h⟩
  · exact absurd h (hsign p q)
  · exact absurd h.symm (hsign q p)
  · exact ⟨rfl, Decimal.Parts.text_inj (List.cons.inj h).2⟩

/-- The text of a finite number is a sign with a decimal that is rounded to its size. -/
theorem exists_signed {v : Dyadic} (hv : roundBinary v.toRat = v) :
    ∃ (negative : Bool) (p : Decimal.Parts), (finite v).text.toList = signed negative p.text ∧
      v.toRat = if negative then -(roundBinary p.value).toRat else (roundBinary p.value).toRat := by
  rw [text]
  split
  · next hzero =>
    refine ⟨false, ⟨['0'], [], 0, by simp, by simp⟩, rfl, ?_⟩
    simp [hzero, Decimal.Parts.value, Nat.ofDigitChars]
  · next hzero =>
    have hzero : v.toRat ≠ 0 := by rwa [← Dyadic.toRat_zero, ne_eq, Dyadic.toRat_inj]
    split
    · next hneg =>
      rw [← Dyadic.toRat_lt_toRat_iff, Dyadic.toRat_zero] at hneg
      have hpos : 0 < (-v).toRat := by rwa [Dyadic.toRat_neg, neg_pos]
      obtain ⟨p, htext, hvalue⟩ := Decimal.exists_parts (Decimal.shortest (-v))
      refine ⟨true, p, by rw [String.toList_ofList, htext]; rfl, ?_⟩
      rw [hvalue, Decimal.roundBinary_shortest (roundBinary_neg hv) hpos, Dyadic.toRat_neg]
      simp
    · next hneg =>
      rw [← Dyadic.toRat_lt_toRat_iff, Dyadic.toRat_zero, not_lt] at hneg
      obtain ⟨p, htext, hvalue⟩ := Decimal.exists_parts (Decimal.shortest v)
      refine ⟨false, p, by rw [String.toList_ofList, htext]; rfl, ?_⟩
      rw [hvalue, Decimal.roundBinary_shortest hv (lt_of_le_of_ne hneg hzero.symm)]
      rfl

theorem mem_text_finite {v : Dyadic} (hv : roundBinary v.toRat = v) {c : Char}
    (h : c ∈ (finite v).text.toList) : c.isDigit = true ∨ c ∈ ['.', 'e', '-', '+'] := by
  obtain ⟨negative, p, htext, -⟩ := exists_signed hv
  rw [htext, signed] at h
  split at h
  · rcases List.mem_cons.1 h with rfl | hc
    · simp
    · exact p.mem_text hc
  · exact p.mem_text h

variable {a b : Number}

/-- Different numbers have different texts. -/
theorem text_inj (ha : a.Rounded) (hb : b.Rounded) : a.text = b.text ↔ a = b := by
  refine ⟨fun h => ?_, fun h => by rw [h]⟩
  have hundefined : ∀ v : Dyadic, roundBinary v.toRat = v → "NaN" ≠ (finite v).text := by
    intro v hv heq
    have hmem := mem_text_finite hv (c := 'N') (by rw [← heq]; decide)
    revert hmem
    decide
  have hinfinite : ∀ negative (v : Dyadic), roundBinary v.toRat = v →
      (infinite negative).text ≠ (finite v).text := by
    intro negative v hv heq
    have hmem := mem_text_finite hv (c := 'I') (by rw [← heq]; cases negative <;> decide)
    revert hmem
    decide
  cases a with
  | undefined =>
    cases b with
    | undefined => rfl
    | infinite negative => cases negative <;> exact absurd h (by decide)
    | finite v => exact absurd h (hundefined v hb)
  | infinite negative =>
    cases b with
    | undefined => cases negative <;> exact absurd h (by decide)
    | infinite other => cases negative <;> cases other <;> first | rfl | exact absurd h (by decide)
    | finite v => exact absurd h (hinfinite negative v hb)
  | finite v =>
    cases b with
    | undefined => exact absurd h.symm (hundefined v ha)
    | infinite negative => exact absurd h.symm (hinfinite negative v ha)
    | finite w =>
      obtain ⟨negative, p, hv, hvalue⟩ := exists_signed ha
      obtain ⟨other, q, hw, hvalue'⟩ := exists_signed hb
      rw [h, hw] at hv
      obtain ⟨rfl, rfl⟩ := signed_inj hv.symm
      rw [← hvalue', Dyadic.toRat_inj] at hvalue
      rw [hvalue]

theorem comma_notMem_text (ha : a.Rounded) : ',' ∉ a.text.toList := by
  cases a with
  | undefined => decide
  | infinite negative => cases negative <;> decide
  | finite v =>
    intro hmem
    have hchar := mem_text_finite ha hmem
    revert hchar
    decide

end Number

end VoxelQuery
