import Mathlib.Data.List.Forall2
import VoxelQuery.Proofs.History
import VoxelQuery.Proofs.Text.LetterCase
import VoxelQuery.Record

/-! Records whose names are read without regard to case. The order of a record puts indices first,
but a name that is an index has no other case. So among the fields whose names are equal in lower
case the last one in the order of the record is the last one in the order of first writing, and it
depends on the fields of those names only. -/
namespace VoxelQuery

namespace Text

/-- No other character has a digit for its form in lower case. -/
theorem lowerRuns_above_digits : ∀ r ∈ lowerRuns, '9'.toNat < r.first ∧ '9'.toNat < r.target := by
  decide +kernel

theorem toNat_le_of_isDigit {c : Char} (h : c.isDigit = true) : c.toNat ≤ '9'.toNat := by
  simp only [Char.isDigit, ge_iff_le, Bool.and_eq_true, decide_eq_true_eq, UInt32.le_iff_toNat_le] at h
  exact h.2

theorem lowerChar_of_isDigit {c : Char} (h : c.isDigit = true) : lowerChar c = c := by
  have hle := toNat_le_of_isDigit h
  apply Char.toNat_inj.1
  rw [toNat_lowerChar]
  apply (lowerCode_cases c.toNat lowerRuns).resolve_right
  rintro ⟨r, hr, hcovers, -⟩
  have habove := (lowerRuns_above_digits r hr).1
  have hlow := hcovers.low
  omega

theorem eq_of_isDigit_lowerChar {c : Char} (h : (lowerChar c).isDigit = true) : lowerChar c = c := by
  have hle := toNat_le_of_isDigit h
  apply Char.toNat_inj.1
  rw [toNat_lowerChar] at hle ⊢
  apply (lowerCode_cases c.toNat lowerRuns).resolve_right
  rintro ⟨r, hr, -, hform⟩
  have habove := (lowerRuns_above_digits r hr).2
  omega

theorem isLower_of_isDigit {c : Char} (h : c.isDigit = true) : IsLower c where
  ne_sigma := by
    rintro rfl
    cases h
  ne_dotted := by
    rintro rfl
    cases h
  lowerChar_eq := lowerChar_of_isDigit h

theorem isDigit_of_lowerFrom {casedBefore : Bool} {text : List Char}
    (h : ∀ d ∈ lowerFrom casedBefore text, d.isDigit = true) : ∀ c ∈ text, c.isDigit = true := by
  induction text generalizing casedBefore with
  | nil => simp
  | cons first rest ih =>
    simp only [lowerFrom, List.forall_mem_append] at h
    obtain ⟨hhere, hrest⟩ := h
    refine List.forall_mem_cons.2 ⟨?_, ih hrest⟩
    split at hhere
    · split at hhere
      · exact absurd (hhere 'ς' (by simp)) (by decide)
      · exact absurd (hhere 'σ' (by simp)) (by decide)
    · split at hhere
      · exact absurd (hhere 'i' (by simp)) (by decide)
      · have hdigit := hhere (lowerChar first) (by simp)
        rwa [eq_of_isDigit_lowerChar hdigit] at hdigit

/-- A text of digits is in lower case, and it is the lower case of nothing else. -/
theorem lower_of_digits {text : String} (h : ∀ c ∈ text.toList, c.isDigit = true) :
    lower text = text := by
  have hsame : lowerChars text.toList = text.toList :=
    lowerFrom_of_isLower (fun c hc => isLower_of_isDigit (h c hc)) false
  rw [lower, hsame, String.ofList_toList]

theorem digits_of_lower {text : String} (h : ∀ c ∈ (lower text).toList, c.isDigit = true) :
    ∀ c ∈ text.toList, c.isDigit = true := by
  rw [toList_lower] at h
  exact isDigit_of_lowerFrom h

end Text

namespace Table

variable {κ α β : Type} [DecidableEq κ]

/-- Among the entries that a test of the keys lets through, writing goes on as among all. -/
theorem filter_putEntry (p : κ → Bool) (key : κ) (value : α) (l : List (κ × α)) :
    (putEntry key value l).filter (fun e => p e.1) =
      if p key then putEntry key value (l.filter fun e => p e.1) else l.filter fun e => p e.1 := by
  induction l with
  | nil => cases hkey : p key <;> simp [putEntry, hkey]
  | cons e rest ih =>
    by_cases he : e.1 = key
    · subst he
      cases hkey : p e.1 <;> simp [putEntry, hkey]
    · cases hkey : p key <;> cases hfirst : p e.1 <;> simp_all [putEntry]

theorem filter_entries_ofPairs (p : κ → Bool) (pairs : List (κ × α)) :
    (ofPairs pairs).entries.filter (fun e => p e.1) =
      (ofPairs (pairs.filter fun e => p e.1)).entries := by
  induction pairs using List.reverseRecOn with
  | nil => rfl
  | append_singleton pairs e ih =>
    rw [ofPairs_concat, put, filter_putEntry, ih, List.filter_append]
    cases hkey : p e.1
    · simp [hkey]
    · simp [hkey, ofPairs_concat, put]

section Alike

variable {κ' : Type} [DecidableEq κ'] {R : κ → κ' → Prop} {S : α → β → Prop}

/-- Keys that correspond one to one are found at the same places. -/
theorem forall₂_putEntry {key : κ} {key' : κ'} {value : α} {value' : β} {l : List (κ × α)}
    {l' : List (κ' × β)} (hnames : ∀ k k', R k k' → (k = key ↔ k' = key'))
    (hkey : R key key') (hvalue : S value value')
    (h : List.Forall₂ (fun e f => R e.1 f.1 ∧ S e.2 f.2) l l') :
    List.Forall₂ (fun e f => R e.1 f.1 ∧ S e.2 f.2) (putEntry key value l)
      (putEntry key' value' l') := by
  induction h with
  | nil => exact .cons ⟨hkey, hvalue⟩ .nil
  | @cons e f l l' hfirst hrest ih =>
    have hsame := hnames e.1 f.1 hfirst.1
    by_cases he : e.1 = key
    · simpa [putEntry, he, hsame.1 he, hkey, hvalue] using hrest
    · have hf : ¬f.1 = key' := fun hf => he (hsame.2 hf)
      simpa [putEntry, he, hf, hfirst] using ih

/-- Two lists of pairs whose keys correspond one to one make tables with corresponding entries. -/
theorem forall₂_entries_ofPairs {pairs : List (κ × α)} {others : List (κ' × β)}
    (hnames : ∀ k k' m m', R k k' → R m m' → (k = m ↔ k' = m'))
    (h : List.Forall₂ (fun e f => R e.1 f.1 ∧ S e.2 f.2) pairs others) :
    List.Forall₂ (fun e f => R e.1 f.1 ∧ S e.2 f.2) (ofPairs pairs).entries
      (ofPairs others).entries := by
  have hstep : ∀ (t : Table κ α) (t' : Table κ' β),
      List.Forall₂ (fun e f => R e.1 f.1 ∧ S e.2 f.2) t.entries t'.entries →
      List.Forall₂ (fun e f => R e.1 f.1 ∧ S e.2 f.2)
        (pairs.foldl (fun t e => t.put e.1 e.2) t).entries
        (others.foldl (fun t e => t.put e.1 e.2) t').entries := by
    induction h with
    | nil => exact fun t t' ht => ht
    | @cons e f pairs others hfirst hrest ih =>
      intro t t' ht
      refine ih (t.put e.1 e.2) (t'.put f.1 f.2) ?_
      exact forall₂_putEntry (fun k k' hk => hnames k k' e.1 f.1 hk hfirst.1) hfirst.1 hfirst.2 ht
  exact hstep empty empty .nil

end Alike

end Table

namespace Record

theorem index?_eq_none_of_not_digits {name : String}
    (h : ¬∀ c ∈ name.toList, c.isDigit = true) : index? name = none := by
  rw [← List.all_eq_true] at h
  simp [index?, h]

@[simp] theorem index?_lower (name : String) : index? (Text.lower name) = index? name := by
  by_cases h : ∀ c ∈ name.toList, c.isDigit = true
  · rw [Text.lower_of_digits h]
  · rw [index?_eq_none_of_not_digits h,
      index?_eq_none_of_not_digits fun hlower => h (Text.digits_of_lower hlower)]

theorem lower_of_index? {name : String} (h : index? name ≠ none) : Text.lower name = name :=
  Text.lower_of_digits (Classical.not_not.1 fun hdigits => h (index?_eq_none_of_not_digits hdigits))

/-- The fields that are indices, sorted. -/
theorem perm_indexed (entries : List (String × String)) :
    (((entries.filterMap fun e => (index? e.1).map fun n => (n, e)).mergeSort
      fun a b => decide (a.1 ≤ b.1)).map Prod.snd).Perm
        (entries.filter fun e => (index? e.1).isSome) := by
  refine ((List.mergeSort_perm _ _).map Prod.snd).trans ?_
  have hguard : (fun e : String × String => ((index? e.1).map fun n => (n, e)).map Prod.snd) =
      Option.guard fun e => (index? e.1).isSome := by
    funext e
    cases h : index? e.1 <;> simp [Option.guard, h]
  rw [List.map_filterMap, hguard, List.filterMap_eq_filter]

/-- Indices come first in the order of a record, which moves no field past another one whose name
is equal in lower case. -/
theorem filter_indicesFirst {entries : List (String × String)}
    (hnodup : (entries.map Prod.fst).Nodup) (name : String) :
    (indicesFirst entries).filter (fun e => decide (Text.lower e.1 = name)) =
      entries.filter fun e => decide (Text.lower e.1 = name) := by
  have hindex : ∀ e : String × String, Text.lower e.1 = name → index? e.1 = index? name := by
    rintro e rfl
    rw [index?_lower]
  have hsorted := (perm_indexed entries).filter fun e => decide (Text.lower e.1 = name)
  rw [List.filter_filter] at hsorted
  rw [indicesFirst, List.filter_append, List.filter_filter]
  cases hname : index? name with
  | none =>
    have hnone : (entries.filter fun e =>
        decide (Text.lower e.1 = name) && (index? e.1).isSome) = [] := by
      rw [List.filter_eq_nil_iff]
      intro e _ he
      simp only [Bool.and_eq_true, decide_eq_true_eq] at he
      simp [hindex e he.1, hname] at he
    rw [hnone] at hsorted
    rw [List.perm_nil.1 hsorted, List.nil_append]
    refine List.filter_congr fun e _ => ?_
    by_cases he : Text.lower e.1 = name
    · simp [he, hindex e he, hname]
    · simp [he]
  | some n =>
    have hnone : (entries.filter fun e =>
        decide (Text.lower e.1 = name) && (index? e.1).isNone) = [] := by
      rw [List.filter_eq_nil_iff]
      intro e _ he
      simp only [Bool.and_eq_true, decide_eq_true_eq] at he
      simp [hindex e he.1, hname] at he
    have hall : (entries.filter fun e =>
        decide (Text.lower e.1 = name) && (index? e.1).isSome) =
          entries.filter fun e => decide (Text.lower e.1 = name) := by
      refine List.filter_congr fun e _ => ?_
      by_cases he : Text.lower e.1 = name
      · simp [he, hindex e he, hname]
      · simp [he]
    -- A name that is an index is equal in lower case to itself only, so one field has it at most.
    have hself : ∀ e ∈ entries.filter (fun e => decide (Text.lower e.1 = name)), e.1 = name := by
      intro e hmem
      have he : Text.lower e.1 = name := by simpa using (List.mem_filter.1 hmem).2
      have hsame : Text.lower e.1 = e.1 := lower_of_index? (by simp [hindex e he, hname])
      rw [← hsame, he]
    have hone := length_le_one_of_nodup
      (hnodup.sublist (List.filter_sublist.map Prod.fst)) hself
    rw [hall] at hsorted
    rw [hnone, List.append_nil]
    exact eq_of_perm_of_length_le_one hsorted hone

/-- The order of a record and the order of first writing agree on which field is the last one of a
name in lower case. -/
theorem isLast_fields_iff {pairs : List (String × String)} {e : String × String} :
    IsLast (fun e => Text.lower e.1) (fields pairs) e ↔
      IsLast (fun e => Text.lower e.1) (Table.ofPairs pairs).entries e := by
  rw [← isLast_filter_iff rfl, fields, filter_indicesFirst (Table.ofPairs pairs).nodup,
    isLast_filter_iff rfl]

end Record

end VoxelQuery
