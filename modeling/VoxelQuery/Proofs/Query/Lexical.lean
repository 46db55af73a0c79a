import VoxelQuery.Proofs.Text.Cutting
import VoxelQuery.Query.Token

/-! Which texts spell a list of tokens. A spelling consists of gaps and of lexemes, none of which
could go on with the character behind it, and scanning a text finds the tokens that it spells. -/
namespace VoxelQuery

section Gaps

variable {c : Char}

theorem isGap_iff : isGap c = true ↔ c = ' ' ∨ c = '\t' ∨ c = '\r' ∨ c = '\n' := by
  simp [isGap, or_assoc]

theorem width_of_isGap (h : isGap c = true) : Text.width c = 1 := by
  rcases isGap_iff.1 h with rfl | rfl | rfl | rfl <;> decide

theorem isBlank_of_isGap (h : isGap c = true) : Text.isBlank c = true := by
  rcases isGap_iff.1 h with rfl | rfl | rfl | rfl <;> decide

theorem isIdentifierPart_of_isGap (h : isGap c = true) : Text.isIdentifierPart c = false := by
  rcases isGap_iff.1 h with rfl | rfl | rfl | rfl <;> decide

theorem isWordPart_of_isGap (h : isGap c = true) : Text.isWordPart c = false := by
  rcases isGap_iff.1 h with rfl | rfl | rfl | rfl <;> decide

end Gaps

namespace Lexeme

/-- Names are not empty and have only characters of their class, and no group is closed early. -/
def WellFormed : Lexeme → Prop
  | bang => True
  | bare name => Text.isIdentifier name.toList = true
  | marked _ name => Text.isWord name.toList = true
  | group interior => ']' ∉ interior.toList

/-- A name does not go on with the text behind it. -/
def EndsBefore : Lexeme → List Char → Prop
  | bang, _ => True
  | bare _, behind => ∀ c ∈ behind.head?, Text.isIdentifierPart c = false
  | marked _ _, behind => ∀ c ∈ behind.head?, Text.isWordPart c = false
  | group _, _ => True

end Lexeme

namespace Sigil

theorem isIdentifierPart_symbol (sigil : Sigil) : Text.isIdentifierPart sigil.symbol = false := by
  cases sigil <;> decide

theorem symbol_ne_bang (sigil : Sigil) : sigil.symbol ≠ '!' := by cases sigil <;> decide

end Sigil

namespace Lexeme

theorem chars_ne_nil {lexeme : Lexeme} (h : lexeme.WellFormed) : lexeme.chars ≠ [] := by
  cases lexeme with
  | bare name => exact ((Text.isIdentifier_iff _).1 h).1
  | bang => exact List.cons_ne_nil _ _
  | marked sigil name => exact List.cons_ne_nil _ _
  | group interior => exact List.cons_ne_nil _ _

theorem EndsBefore.of_append {lexeme : Lexeme} {front behind : List Char}
    (h : lexeme.EndsBefore (front ++ behind)) : lexeme.EndsBefore front := by
  have hhead : ∀ c ∈ front.head?, c ∈ (front ++ behind).head? := by
    intro c hc
    rw [List.head?_append, hc]
    rfl
  cases lexeme with
  | bang => trivial
  | bare name => exact fun c hc => h c (hhead c hc)
  | marked sigil name => exact fun c hc => h c (hhead c hc)
  | group interior => trivial

theorem wellFormed_of_scan {c : Char} {rest behind : List Char} {lexeme : Lexeme}
    (h : scan c rest = .ok (lexeme, behind)) : lexeme.WellFormed ∧ lexeme.EndsBefore behind := by
  unfold scan at h
  split at h
  · cases h
    exact ⟨trivial, trivial⟩
  · split at h
    · next hc =>
      cases h
      refine ⟨?_, Text.head_dropWhile_eq_false rest⟩
      rw [WellFormed, String.toList_ofList, Text.isIdentifier_iff]
      refine ⟨List.cons_ne_nil _ _, ?_⟩
      intro d hd
      rcases List.mem_cons.1 hd with rfl | hd
      · exact hc
      · exact Text.of_mem_takeWhile hd
    · split at h
      · split at h
        · cases h
        · next word hne =>
          cases h
          refine ⟨?_, Text.head_dropWhile_eq_false rest⟩
          rw [WellFormed, String.toList_ofList, Text.isWord_iff]
          exact ⟨hne, fun d hd => Text.of_mem_takeWhile hd⟩
      · split at h
        · split at h
          · cases h
          · cases h
            refine ⟨?_, trivial⟩
            rw [WellFormed, String.toList_ofList]
            intro hmem
            simpa using Text.of_mem_takeWhile hmem
        · cases h

section Scan

variable {behind : List Char}

theorem scan_bare {first : Char} {more : List Char}
    (hall : ∀ d ∈ first :: more, Text.isIdentifierPart d = true)
    (he : ∀ d ∈ behind.head?, Text.isIdentifierPart d = false) :
    scan first (more ++ behind) = .ok (bare (String.ofList (first :: more)), behind) := by
  obtain ⟨hfirst, hmore⟩ := List.forall_mem_cons.1 hall
  have hbang : first ≠ '!' := by
    rintro rfl
    exact absurd hfirst (by decide)
  rw [scan, if_neg hbang, if_pos hfirst, Text.takeWhile_append_of_head hmore he,
    Text.dropWhile_append_of_head hmore he]

theorem scan_marked {sigil : Sigil} {word : List Char} (hne : word ≠ [])
    (hall : ∀ d ∈ word, Text.isWordPart d = true)
    (he : ∀ d ∈ behind.head?, Text.isWordPart d = false) :
    scan sigil.symbol (word ++ behind) = .ok (marked sigil (String.ofList word), behind) := by
  have htake : (word ++ behind).takeWhile Text.isWordPart = word :=
    Text.takeWhile_append_of_head hall he
  rw [scan, if_neg sigil.symbol_ne_bang, if_neg (by simp [sigil.isIdentifierPart_symbol]),
    Sigil.ofSymbol?_symbol]
  split
  · next hs =>
    cases hs
    split
    · next hnil => exact absurd (htake.symm.trans hnil) hne
    · rw [htake, Text.dropWhile_append_of_head hall he]
  · next hs => cases hs

theorem scan_group {interior : List Char} (hclose : ']' ∉ interior) :
    scan '[' (interior ++ ']' :: behind) = .ok (group (String.ofList interior), behind) := by
  have hall : ∀ d ∈ interior, decide (d ≠ ']') = true := by
    intro d hd
    exact decide_eq_true fun heq => hclose (heq ▸ hd)
  have hhead : ∀ d ∈ (']' :: behind).head?, decide (d ≠ ']') = false := by
    intro d hd
    cases hd
    decide
  have hsigil : Sigil.ofSymbol? '[' = none := by decide
  rw [scan, if_neg (by decide), if_neg (by decide), hsigil]
  simp only [if_true]
  rw [Text.dropWhile_append_of_head hall hhead, Text.takeWhile_append_of_head hall hhead]

end Scan

/-- Scanning finds the one lexeme that the text starts with and that ends where it must. -/
theorem scan_eq_ok_iff {c : Char} {rest behind : List Char} {lexeme : Lexeme} :
    scan c rest = .ok (lexeme, behind) ↔
      lexeme.WellFormed ∧ lexeme.EndsBefore behind ∧ lexeme.chars ++ behind = c :: rest := by
  constructor
  · intro h
    exact ⟨(wellFormed_of_scan h).1, (wellFormed_of_scan h).2, chars_append_of_scan h⟩
  · rintro ⟨hw, he, ht⟩
    cases lexeme with
    | bang =>
      obtain ⟨rfl, rfl⟩ := List.cons.inj ht
      simp [scan]
    | bare name =>
      obtain ⟨hne, hall⟩ := (Text.isIdentifier_iff _).1 hw
      obtain ⟨first, more, hname⟩ := List.exists_cons_of_ne_nil hne
      rw [chars, hname, List.cons_append] at ht
      obtain ⟨rfl, rfl⟩ := List.cons.inj ht
      rw [hname] at hall
      rw [scan_bare hall he, ← hname, String.ofList_toList]
    | marked sigil name =>
      obtain ⟨hne, hall⟩ := (Text.isWord_iff _).1 hw
      rw [chars, List.cons_append] at ht
      obtain ⟨rfl, rfl⟩ := List.cons.inj ht
      rw [scan_marked hne hall he, String.ofList_toList]
    | group interior =>
      obtain ⟨rfl, rfl⟩ := List.cons.inj ht
      have hbody : (interior.toList ++ [']']) ++ behind = interior.toList ++ ']' :: behind := by
        simp
      show scan '[' ((interior.toList ++ [']']) ++ behind) = _
      rw [hbody, scan_group hw, String.ofList_toList]

end Lexeme

namespace Token

/-- The texts that spell tokens, the first of them at the offset or behind it. -/
inductive Spells : Nat → List Char → List Token → Prop
  | nil (offset : Nat) : Spells offset [] []
  | gap {offset : Nat} {c : Char} {text : List Char} {found : List Token} (hc : isGap c = true)
      (tail : Spells (offset + 1) text found) : Spells offset (c :: text) found
  | token {offset : Nat} {lexeme : Lexeme} {text : List Char} {found : List Token}
      (wellFormed : lexeme.WellFormed) (ends : lexeme.EndsBefore text)
      (tail : Spells (offset + Text.unitLength lexeme.chars) text found) :
      Spells offset (lexeme.chars ++ text) (⟨lexeme, offset⟩ :: found)

section Steps

variable {offset : Nat} {text behind : List Char} {t : Token}

theorem scan_of_next_none (h : next offset text = .ok none) : scan offset text = .ok [] := by
  rw [scan]
  split <;> simp_all

theorem scan_of_next_some (h : next offset text = .ok (some (t, behind))) :
    scan offset text = (scan (t.offset + t.width) behind).map (t :: ·) := by
  rw [scan]
  split <;> simp_all

theorem scan_of_next_error {fault : QueryFault} (h : next offset text = .error fault) :
    scan offset text = .error fault := by
  rw [scan]
  split <;> simp_all

theorem scan_gap {c : Char} (hc : isGap c = true) :
    scan offset (c :: text) = scan (offset + 1) text := by
  have hnext : next offset (c :: text) = next (offset + 1) text := by rw [next, if_pos hc]
  cases h : next (offset + 1) text with
  | error fault => rw [scan_of_next_error h, scan_of_next_error (hnext.trans h)]
  | ok found =>
    cases found with
    | none => rw [scan_of_next_none h, scan_of_next_none (hnext.trans h)]
    | some found =>
      obtain ⟨t, behind⟩ := found
      rw [scan_of_next_some h, scan_of_next_some (hnext.trans h)]

theorem spells_nil_of_next (h : next offset text = .ok none) : Spells offset text [] := by
  induction text generalizing offset with
  | nil => exact .nil offset
  | cons c rest ih =>
    rw [next] at h
    split at h
    · next hc => exact .gap hc (ih h)
    · split at h <;> cases h

theorem spells_cons_of_next {found : List Token} (h : next offset text = .ok (some (t, behind)))
    (tail : Spells (t.offset + t.width) behind found) : Spells offset text (t :: found) := by
  induction text generalizing offset with
  | nil => cases h
  | cons c rest ih =>
    rw [next] at h
    split at h
    · next hc => exact .gap hc (ih h)
    · split at h
      · next lexeme behind' hs =>
        cases h
        obtain ⟨hw, he, ht⟩ := Lexeme.scan_eq_ok_iff.1 hs
        rw [← ht]
        exact .token hw he tail
      · cases h

theorem isGap_eq_false_of_chars {lexeme : Lexeme} {c : Char} {more : List Char}
    (hw : lexeme.WellFormed) (h : lexeme.chars = c :: more) : isGap c = false := by
  cases lexeme with
  | bang => cases h; decide
  | marked sigil name =>
    cases h
    cases sigil <;> decide
  | group interior => cases h; decide
  | bare name =>
    have hname : name.toList = c :: more := h
    have hc := ((Text.isIdentifier_iff _).1 hw).2 c (by rw [hname]; exact List.mem_cons_self)
    apply Bool.eq_false_iff.2
    intro hgap
    rw [isIdentifierPart_of_isGap hgap] at hc
    cases hc

theorem next_of_spelling {lexeme : Lexeme} (hw : lexeme.WellFormed) (he : lexeme.EndsBefore text) :
    next offset (lexeme.chars ++ text) = .ok (some (⟨lexeme, offset⟩, text)) := by
  obtain ⟨c, more, hchars⟩ := List.exists_cons_of_ne_nil (Lexeme.chars_ne_nil hw)
  have hgap := isGap_eq_false_of_chars hw hchars
  have hscan : Lexeme.scan c (more ++ text) = .ok (lexeme, text) :=
    Lexeme.scan_eq_ok_iff.2 ⟨hw, he, by rw [hchars, List.cons_append]⟩
  rw [hchars, List.cons_append, next, hgap, if_neg Bool.false_ne_true, hscan]

end Steps

/-- The tokens that a scan finds are those that the text spells. -/
theorem scan_eq_ok_iff {offset : Nat} {text : List Char} {found : List Token} :
    scan offset text = .ok found ↔ Spells offset text found := by
  constructor
  · intro h
    fun_induction scan offset text generalizing found with
    | case1 => cases h
    | case2 offset text hnext =>
      cases h
      exact spells_nil_of_next hnext
    | case3 offset text t behind hnext _ ih =>
      match hs : scan (t.offset + t.width) behind with
      | .error fault => rw [hs] at h; cases h
      | .ok more =>
        rw [hs] at h
        cases h
        exact spells_cons_of_next hnext (ih hs)
  · intro h
    induction h with
    | nil offset => exact scan_of_next_none rfl
    | gap hc tail ih => rw [scan_gap hc, ih]
    | token hw he tail ih =>
      rw [scan_of_next_some (next_of_spelling hw he)]
      show (scan _ _).map _ = _
      rw [width, ih]
      rfl

end Token

end VoxelQuery
