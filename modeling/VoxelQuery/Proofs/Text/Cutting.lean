import VoxelQuery.Text.Blank
import VoxelQuery.Text.Pieces
import VoxelQuery.Text.Word

/-! How texts come apart: at the end of a run of characters of one class, at the blanks around
them, and at a separator. A text put together from such parts is cut into the same parts again. -/
namespace VoxelQuery.Text

section Munch

variable {p : Char → Bool} {word behind : List Char}

theorem takeWhile_append_of_head (hword : ∀ c ∈ word, p c = true)
    (hend : ∀ c ∈ behind.head?, p c = false) : (word ++ behind).takeWhile p = word := by
  have hnil : behind.takeWhile p = [] := by
    cases behind with
    | nil => rfl
    | cons c rest => rw [List.takeWhile_cons, hend c rfl, if_neg Bool.false_ne_true]
  rw [List.takeWhile_append_of_pos hword, hnil, List.append_nil]

theorem dropWhile_append_of_head (hword : ∀ c ∈ word, p c = true)
    (hend : ∀ c ∈ behind.head?, p c = false) : (word ++ behind).dropWhile p = behind := by
  rw [List.dropWhile_append_of_pos hword]
  cases behind with
  | nil => rfl
  | cons c rest => rw [List.dropWhile_cons, hend c rfl, if_neg Bool.false_ne_true]

theorem ne_of_notMem {separator : Char} (h : separator ∉ word) :
    ∀ c ∈ word, decide (c ≠ separator) = true := by
  intro c hc
  rw [decide_eq_true_iff]
  rintro rfl
  exact h hc

/-- A run of a class and what stands behind it are told from their text. -/
theorem append_inj_of_head {other after : List Char} (hword : ∀ c ∈ word, p c = true)
    (hother : ∀ c ∈ other, p c = true) (hend : ∀ c ∈ behind.head?, p c = false)
    (hafter : ∀ c ∈ after.head?, p c = false) (h : word ++ behind = other ++ after) :
    word = other ∧ behind = after := by
  have htake := takeWhile_append_of_head hword hend
  have hdrop := dropWhile_append_of_head hword hend
  rw [h] at htake hdrop
  exact ⟨htake.symm.trans (takeWhile_append_of_head hother hafter),
    hdrop.symm.trans (dropWhile_append_of_head hother hafter)⟩

theorem head_dropWhile_eq_false (text : List Char) :
    ∀ c ∈ (text.dropWhile p).head?, p c = false := by
  intro c hc
  have hnot := List.head?_dropWhile_not p text
  rw [hc] at hnot
  simpa using hnot

theorem of_mem_takeWhile {text : List Char} {c : Char} (h : c ∈ text.takeWhile p) :
    p c = true := List.all_eq_true.1 List.all_takeWhile c h

end Munch

theorem isWord_iff (text : List Char) :
    isWord text = true ↔ text ≠ [] ∧ ∀ c ∈ text, isWordPart c = true := by
  simp [isWord]

theorem notMem_of_isWord {c : Char} (hc : isWordPart c = false) {word : List Char}
    (h : isWord word = true) : c ∉ word := by
  intro hmem
  rw [((isWord_iff word).1 h).2 c hmem] at hc
  cases hc

theorem isIdentifier_iff (text : List Char) :
    isIdentifier text = true ↔ text ≠ [] ∧ ∀ c ∈ text, isIdentifierPart c = true := by
  simp [isIdentifier]

theorem toNat_of_isWordPart {c : Char} (h : isWordPart c = true) :
    48 ≤ c.toNat ∧ c.toNat ≤ 57 ∨ 65 ≤ c.toNat ∧ c.toNat ≤ 90 ∨ c.toNat = 95 ∨
      97 ≤ c.toNat ∧ c.toNat ≤ 122 := by
  have hupper : c.isUpper = decide (65 ≤ c.val ∧ c.val ≤ 90) := rfl
  have hlower : c.isLower = (decide (97 ≤ c.val) && decide (c.val ≤ 122)) := rfl
  have hdigit : c.isDigit = (decide (48 ≤ c.val) && decide (c.val ≤ 57)) := rfl
  have hpart : isWordPart c = (((c.isUpper || c.isLower) || c.isDigit) || c == '_') := rfl
  rw [hpart, hupper, hlower, hdigit] at h
  simp only [Bool.or_eq_true, Bool.and_eq_true, decide_eq_true_eq, beq_iff_eq,
    UInt32.le_iff_toNat_le] at h
  rcases h with ((h | h) | h) | rfl
  · exact .inr (.inl h)
  · exact .inr (.inr (.inr h))
  · exact .inl h
  · decide

/-- The two classes are apart, so blanks around a word cannot run into it. -/
theorem isBlank_eq_false_of_isWordPart {c : Char} (h : isWordPart c = true) :
    isBlank c = false := by
  have hword := toNat_of_isWordPart h
  apply Bool.eq_false_iff.2
  intro hblank
  simp only [isBlank, Bool.or_eq_true, Bool.and_eq_true, decide_eq_true_eq, beq_iff_eq] at hblank
  omega

theorem isBlank_eq_false_of_isIdentifierPart {c : Char} (h : isIdentifierPart c = true) :
    isBlank c = false := by
  rw [isIdentifierPart, Bool.or_eq_true, beq_iff_eq] at h
  rcases h with hword | rfl
  · exact isBlank_eq_false_of_isWordPart hword
  · decide

theorem isWordPart_eq_false_of_isBlank {c : Char} (h : isBlank c = true) :
    isWordPart c = false := by
  apply Bool.eq_false_iff.2
  intro hword
  rw [isBlank_eq_false_of_isWordPart hword] at h
  cases h

theorem trimChars_append_trail (text : List Char) :
    trimChars text ++ ((trimLeft text).reverse.takeWhile isBlank).reverse = trimLeft text := by
  rw [trimChars, trimRight, ← List.reverse_append, List.takeWhile_append_dropWhile,
    List.reverse_reverse]

/-- What trimming takes away are blanks at both ends. -/
theorem exists_blanks_append_trimChars (text : List Char) :
    ∃ lead trail, (∀ c ∈ lead, isBlank c = true) ∧ (∀ c ∈ trail, isBlank c = true) ∧
      text = lead ++ (trimChars text ++ trail) := by
  refine ⟨text.takeWhile isBlank, ((trimLeft text).reverse.takeWhile isBlank).reverse, ?_, ?_, ?_⟩
  · intro c hc
    exact of_mem_takeWhile hc
  · intro c hc
    exact of_mem_takeWhile (List.mem_reverse.1 hc)
  · rw [trimChars_append_trail, trimLeft, List.takeWhile_append_dropWhile]

/-- Only blanks at the ends are taken away. -/
theorem trimChars_eq_self {text : List Char} (hfirst : ∀ c ∈ text.head?, isBlank c = false)
    (hlast : ∀ c ∈ text.reverse.head?, isBlank c = false) : trimChars text = text := by
  have hkeep : ∀ {chars : List Char}, (∀ c ∈ chars.head?, isBlank c = false) →
      chars.dropWhile isBlank = chars :=
    fun hchars => @dropWhile_append_of_head isBlank [] _ (by simp) hchars
  rw [trimChars, trimLeft, hkeep hfirst, trimRight, hkeep hlast, List.reverse_reverse]

theorem trimChars_of_not_blank {text : List Char} (h : ∀ c ∈ text, isBlank c = false) :
    trimChars text = text :=
  trimChars_eq_self (fun c hc => h c (List.mem_of_mem_head? hc))
    fun c hc => h c (List.mem_reverse.1 (List.mem_of_mem_head? hc))

@[simp] theorem trimChars_trimChars (text : List Char) :
    trimChars (trimChars text) = trimChars text := by
  apply trimChars_eq_self
  · intro c hc
    apply head_dropWhile_eq_false text c
    rw [← trimLeft, ← trimChars_append_trail, List.head?_append, hc]
    rfl
  · rw [trimChars, trimRight, List.reverse_reverse]
    exact head_dropWhile_eq_false _

theorem mem_trimChars_of_mem {c : Char} {text : List Char} (h : c ∈ text)
    (hc : isBlank c = false) : c ∈ trimChars text := by
  obtain ⟨lead, trail, hlead, htrail, htext⟩ := exists_blanks_append_trimChars text
  rw [htext, List.mem_append, List.mem_append] at h
  rcases h with h | h | h
  · exact absurd (hlead c h) (by simp [hc])
  · exact h
  · exact absurd (htrail c h) (by simp [hc])

theorem trimLeft_of_blank {text : List Char} (h : ∀ c ∈ text, isBlank c = true) :
    trimLeft text = [] := by
  have hdrop := @dropWhile_append_of_head isBlank text [] h (by simp)
  rwa [List.append_nil] at hdrop

theorem trimRight_of_blank {text : List Char} (h : ∀ c ∈ text, isBlank c = true) :
    trimRight text = [] := by
  have hleft := trimLeft_of_blank fun c hc => h c (List.mem_reverse.1 hc)
  rw [trimRight, ← trimLeft, hleft, List.reverse_nil]

theorem trimChars_eq_nil_iff {text : List Char} :
    trimChars text = [] ↔ ∀ c ∈ text, isBlank c = true := by
  constructor
  · intro h c hc
    cases hblank : isBlank c with
    | true => rfl
    | false =>
      have hmem := mem_trimChars_of_mem hc hblank
      rw [h] at hmem
      cases hmem
  · intro h
    rw [trimChars, trimLeft_of_blank h]
    rfl

/-- A text without the character is the front of any text that has it later on. -/
theorem exists_append_of_notMem {u rest front behind : List Char} {c : Char} (hc : c ∉ u)
    (h : u ++ rest = front ++ c :: behind) :
    ∃ front', front = u ++ front' ∧ rest = front' ++ c :: behind := by
  rcases List.append_eq_append_iff.1 h with ⟨front', hfront, hrest⟩ | ⟨more, hu, hmore⟩
  · exact ⟨front', hfront, hrest⟩
  · cases more with
    | nil => exact ⟨[], by simpa using hu.symm, by simpa using hmore.symm⟩
    | cons d _ =>
      obtain ⟨rfl, -⟩ := List.cons.inj hmore
      simp [hu] at hc

section Trim

variable {c : Char}

theorem trimLeft_append (a b : List Char) :
    trimLeft (a ++ b) = if trimLeft a = [] then trimLeft b else trimLeft a ++ b := by
  rw [trimLeft, List.dropWhile_append]
  split
  · next h => rw [trimLeft, if_pos (List.isEmpty_iff.1 h), trimLeft]
  · next h => rw [trimLeft, if_neg (fun hnil => h (List.isEmpty_iff.2 hnil))]

theorem trimLeft_append_cons (hc : isBlank c = false) (a b : List Char) :
    trimLeft (a ++ c :: b) = trimLeft a ++ c :: b := by
  have hcons : trimLeft (c :: b) = c :: b := by simp [trimLeft, hc]
  rw [trimLeft_append, hcons]
  split
  · next h => rw [h, List.nil_append]
  · rfl

theorem trimRight_append (a b : List Char) :
    trimRight (a ++ b) = if trimRight b = [] then trimRight a else a ++ trimRight b := by
  have hempty : (b.reverse.dropWhile isBlank).isEmpty = true ↔ trimRight b = [] := by
    rw [trimRight, List.reverse_eq_nil_iff, List.isEmpty_iff]
  rw [trimRight, List.reverse_append, List.dropWhile_append]
  split
  · next h => rw [if_pos (hempty.1 h), trimRight]
  · next h =>
    rw [if_neg (fun hnil => h (hempty.2 hnil)), List.reverse_append, List.reverse_reverse,
      trimRight]

theorem trimRight_cons (c : Char) (b : List Char) :
    trimRight (c :: b) = if isBlank c = true ∧ trimRight b = [] then [] else c :: trimRight b := by
  have hsplit := trimRight_append [c] b
  rw [List.singleton_append] at hsplit
  rw [hsplit]
  by_cases hb : trimRight b = []
  · rw [if_pos hb, hb]
    cases hc : isBlank c <;> simp [trimRight, hc]
  · rw [if_neg hb, if_neg (fun h => hb h.2), List.singleton_append]

theorem trimRight_append_cons (hc : isBlank c = false) (a b : List Char) :
    trimRight (a ++ c :: b) = a ++ c :: trimRight b := by
  have hcons : trimRight (c :: b) = c :: trimRight b := by simp [trimRight_cons, hc]
  rw [trimRight_append, hcons, if_neg (List.cons_ne_nil _ _)]

/-- A blank more is taken off, or it stands between two characters that are kept. -/
theorem trimChars_insert (hc : isBlank c = true) (a b : List Char) :
    trimChars (a ++ c :: b) = trimChars (a ++ b) ∨
      trimLeft a ≠ [] ∧ trimChars (a ++ b) = trimLeft a ++ trimRight b ∧
        trimChars (a ++ c :: b) = trimLeft a ++ c :: trimRight b := by
  have hleft : trimLeft (c :: b) = trimLeft b := by simp [trimLeft, hc]
  simp only [trimChars, trimLeft_append, hleft]
  by_cases ha : trimLeft a = []
  · simp [ha]
  · by_cases hb : trimRight b = []
    · simp [ha, hb, hc, trimRight_append, trimRight_cons]
    · simp [ha, hb, trimRight_append, trimRight_cons]

end Trim

section Blanks

variable {blanks : List Char} (h : ∀ c ∈ blanks, isBlank c = true) (text : List Char)
include h

theorem trimChars_blanks_append : trimChars (blanks ++ text) = trimChars text := by
  rw [trimChars, trimLeft_append, if_pos (trimLeft_of_blank h), trimChars]

theorem trimChars_append_blanks : trimChars (text ++ blanks) = trimChars text := by
  rw [trimChars, trimLeft_append, trimLeft_of_blank h]
  split
  · next htext => rw [trimChars, htext]
  · rw [trimRight_append, if_pos (trimRight_of_blank h), trimChars]

end Blanks

section Separator

variable {separator : Char} {piece : List Char}

theorem pieces_of_notMem (h : separator ∉ piece) : pieces separator piece = [piece] := by
  induction piece with
  | nil => rfl
  | cons c rest ih =>
    have hc : c ≠ separator := fun heq => h (heq ▸ List.mem_cons_self)
    have hrest : separator ∉ rest := fun hmem => h (List.mem_cons_of_mem _ hmem)
    rw [pieces, if_neg hc, ih hrest, extendFirst]

theorem pieces_append_separator (h : separator ∉ piece) (rest : List Char) :
    pieces separator (piece ++ separator :: rest) = piece :: pieces separator rest := by
  induction piece with
  | nil => rw [List.nil_append, pieces, if_pos rfl]
  | cons c more ih =>
    have hc : c ≠ separator := fun heq => h (heq ▸ List.mem_cons_self)
    have hmore : separator ∉ more := fun hmem => h (List.mem_cons_of_mem _ hmem)
    rw [List.cons_append, pieces, if_neg hc, ih hmore, extendFirst]

/-- Cutting undoes joining. -/
theorem pieces_joinWith {parts : List (List Char)} (hne : parts ≠ [])
    (h : ∀ part ∈ parts, separator ∉ part) : pieces separator (joinWith separator parts) = parts := by
  induction parts with
  | nil => exact absurd rfl hne
  | cons first rest ih =>
    have hfirst := h first List.mem_cons_self
    cases rest with
    | nil => exact pieces_of_notMem hfirst
    | cons second more =>
      rw [joinWith, pieces_append_separator hfirst,
        ih (List.cons_ne_nil _ _) fun part hp => h part (List.mem_cons_of_mem _ hp)]
      exact List.cons_ne_nil _ _

/-- Each piece but the first has a separator in front. -/
theorem joinWith_cons (first : List Char) (rest : List (List Char)) :
    joinWith separator (first :: rest) = first ++ rest.flatMap (separator :: ·) := by
  induction rest generalizing first with
  | nil => simp [joinWith]
  | cons second more ih =>
    rw [joinWith, ih, List.flatMap_cons, List.cons_append]
    exact List.cons_ne_nil _ _

theorem joinWith_append {front : List (List Char)} (hne : front ≠ []) (behind : List (List Char)) :
    joinWith separator (front ++ behind) =
      joinWith separator front ++ behind.flatMap (separator :: ·) := by
  obtain ⟨first, rest, rfl⟩ := List.exists_cons_of_ne_nil hne
  simp [joinWith_cons]

theorem joinWith_concat {parts : List (List Char)} (hne : parts ≠ []) (part : List Char) :
    joinWith separator (parts ++ [part]) = joinWith separator parts ++ separator :: part := by
  rw [joinWith_append hne, List.flatMap_singleton]

/-- What is written behind the joined pieces is written behind the last one. -/
theorem joinWith_concat_append (front : List (List Char)) (last more : List Char) :
    joinWith separator (front ++ [last ++ more]) = joinWith separator (front ++ [last]) ++ more := by
  cases front with
  | nil => rfl
  | cons first rest => simp [joinWith_cons]

theorem mem_of_mem_pieces {c : Char} {text : List Char} (hpiece : piece ∈ pieces separator text)
    (hc : c ∈ piece) : c ∈ text := by
  obtain ⟨first, rest, hpieces⟩ := List.exists_cons_of_ne_nil (pieces_ne_nil separator text)
  rw [← joinWith_pieces separator text, hpieces, joinWith_cons, List.mem_append, List.mem_flatMap]
  rw [hpieces] at hpiece
  rcases List.mem_cons.1 hpiece with rfl | hrest
  · exact .inl hc
  · exact .inr ⟨piece, hrest, List.mem_cons_of_mem _ hc⟩

theorem notMem_joinWith {c : Char} (hc : c ≠ separator) {parts : List (List Char)}
    (h : ∀ part ∈ parts, c ∉ part) : c ∉ joinWith separator parts := by
  induction parts with
  | nil => simp [joinWith]
  | cons first rest ih =>
    obtain ⟨hfirst, hrest⟩ := List.forall_mem_cons.1 h
    cases rest with
    | nil => exact hfirst
    | cons second more => simpa [joinWith, hfirst, hc] using ih hrest

theorem intercalate_eq_joinWith (separator : Char) (parts : List (List Char)) :
    [separator].intercalate parts = joinWith separator parts := by
  induction parts with
  | nil => rfl
  | cons first rest ih =>
    cases rest with
    | nil => simp [List.intercalate, joinWith]
    | cons second more =>
      rw [joinWith, ← ih]
      · simp [List.intercalate]
      · exact List.cons_ne_nil _ _

end Separator

end VoxelQuery.Text
