import VoxelQuery.Proofs.Query.Segments
import VoxelQuery.Proofs.Success

/-! Flaws that no query has. The grammar says nothing of them, so they are excluded by what holds
from every place of a query on: groups are closed again, and a bang has its term. -/
namespace VoxelQuery

/-- Behind some gaps there is a term. -/
def TermAhead (text : List Char) : Prop :=
  ∃ gaps word behind atom, (∀ c ∈ gaps, isGap c = true) ∧ AtomText word atom ∧
    text = gaps ++ (word ++ behind)

/-- Texts with a bracket that has no partner, a group inside a group, an item without text, or a
bang without its term. An empty group is one empty item. -/
inductive Flawed : List Char → Prop
  | nested {before between behind : List Char} (h : ']' ∉ between) :
      Flawed (before ++ '[' :: (between ++ '[' :: behind))
  | unopened {before behind : List Char} (h : '[' ∉ before) : Flawed (before ++ ']' :: behind)
  | closedTwice {before between behind : List Char} (h : '[' ∉ between) :
      Flawed (before ++ ']' :: (between ++ ']' :: behind))
  | unclosed {before behind : List Char} (h : ']' ∉ behind) : Flawed (before ++ '[' :: behind)
  | emptyItem {before interior behind : List Char} (h : ']' ∉ interior)
      (item : ∃ raw ∈ Text.pieces ',' interior, Text.trimChars raw = []) :
      Flawed (before ++ '[' :: (interior ++ ']' :: behind))
  | bangRepeated {before behind : List Char} : Flawed (before ++ '!' :: '!' :: behind)
  | bangAlone {before behind : List Char} (h : ¬TermAhead behind) : Flawed (before ++ '!' :: behind)

/-- Texts whose groups are closed and have items only, and whose bangs stand before terms. -/
inductive Sound : List Char → Prop
  | nil : Sound []
  | free {c : Char} {rest : List Char} (hopen : c ≠ '[') (hclose : c ≠ ']') (hbang : c ≠ '!')
      (tail : Sound rest) : Sound (c :: rest)
  | group {interior rest : List Char} (hopen : '[' ∉ interior) (hclose : ']' ∉ interior)
      (hbang : '!' ∉ interior) (items : ∀ raw ∈ Text.pieces ',' interior, Text.trimChars raw ≠ [])
      (tail : Sound rest) : Sound ('[' :: (interior ++ ']' :: rest))
  | bang {rest : List Char} (ahead : TermAhead rest) (tail : Sound rest) : Sound ('!' :: rest)

theorem append_cons_eq_append_cons {a b c d : List Char} {x y : Char}
    (h : a ++ x :: b = c ++ y :: d) (hx : x ∉ c) :
    a = c ∧ x = y ∧ b = d ∨ ∃ e, a = c ++ y :: e ∧ d = e ++ x :: b := by
  induction c generalizing a with
  | nil =>
    cases a with
    | nil => exact .inl ⟨rfl, List.cons.inj h⟩
    | cons z more =>
      obtain ⟨rfl, hrest⟩ := List.cons.inj h
      exact .inr ⟨more, rfl, hrest.symm⟩
  | cons z c ih =>
    cases a with
    | nil =>
      obtain ⟨rfl, -⟩ := List.cons.inj h
      exact absurd List.mem_cons_self hx
    | cons w more =>
      obtain ⟨rfl, hrest⟩ := List.cons.inj h
      rcases ih hrest (fun hm => hx (List.mem_cons_of_mem _ hm)) with ⟨rfl, heq⟩ | ⟨e, rfl, hd⟩
      · exact .inl ⟨rfl, heq⟩
      · exact .inr ⟨e, rfl, hd⟩

namespace Sound

section Suffixes

variable {before behind : List Char}

/-- Brackets and bangs do not stand in a group, so what starts with one of them is sound again. -/
theorem of_append {c : Char} (h : Sound (before ++ c :: behind)) (hc : c = '[' ∨ c = '!') :
    Sound (c :: behind) := by
  generalize htext : before ++ c :: behind = text at h
  induction h generalizing before with
  | nil => simp at htext
  | @free d rest hopen hclose hbang tail ih =>
    cases before with
    | nil => rw [List.nil_append] at htext; exact htext ▸ .free hopen hclose hbang tail
    | cons e more => exact ih (List.cons.inj htext).2
  | @group interior rest hopen hclose hbang items tail ih =>
    cases before with
    | nil => rw [List.nil_append] at htext; exact htext ▸ .group hopen hclose hbang items tail
    | cons e more =>
      have hmem : c ∉ interior := by rcases hc with rfl | rfl <;> assumption
      have hne : c ≠ ']' := by rcases hc with rfl | rfl <;> decide
      rcases append_cons_eq_append_cons (List.cons.inj htext).2 hmem with ⟨-, heq, -⟩ | ⟨e, -, he⟩
      · exact absurd heq hne
      · exact ih he.symm
  | @bang rest ahead tail ih =>
    cases before with
    | nil => rw [List.nil_append] at htext; exact htext ▸ .bang ahead tail
    | cons e more => exact ih (List.cons.inj htext).2

theorem opening (h : Sound (before ++ '[' :: behind)) :
    ∃ interior rest, behind = interior ++ ']' :: rest ∧ '[' ∉ interior ∧ ']' ∉ interior ∧
      ∀ raw ∈ Text.pieces ',' interior, Text.trimChars raw ≠ [] := by
  cases h.of_append (.inl rfl) with
  | free hopen hclose hbang tail => exact absurd rfl hopen
  | group hopen hclose hbang items tail => exact ⟨_, _, rfl, hopen, hclose, items⟩

theorem termAhead (h : Sound (before ++ '!' :: behind)) : TermAhead behind := by
  cases h.of_append (.inr rfl) with
  | free hopen hclose hbang tail => exact absurd rfl hbang
  | bang ahead tail => exact ahead

theorem closing (h : Sound (before ++ ']' :: behind)) : '[' ∈ before ∧ Sound behind := by
  generalize htext : before ++ ']' :: behind = text at h
  induction h generalizing before with
  | nil => simp at htext
  | @free d rest hopen hclose hbang tail ih =>
    cases before with
    | nil => exact absurd (List.cons.inj htext).1.symm hclose
    | cons e more =>
      obtain ⟨hmem, hbehind⟩ := ih (List.cons.inj htext).2
      exact ⟨List.mem_cons_of_mem _ hmem, hbehind⟩
  | @group interior rest hopen hclose hbang items tail ih =>
    cases before with
    | nil => exact absurd (List.cons.inj htext).1 (by decide)
    | cons e more =>
      obtain ⟨rfl, hrest⟩ := List.cons.inj htext
      refine ⟨List.mem_cons_self, ?_⟩
      rcases append_cons_eq_append_cons hrest hclose with ⟨-, -, rfl⟩ | ⟨e, -, he⟩
      · exact tail
      · exact (ih he.symm).2
  | @bang rest ahead tail ih =>
    cases before with
    | nil => exact absurd (List.cons.inj htext).1 (by decide)
    | cons e more =>
      obtain ⟨hmem, hbehind⟩ := ih (List.cons.inj htext).2
      exact ⟨List.mem_cons_of_mem _ hmem, hbehind⟩

end Suffixes

theorem append {a b : List Char} (ha : Sound a) (hb : Sound b) : Sound (a ++ b) := by
  induction ha with
  | nil => exact hb
  | free hopen hclose hbang tail ih => exact .free hopen hclose hbang ih
  | @group interior rest hopen hclose hbang items tail ih =>
    have htext : '[' :: (interior ++ ']' :: rest) ++ b = '[' :: (interior ++ ']' :: (rest ++ b)) := by
      simp
    rw [htext]
    exact .group hopen hclose hbang items ih
  | @bang rest ahead tail ih =>
    obtain ⟨gaps, word, behind, atom, hgaps, hword, rfl⟩ := ahead
    refine .bang ⟨gaps, word, behind ++ b, atom, hgaps, hword, ?_⟩ ih
    simp

theorem of_unmarked {text : List Char} (h : ∀ c ∈ text, isMark c = false) : Sound text := by
  induction text with
  | nil => exact nil
  | cons c rest ih =>
    obtain ⟨hc, hrest⟩ := List.forall_mem_cons.1 h
    obtain ⟨-, hopen, hclose, hbang⟩ := isMark_eq_false_iff.1 hc
    exact .free hopen hclose hbang (ih hrest)

end Sound

theorem ItemText.ne_nil {text : List Char} {item : PropertyItem} (h : ItemText text item) :
    text ≠ [] := by
  rintro rfl
  have hread : PropertyItem.parse? "" = some item := PropertyItem.parse?_eq_some_iff.2 h
  have hnone : PropertyItem.parse? "" = none := by cbv
  rw [hnone] at hread
  cases hread

theorem trimChars_ne_nil_of_listed {interior : List Char} {items : List PropertyItem}
    (h : Listed ItemText interior items) :
    ∀ raw ∈ Text.pieces ',' interior, Text.trimChars raw ≠ [] := by
  have hpieces := forall₂_pieces_of_listed (fun raw item => ItemText.comma_notMem_raw) h
  have hread := forall_exists_iff_forall₂.2 ⟨items, hpieces⟩
  intro raw hraw
  obtain ⟨item, hitem⟩ := hread raw hraw
  exact hitem.ne_nil

theorem AtomText.sound {text : List Char} {atom : Atom} (h : AtomText text atom) : Sound text := by
  cases h with
  | bare h =>
    obtain ⟨-, hall⟩ := (Text.isIdentifier_iff _).1 h
    exact Sound.of_unmarked fun c hc => isMark_of_isIdentifierPart (hall c hc)
  | marked sigil h =>
    obtain ⟨-, hall⟩ := (Text.isWord_iff _).1 h
    apply Sound.of_unmarked
    intro c hc
    rcases List.mem_cons.1 hc with rfl | hc
    · exact isMark_symbol sigil
    · exact isMark_of_isIdentifierPart (Text.isIdentifierPart_of_isWordPart (hall c hc))
  | @group interior items opening closing h =>
    have hbang : '!' ∉ interior := fun hc => absurd (isItemPart_of_listed h _ hc) (by decide)
    exact .group opening closing hbang (trimChars_ne_nil_of_listed h) .nil

theorem SegmentText.sound {text : List Char} {terms : List Term} (h : SegmentText text terms) :
    Sound text := by
  induction h with
  | nil => exact .nil
  | @gap c rest terms hc tail ih =>
    have hgap : Sound [c] :=
      Sound.of_unmarked fun d hd => isMark_of_isGap (List.mem_singleton.1 hd ▸ hc)
    exact hgap.append ih
  | plain h longest tail ih => exact h.sound.append ih
  | negated hgaps h longest tail ih =>
    have hsound := Sound.of_unmarked fun c hc => isMark_of_isGap (hgaps c hc)
    exact .bang ⟨_, _, _, _, hgaps, h, rfl⟩ (hsound.append (h.sound.append ih))

theorem SegmentText.sound_raw {raw : List Char} {terms : List Term}
    (h : SegmentText (Text.trimChars raw) terms) : Sound raw := by
  obtain ⟨lead, trail, hlead, htrail, hraw⟩ := Text.exists_blanks_append_trimChars raw
  have hleft := Sound.of_unmarked fun c hc => isMark_of_isBlank (hlead c hc)
  have hright := Sound.of_unmarked fun c hc => isMark_of_isBlank (htrail c hc)
  rw [hraw]
  exact hleft.append (h.sound.append hright)

theorem QueryText.sound {text : List Char} {query : List (List Term)} (h : QueryText text query) :
    Sound text := by
  induction h with
  | last h => exact h.sound_raw
  | more h tail ih => exact h.sound_raw.append (.free (by decide) (by decide) (by decide) ih)

theorem not_termAhead_bang (behind : List Char) : ¬TermAhead ('!' :: behind) := by
  rintro ⟨gaps, word, rest, atom, hgaps, hword, htext⟩
  cases gaps with
  | cons c more =>
    obtain ⟨rfl, -⟩ := List.cons.inj htext
    exact absurd (hgaps _ List.mem_cons_self) (by decide)
  | nil =>
    obtain ⟨lexeme, hw, hread, rfl⟩ := hword.exists_lexeme
    cases hread with
    | bare name =>
      obtain ⟨hne, hall⟩ := (Text.isIdentifier_iff _).1 hw
      obtain ⟨c, more, hname⟩ := List.exists_cons_of_ne_nil hne
      rw [Lexeme.chars, hname] at htext
      obtain ⟨rfl, -⟩ := List.cons.inj htext
      exact absurd (hall _ (hname ▸ List.mem_cons_self)) (by decide)
    | marked sigil name => exact sigil.symbol_ne_bang (List.cons.inj htext).1.symm
    | group h => exact absurd (List.cons.inj htext).1 (by decide)

/-- No query has a flaw. -/
theorem QueryText.not_flawed {text : List Char} {query : List (List Term)}
    (h : QueryText text query) : ¬Flawed text := by
  intro hflawed
  have hsound := h.sound
  cases hflawed with
  | nested hbetween =>
    obtain ⟨interior, rest, htext, hopen, -, -⟩ := hsound.opening
    rcases append_cons_eq_append_cons htext hopen with ⟨-, heq, -⟩ | ⟨e, rfl, -⟩
    · exact absurd heq (by decide)
    · simp at hbetween
  | unopened hbefore => exact hbefore hsound.closing.1
  | closedTwice hbetween => exact hbetween hsound.closing.2.closing.1
  | unclosed hbehind =>
    obtain ⟨interior, rest, rfl, -⟩ := hsound.opening
    simp at hbehind
  | emptyItem hinterior item =>
    obtain ⟨interior, rest, htext, -, hclose, items⟩ := hsound.opening
    obtain ⟨raw, hraw, hempty⟩ := item
    rcases append_cons_eq_append_cons htext hclose with ⟨rfl, -, -⟩ | ⟨e, rfl, -⟩
    · exact items raw hraw hempty
    · simp at hinterior
  | bangRepeated => exact not_termAhead_bang _ hsound.termAhead
  | bangAlone hbehind => exact hbehind hsound.termAhead

end VoxelQuery
