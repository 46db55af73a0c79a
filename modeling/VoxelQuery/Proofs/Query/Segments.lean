import VoxelQuery.Proofs.Query.Terms

/-! Cutting at depth zero against the grammar. The count of brackets goes wrong on some texts, but
every text of the grammar is cut where the grammar has its commas. -/
namespace VoxelQuery

/-- Characters with a part in how segments, groups and negations are set off. -/
def isMark (c : Char) : Bool := c == ',' || c == '[' || c == ']' || c == '!'

section Marks

variable {c : Char}

theorem isMark_eq_false_iff : isMark c = false ↔ c ≠ ',' ∧ c ≠ '[' ∧ c ≠ ']' ∧ c ≠ '!' := by
  simp [isMark, and_assoc]

/-- A class of characters without these four has no marks. -/
theorem isMark_of_class {p : Char → Bool} (h : p c = true)
    (hp : p ',' = false ∧ p '[' = false ∧ p ']' = false ∧ p '!' = false) : isMark c = false := by
  obtain ⟨hcomma, hopen, hclose, hbang⟩ := hp
  rw [isMark_eq_false_iff]
  refine ⟨?_, ?_, ?_, ?_⟩ <;> rintro rfl <;> simp_all

theorem isMark_of_isIdentifierPart (h : Text.isIdentifierPart c = true) : isMark c = false :=
  isMark_of_class h (by decide)

theorem isMark_of_isBlank (h : Text.isBlank c = true) : isMark c = false :=
  isMark_of_class h (by decide)

theorem isMark_of_isGap (h : isGap c = true) : isMark c = false :=
  isMark_of_class h (by decide)

theorem isMark_symbol (sigil : Sigil) : isMark sigil.symbol = false := by cases sigil <;> decide

theorem depthAfter_of_unmarked {depth : Nat} (h : isMark c = false) : depthAfter depth c = depth := by
  obtain ⟨-, hopen, hclose, -⟩ := isMark_eq_false_iff.1 h
  rw [depthAfter, if_neg hopen, if_neg hclose]

end Marks

/-- A piece that is never cut, and behind which the depth is what it was. -/
def Closed (piece : List Char) : Prop :=
  ∀ rest, cutSegments 0 (piece ++ rest) = piece.foldr Text.extendFirst (cutSegments 0 rest)

namespace Closed

theorem nil : Closed [] := fun _ => rfl

theorem append {a b : List Char} (ha : Closed a) (hb : Closed b) : Closed (a ++ b) := by
  intro rest
  rw [List.append_assoc, ha, hb, List.foldr_append]

theorem cons {c : Char} {more : List Char} (hcomma : c ≠ ',') (hopen : c ≠ '[') (hclose : c ≠ ']')
    (h : Closed more) : Closed (c :: more) := by
  intro rest
  have hdepth : depthAfter 0 c = 0 := by rw [depthAfter, if_neg hopen, if_neg hclose]
  rw [List.cons_append, cutSegments, if_neg (fun hcut => hcomma hcut.1), hdepth, h,
    List.foldr_cons]

theorem of_unmarked {piece : List Char} (h : ∀ c ∈ piece, isMark c = false) : Closed piece := by
  induction piece with
  | nil => exact nil
  | cons c more ih =>
    obtain ⟨hc, hmore⟩ := List.forall_mem_cons.1 h
    obtain ⟨hcomma, hopen, hclose, -⟩ := isMark_eq_false_iff.1 hc
    exact (ih hmore).cons hcomma hopen hclose

/-- Inside a group the depth is one up to its end, so its commas are left alone. -/
theorem cutSegments_interior {interior : List Char} (hopen : '[' ∉ interior) (hclose : ']' ∉ interior)
    (rest : List Char) :
    cutSegments 1 (interior ++ ']' :: rest) =
      interior.foldr Text.extendFirst (Text.extendFirst ']' (cutSegments 0 rest)) := by
  induction interior with
  | nil => rfl
  | cons c more ih =>
    have hc : c ≠ '[' := fun heq => hopen (heq ▸ List.mem_cons_self)
    have hc' : c ≠ ']' := fun heq => hclose (heq ▸ List.mem_cons_self)
    have hdepth : depthAfter 1 c = 1 := by rw [depthAfter, if_neg hc, if_neg hc']
    rw [List.cons_append, cutSegments, if_neg (fun hcut => absurd hcut.2 (by decide)), hdepth,
      ih (fun hm => hopen (List.mem_cons_of_mem _ hm))
        (fun hm => hclose (List.mem_cons_of_mem _ hm)), List.foldr_cons]

theorem group {interior : List Char} (hopen : '[' ∉ interior) (hclose : ']' ∉ interior) :
    Closed ('[' :: (interior ++ [']'])) := by
  intro rest
  have htext : '[' :: (interior ++ [']']) ++ rest = '[' :: (interior ++ ']' :: rest) := by simp
  rw [htext, cutSegments, if_neg (fun hcut => absurd hcut.2.symm (by simp at hcut))]
  show Text.extendFirst '[' (cutSegments 1 (interior ++ ']' :: rest)) = _
  rw [cutSegments_interior hopen hclose, List.foldr_cons, List.foldr_append]
  rfl

theorem foldr_extendFirst (piece first : List Char) (more : List (List Char)) :
    piece.foldr Text.extendFirst (first :: more) = (piece ++ first) :: more := by
  induction piece with
  | nil => rfl
  | cons c rest ih => rw [List.foldr_cons, ih, Text.extendFirst, List.cons_append]

theorem cutSegments_self {piece : List Char} (h : Closed piece) : cutSegments 0 piece = [piece] := by
  have hpiece := h []
  rwa [List.append_nil, cutSegments, foldr_extendFirst, List.append_nil] at hpiece

theorem cutSegments_comma {piece : List Char} (h : Closed piece) (rest : List Char) :
    cutSegments 0 (piece ++ ',' :: rest) = piece :: cutSegments 0 rest := by
  rw [h, cutSegments, if_pos ⟨rfl, rfl⟩, foldr_extendFirst, List.append_nil]

end Closed

theorem AtomText.closed {text : List Char} {atom : Atom} (h : AtomText text atom) :
    Closed text := by
  cases h with
  | bare h =>
    obtain ⟨-, hall⟩ := (Text.isIdentifier_iff _).1 h
    exact Closed.of_unmarked fun c hc => isMark_of_isIdentifierPart (hall c hc)
  | marked sigil h =>
    obtain ⟨-, hall⟩ := (Text.isWord_iff _).1 h
    apply Closed.of_unmarked
    intro c hc
    rcases List.mem_cons.1 hc with rfl | hc
    · exact isMark_symbol sigil
    · exact isMark_of_isIdentifierPart (Text.isIdentifierPart_of_isWordPart (hall c hc))
  | group opening closing h => exact Closed.group opening closing

theorem SegmentText.closed {text : List Char} {terms : List Term} (h : SegmentText text terms) :
    Closed text := by
  induction h with
  | nil => exact Closed.nil
  | @gap c rest terms hc tail ih =>
    have hgap : Closed [c] :=
      Closed.of_unmarked fun d hd => isMark_of_isGap (List.mem_singleton.1 hd ▸ hc)
    exact hgap.append ih
  | plain h longest tail ih => exact h.closed.append ih
  | negated hgaps h longest tail ih =>
    have hgaps := Closed.of_unmarked fun c hc => isMark_of_isGap (hgaps c hc)
    exact (hgaps.append (h.closed.append ih)).cons (by decide) (by decide) (by decide)

theorem SegmentText.closed_raw {raw : List Char} {terms : List Term}
    (h : SegmentText (Text.trimChars raw) terms) : Closed raw := by
  obtain ⟨lead, trail, hlead, htrail, hraw⟩ := Text.exists_blanks_append_trimChars raw
  have hleft := Closed.of_unmarked fun c hc => isMark_of_isBlank (hlead c hc)
  have hright := Closed.of_unmarked fun c hc => isMark_of_isBlank (htrail c hc)
  rw [hraw]
  exact hleft.append (h.closed.append hright)

/-- The grammar over the whole text agrees with the grammar of each cut. -/
theorem queryText_iff {text : List Char} {query : List (List Term)} :
    QueryText text query ↔
      List.Forall₂ (fun raw terms => SegmentText (Text.trimChars raw) terms)
        (cutSegments 0 text) query := by
  constructor
  · intro h
    induction h with
    | last h =>
      rw [h.closed_raw.cutSegments_self]
      exact .cons h .nil
    | more h tail ih =>
      rw [h.closed_raw.cutSegments_comma]
      exact .cons h ih
  · intro h
    rw [← joinWith_cutSegments 0 text]
    exact listed_joinWith (cutSegments_ne_nil 0 text) h

theorem QueryText.unique {text : List Char} {a b : List (List Term)} (ha : QueryText text a)
    (hb : QueryText text b) : a = b := by
  have hright : Relator.RightUnique
      (fun raw terms => SegmentText (Text.trimChars raw) terms) :=
    fun raw x y hx hy => hx.unique hy
  exact hright.forall₂ (queryText_iff.1 ha) (queryText_iff.1 hb)

/-- What is dropped are empty pieces only. -/
theorem exists_dropTrailingEmpty_append (l : List (List Char)) :
    ∃ n, dropTrailingEmpty l ++ List.replicate n [] = l := by
  cases l with
  | nil => exact ⟨0, rfl⟩
  | cons first rest =>
    have hempty : ∀ piece ∈ rest.reverse.takeWhile List.isEmpty, piece = [] := by
      intro piece hpiece
      exact List.isEmpty_iff.1 (List.all_eq_true.1 List.all_takeWhile piece hpiece)
    have hsplit := congrArg List.reverse
      (List.takeWhile_append_dropWhile (p := List.isEmpty) (l := rest.reverse))
    rw [List.reverse_append, List.reverse_reverse, List.eq_replicate_of_mem hempty,
      List.reverse_replicate] at hsplit
    refine ⟨(rest.reverse.takeWhile List.isEmpty).length, ?_⟩
    rw [dropTrailingEmpty, List.cons_append, hsplit]

theorem mem_of_mem_dropTrailingEmpty {l : List (List Char)} {piece : List Char}
    (h : piece ∈ dropTrailingEmpty l) : piece ∈ l := by
  obtain ⟨n, hl⟩ := exists_dropTrailingEmpty_append l
  rw [← hl]
  exact List.mem_append_left _ h

theorem mem_dropTrailingEmpty_or_eq_nil {l : List (List Char)} {piece : List Char} (h : piece ∈ l) :
    piece ∈ dropTrailingEmpty l ∨ piece = [] := by
  obtain ⟨n, hl⟩ := exists_dropTrailingEmpty_append l
  rw [← hl] at h
  exact (List.mem_append.1 h).imp id List.eq_of_mem_replicate

/-- Of the cuts, segments leave out only empty ones. -/
theorem forall_segments_iff {text : String} {P : String → Prop} (hempty : P "") :
    (∀ segment ∈ segments text, P segment) ↔
      ∀ raw ∈ cutSegments 0 text.toList, P (String.ofList (Text.trimChars raw)) := by
  rw [segments, List.forall_mem_map]
  constructor
  · intro h raw hraw
    rcases mem_dropTrailingEmpty_or_eq_nil (List.mem_map_of_mem hraw) with hkept | hnil
    · exact h _ hkept
    · rw [hnil]
      exact hempty
  · intro h piece hpiece
    obtain ⟨raw, hraw, rfl⟩ := List.mem_map.1 (mem_of_mem_dropTrailingEmpty hpiece)
    exact h raw hraw

theorem segments_of_closed {text : String} (hclosed : Closed text.toList)
    (hblank : ∀ c ∈ text.toList, Text.isBlank c = false) : segments text = [text] := by
  rw [segments, segmentChars, hclosed.cutSegments_self, List.map_singleton,
    Text.trimChars_of_not_blank hblank]
  show [String.ofList text.toList] = [text]
  rw [String.ofList_toList]

end VoxelQuery
