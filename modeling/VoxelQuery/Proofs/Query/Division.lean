import VoxelQuery.Proofs.Query.Composition
import VoxelQuery.Proofs.Query.Recutting

/-! What the segments of a text are, said without cutting it. They are the parts that commas at depth
zero set off, without the blanks around them and without the empty ones at the end. Every text has
exactly one such list of parts, whatever its brackets are, and the parts joined by commas have the
same list. -/
namespace VoxelQuery

/-- The part stands in the text between blanks. -/
def Text.Pads (text part : List Char) : Prop :=
  ∃ lead trail, (∀ c ∈ lead, isBlank c = true) ∧ (∀ c ∈ trail, isBlank c = true) ∧
    text = lead ++ (part ++ trail)

/-- The parts of a text between its commas at depth zero. -/
structure Divides (text : List Char) (parts : List (List Char)) : Prop where
  nonempty : parts ≠ []
  trimmed : ∀ part ∈ parts, Text.trimChars part = part
  /-- A comma of a part stands inside brackets. -/
  sheltered : ∀ part ∈ parts, ∀ front behind, part = front ++ ',' :: behind →
    depthBehind 0 front ≠ 0
  /-- Only the last part can leave a bracket open. -/
  closed : ∀ part ∈ parts.dropLast, depthBehind 0 part = 0
  full : 1 < parts.length → parts.getLast? ≠ some []
  /-- The text is made of its parts, blanks and commas. If the last part leaves a bracket open,
  a comma behind it would belong to it. -/
  whole : ∃ padded rest, List.Forall₂ Text.Pads padded parts ∧
    text = Text.joinWith ',' padded ++ rest ∧ (∀ c ∈ rest, c = ',' ∨ Text.isBlank c = true) ∧
    (',' ∈ rest → ∀ part ∈ parts, depthBehind 0 part = 0)

section Depth

variable {depth : Nat} {text a b : List Char}

theorem depthBehind_append : depthBehind depth (a ++ b) = depthBehind (depthBehind depth a) b :=
  List.foldl_append

theorem depthBehind_of_blank (h : ∀ c ∈ text, Text.isBlank c = true) :
    depthBehind depth text = depth := by
  induction text with
  | nil => rfl
  | cons c rest ih =>
    obtain ⟨hc, hrest⟩ := List.forall_mem_cons.1 h
    calc depthBehind depth (c :: rest) = depthBehind (depthAfter depth c) rest := rfl
      _ = depth := by rw [depthAfter_of_unmarked (isMark_of_isBlank hc), ih hrest]

/-- A text is not cut if and only if each of its commas stands inside brackets. -/
theorem uncut_iff :
    Uncut depth text ↔
      ∀ front behind, text = front ++ ',' :: behind → depthBehind depth front ≠ 0 := by
  induction text generalizing depth with
  | nil => simp [Uncut, cutSegments]
  | cons c rest ih =>
    rw [uncut_cons_iff, ih]
    constructor
    · rintro ⟨hcomma, hrest⟩ front behind htext
      cases front with
      | nil =>
        obtain ⟨rfl, -⟩ := List.cons.inj htext
        exact fun hdepth => hcomma ⟨rfl, hdepth⟩
      | cons d front =>
        obtain ⟨rfl, htail⟩ := List.cons.inj htext
        exact hrest front behind htail
    · intro h
      constructor
      · rintro ⟨rfl, hdepth⟩
        exact h [] rest rfl hdepth
      · intro front behind htext
        exact h (c :: front) behind (congrArg (c :: ·) htext)

theorem uncut_of_blank (h : ∀ c ∈ text, Text.isBlank c = true) : Uncut depth text := by
  apply uncut_iff.2
  rintro front behind rfl
  have hcomma := h ',' (List.mem_append_right _ List.mem_cons_self)
  exact absurd hcomma (by decide)

theorem Uncut.append (ha : Uncut depth a) (hb : Uncut (depthBehind depth a) b) :
    Uncut depth (a ++ b) := by
  induction a generalizing depth with
  | nil => exact hb
  | cons c rest ih =>
    obtain ⟨hcomma, hrest⟩ := uncut_cons_iff.1 ha
    exact uncut_cons_iff.2 ⟨hcomma, ih hrest hb⟩

end Depth

namespace Text.Pads

variable {depth : Nat} {text part : List Char}

theorem refl (text : List Char) : Pads text text := ⟨[], [], by simp, by simp, by simp⟩

theorem trim (text : List Char) : Pads text (trimChars text) := exists_blanks_append_trimChars text

theorem trimChars_eq (h : Pads text part) : trimChars text = trimChars part := by
  obtain ⟨lead, trail, hlead, htrail, rfl⟩ := h
  rw [trimChars_blanks_append hlead, trimChars_append_blanks htrail]

theorem depthBehind_eq (h : Pads text part) : depthBehind depth text = depthBehind depth part := by
  obtain ⟨lead, trail, hlead, htrail, rfl⟩ := h
  rw [depthBehind_append, depthBehind_append, depthBehind_of_blank hlead,
    depthBehind_of_blank htrail]

theorem uncut (h : Pads text part) (hpart : Uncut depth part) : Uncut depth text := by
  obtain ⟨lead, trail, hlead, htrail, rfl⟩ := h
  refine (uncut_of_blank hlead).append ?_
  rw [depthBehind_of_blank hlead]
  exact hpart.append (uncut_of_blank htrail)

end Text.Pads

section Cuts

variable {depth : Nat} {text piece first : List Char} {pieces rest : List (List Char)}

/-- A cut is made at depth zero only, so each piece but the last one ends there. -/
theorem closed_of_cutSegments (h : cutSegments depth text = first :: rest) :
    (rest ≠ [] → depthBehind depth first = 0) ∧
      ∀ piece ∈ rest.dropLast, depthBehind 0 piece = 0 := by
  induction text generalizing depth first rest with
  | nil =>
    cases h
    simp
  | cons c more ih =>
    rw [cutSegments] at h
    split at h
    · next hcut =>
      cases h
      obtain ⟨second, later, hpieces⟩ := List.exists_cons_of_ne_nil (cutSegments_ne_nil 0 more)
      obtain ⟨hsecond, hlater⟩ := ih hpieces
      refine ⟨fun _ => hcut.2, ?_⟩
      rw [hpieces]
      cases later with
      | nil => simp
      | cons third later =>
        exact List.forall_mem_cons.2 ⟨hsecond (List.cons_ne_nil _ _), hlater⟩
    · obtain ⟨piece, later, hpieces⟩ :=
        List.exists_cons_of_ne_nil (cutSegments_ne_nil (depthAfter depth c) more)
      -- The first piece has the character in front, which counts for the depth behind it as well.
      have htail := ih hpieces
      rw [hpieces] at h
      cases h
      exact htail

theorem depthBehind_of_mem_dropLast (h : piece ∈ (cutSegments 0 text).dropLast) :
    depthBehind 0 piece = 0 := by
  obtain ⟨first, rest, hpieces⟩ := List.exists_cons_of_ne_nil (cutSegments_ne_nil 0 text)
  obtain ⟨hfirst, hrest⟩ := closed_of_cutSegments hpieces
  rw [hpieces] at h
  cases rest with
  | nil => cases h
  | cons second more =>
    rw [List.dropLast_cons_of_ne_nil (List.cons_ne_nil _ _), List.mem_cons] at h
    rcases h with rfl | h
    · exact hfirst (List.cons_ne_nil _ _)
    · exact hrest piece h

/-- Cutting undoes joining, if the commas that join are the only ones at depth zero. -/
theorem cutSegments_joinWith_of_uncut (hne : pieces ≠ []) (huncut : ∀ piece ∈ pieces, Uncut 0 piece)
    (hclosed : ∀ piece ∈ pieces.dropLast, depthBehind 0 piece = 0) :
    cutSegments 0 (Text.joinWith ',' pieces) = pieces := by
  induction pieces with
  | nil => exact absurd rfl hne
  | cons first rest ih =>
    obtain ⟨hfirst, hrest⟩ := List.forall_mem_cons.1 huncut
    cases rest with
    | nil => exact hfirst
    | cons second more =>
      obtain ⟨hdepth, hmore⟩ := List.forall_mem_cons.1 hclosed
      have htail := ih (List.cons_ne_nil _ _) hrest hmore
      rw [Text.joinWith, cutSegments_append_comma hdepth, hfirst, htail, List.singleton_append]
      exact List.cons_ne_nil _ _

theorem Closed.uncut (h : Closed piece) : Uncut 0 piece := h.cutSegments_self

theorem Closed.depthBehind_eq (h : Closed piece) : depthBehind 0 piece = 0 :=
  (closed_of_cutSegments (h.cutSegments_comma [])).1 (List.cons_ne_nil _ _)

end Cuts

section TrailingEmpty

variable {l : List (List Char)}

/-- An empty piece is the last one only if it is alone. -/
theorem getLast?_dropTrailingEmpty (h : 1 < (dropTrailingEmpty l).length) :
    (dropTrailingEmpty l).getLast? ≠ some [] := by
  cases l with
  | nil => simp [dropTrailingEmpty] at h
  | cons first rest =>
    have hhead := List.head?_dropWhile_not List.isEmpty rest.reverse
    rw [dropTrailingEmpty] at h ⊢
    cases hkept : rest.reverse.dropWhile List.isEmpty with
    | nil => simp [hkept] at h
    | cons last front =>
      rw [hkept] at hhead
      rw [List.reverse_cons, ← List.cons_append, List.getLast?_concat]
      simpa using hhead

theorem dropTrailingEmpty_append (hne : l ≠ []) (hlast : 1 < l.length → l.getLast? ≠ some [])
    (n : Nat) : dropTrailingEmpty (l ++ List.replicate n []) = l := by
  obtain ⟨front, last, rfl⟩ := (List.eq_nil_or_concat' l).resolve_left hne
  by_cases hempty : last = []
  -- An empty piece at the end is alone, and the first piece is never dropped.
  · cases front with
    | nil => simp [dropTrailingEmpty]
    | cons first rest =>
      refine absurd ?_ (hlast (by simp))
      rw [hempty, List.getLast?_concat]
  · rw [List.append_assoc]
    exact dropTrailingEmpty_append_replicate front hempty n

end TrailingEmpty

section Kept

variable {text : List Char} {parts kept dropped : List (List Char)}

theorem exists_kept (text : List Char) :
    ∃ kept dropped, cutSegments 0 text = kept ++ dropped ∧
      kept.map Text.trimChars = segmentChars text ∧
      ∀ piece ∈ dropped, ∀ c ∈ piece, Text.isBlank c = true := by
  obtain ⟨n, hpieces⟩ := exists_dropTrailingEmpty_append ((cutSegments 0 text).map Text.trimChars)
  obtain ⟨kept, dropped, hcuts, hkept, hdropped⟩ := List.map_eq_append_iff.1 hpieces.symm
  refine ⟨kept, dropped, hcuts, hkept, fun piece hpiece => ?_⟩
  apply Text.trimChars_eq_nil_iff.1
  apply List.eq_of_mem_replicate (n := n)
  rw [← hdropped]
  exact List.mem_map_of_mem hpiece

/-- If pieces are dropped, the last one that is kept is not the last one of the text. -/
theorem closed_of_kept (h : cutSegments 0 text = kept ++ dropped) :
    (∀ piece ∈ kept.dropLast, depthBehind 0 piece = 0) ∧
      (dropped ≠ [] → ∀ piece ∈ kept, depthBehind 0 piece = 0) := by
  have hclosed : ∀ piece ∈ (kept ++ dropped).dropLast, depthBehind 0 piece = 0 := by
    rw [← h]
    exact fun piece => depthBehind_of_mem_dropLast
  constructor
  · intro piece hpiece
    apply hclosed
    rw [List.dropLast_append]
    split
    · exact hpiece
    · exact List.mem_append_left _ (List.mem_of_mem_dropLast hpiece)
  · intro hsome piece hpiece
    apply hclosed
    rw [List.dropLast_append_of_ne_nil hsome]
    exact List.mem_append_left _ hpiece

theorem divides_of_kept (hcuts : cutSegments 0 text = kept ++ dropped)
    (hkept : kept.map Text.trimChars = segmentChars text)
    (hdropped : ∀ piece ∈ dropped, ∀ c ∈ piece, Text.isBlank c = true) :
    Divides text (kept.map Text.trimChars) := by
  obtain ⟨hfront, hall⟩ := closed_of_kept hcuts
  have hne : kept.map Text.trimChars ≠ [] := by
    rw [hkept]
    simpa [segments] using segments_ne_nil (String.ofList text)
  refine ⟨hne, by simp, ?_, ?_, ?_, kept, dropped.flatMap (',' :: ·), ?_, ?_, ?_, ?_⟩
  · rw [List.forall_mem_map]
    intro piece hpiece
    have hcut : piece ∈ cutSegments 0 text := by
      rw [hcuts]
      exact List.mem_append_left _ hpiece
    exact uncut_iff.1 (uncut_of_mem hcut).trimChars
  · rw [← List.map_dropLast, List.forall_mem_map]
    intro piece hpiece
    rw [← (Text.Pads.trim piece).depthBehind_eq, hfront piece hpiece]
  · rw [hkept]
    exact getLast?_dropTrailingEmpty
  · rw [List.forall₂_map_right_iff, List.forall₂_same]
    exact fun piece _ => Text.Pads.trim piece
  · rw [← Text.joinWith_append (by simpa using hne), ← hcuts, joinWith_cutSegments]
  · intro c hc
    obtain ⟨piece, hpiece, hc⟩ := List.mem_flatMap.1 hc
    exact (List.mem_cons.1 hc).imp id (hdropped piece hpiece c)
  · intro hcomma
    have hsome : dropped ≠ [] := by
      rintro rfl
      cases hcomma
    rw [List.forall_mem_map]
    intro piece hpiece
    rw [← (Text.Pads.trim piece).depthBehind_eq, hall hsome piece hpiece]

/-- The blanks in front of the first comma behind the parts stand with the last part. -/
theorem Divides.exists_pieces (h : Divides text parts) :
    ∃ kept dropped, text = Text.joinWith ',' (kept ++ dropped) ∧ kept.map Text.trimChars = parts ∧
      (∀ piece ∈ dropped, ∀ c ∈ piece, Text.isBlank c = true) ∧
      (dropped ≠ [] → ∀ part ∈ parts, depthBehind 0 part = 0) := by
  obtain ⟨padded, rest, hpads, htext, hrest, hopen⟩ := h.whole
  obtain ⟨first, dropped, hpieces⟩ := List.exists_cons_of_ne_nil (Text.pieces_ne_nil ',' rest)
  have hblank : ∀ piece ∈ first :: dropped, ∀ c ∈ piece, Text.isBlank c = true := by
    intro piece hpiece c hc
    rw [← hpieces] at hpiece
    apply (hrest c (Text.mem_of_mem_pieces hpiece hc)).resolve_left
    rintro rfl
    exact Text.separator_notMem_of_mem_pieces ',' rest piece hpiece hc
  obtain ⟨hfirst, hdropped⟩ := List.forall_mem_cons.1 hblank
  have hjoin : rest = first ++ dropped.flatMap (',' :: ·) := by
    rw [← Text.joinWith_cons, ← hpieces, Text.joinWith_pieces]
  have hne : padded ≠ [] := by
    rintro rfl
    exact h.nonempty (List.forall₂_nil_left_iff.1 hpads)
  obtain ⟨front, last, rfl⟩ := (List.eq_nil_or_concat' padded).resolve_left hne
  have htrim : (front ++ [last]).map Text.trimChars = parts := by
    have hmap : (front ++ [last]).map Text.trimChars = parts.map Text.trimChars := by
      rw [← List.forall₂_eq_eq_eq, List.forall₂_map_left_iff, List.forall₂_map_right_iff]
      exact hpads.imp fun _ _ hpad => hpad.trimChars_eq
    rw [hmap, List.map_congr_left h.trimmed, List.map_id']
  refine ⟨front ++ [last ++ first], dropped, ?_, ?_, hdropped, fun hsome => hopen ?_⟩
  · rw [Text.joinWith_append (by simp), Text.joinWith_concat_append, List.append_assoc, ← hjoin,
      htext]
  · rw [← htrim]
    simp [Text.trimChars_append_blanks hfirst]
  · obtain ⟨second, more, rfl⟩ := List.exists_cons_of_ne_nil hsome
    rw [hjoin]
    simp

/-- The commas around the parts are the places where the text is cut. -/
theorem Divides.exists_cuts (h : Divides text parts) :
    ∃ kept dropped, cutSegments 0 text = kept ++ dropped ∧ kept.map Text.trimChars = parts ∧
      ∀ piece ∈ dropped, ∀ c ∈ piece, Text.isBlank c = true := by
  obtain ⟨kept, dropped, rfl, rfl, hdropped, hopen⟩ := h.exists_pieces
  refine ⟨kept, dropped, ?_, rfl, hdropped⟩
  have hdepth : ∀ piece : List Char, depthBehind 0 (Text.trimChars piece) = 0 →
      depthBehind 0 piece = 0 := by
    intro piece hpiece
    rwa [(Text.Pads.trim piece).depthBehind_eq]
  have hne : kept ++ dropped ≠ [] := by
    intro hnil
    exact h.nonempty (by simp [(List.append_eq_nil_iff.1 hnil).1])
  apply cutSegments_joinWith_of_uncut hne
  · refine List.forall_mem_append.2 ⟨fun piece hpiece => ?_, fun piece hpiece => ?_⟩
    · have hpart := h.sheltered _ (List.mem_map_of_mem hpiece)
      exact (Text.Pads.trim piece).uncut (uncut_iff.2 hpart)
    · exact uncut_of_blank (hdropped piece hpiece)
  · rw [List.dropLast_append]
    split
    · intro piece hpiece
      apply hdepth
      apply h.closed
      rw [← List.map_dropLast]
      exact List.mem_map_of_mem hpiece
    · next hsome =>
      refine List.forall_mem_append.2 ⟨fun piece hpiece => ?_, fun piece hpiece => ?_⟩
      · exact hdepth piece (hopen (by simpa using hsome) _ (List.mem_map_of_mem hpiece))
      · exact depthBehind_of_blank (hdropped piece (List.mem_of_mem_dropLast hpiece))

theorem Divides.segmentChars_eq (h : Divides text parts) : segmentChars text = parts := by
  obtain ⟨kept, dropped, hcuts, rfl, hdropped⟩ := h.exists_cuts
  have hempty : dropped.map Text.trimChars = List.replicate dropped.length [] := by
    rw [List.eq_replicate_iff, List.length_map, List.forall_mem_map]
    exact ⟨rfl, fun piece hpiece => Text.trimChars_eq_nil_iff.2 (hdropped piece hpiece)⟩
  rw [segmentChars, hcuts, List.map_append, hempty, dropTrailingEmpty_append h.nonempty h.full]

/-- Without the blanks and the commas at the end, the parts are the same. -/
theorem Divides.rejoin (h : Divides text parts) : Divides (Text.joinWith ',' parts) parts where
  nonempty := h.nonempty
  trimmed := h.trimmed
  sheltered := h.sheltered
  closed := h.closed
  full := h.full
  whole := by
    refine ⟨parts, [], List.forall₂_same.2 fun part _ => Text.Pads.refl part, ?_, by simp, by simp⟩
    rw [List.append_nil]

end Kept

theorem segments_eq_iff {text : String} {parts : List String} :
    segments text = parts ↔ Divides text.toList (parts.map String.toList) := by
  have hchars : (segments text).map String.toList = segmentChars text.toList := by
    simp [segments, Function.comp_def]
  constructor
  · rintro rfl
    obtain ⟨kept, dropped, hcuts, hkept, hdropped⟩ := exists_kept text.toList
    rw [hchars, ← hkept]
    exact divides_of_kept hcuts hkept hdropped
  · intro h
    have hparts := hchars.trans h.segmentChars_eq
    exact List.map_injective_iff.2 (fun _ _ => String.toList_inj.1) hparts

/-- The segments of a text are its parts and no other list is. Joined by commas they are the segments
of the text that comes out. -/
theorem divides_segments (text : String) :
    Divides text.toList ((segments text).map String.toList) ∧
      (∀ parts : List String, Divides text.toList (parts.map String.toList) →
        parts = segments text) ∧
      segments (",".intercalate (segments text)) = segments text := by
  have hdivides : Divides text.toList ((segments text).map String.toList) := segments_eq_iff.1 rfl
  refine ⟨hdivides, fun parts hparts => (segments_eq_iff.2 hparts).symm, ?_⟩
  have hcomma : ",".toList = [','] := rfl
  rw [segments_eq_iff, String.toList_intercalate, hcomma, Text.intercalate_eq_joinWith]
  exact hdivides.rejoin

/-- A bracket that stays open keeps the commas behind it. -/
example : segments " a, ] ,, [b , [c,] ,, " = ["a", "]", "", "[b , [c,] ,,"] := by decide +kernel

end VoxelQuery
