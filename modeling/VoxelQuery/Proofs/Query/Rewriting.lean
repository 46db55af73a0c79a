import Mathlib.Logic.Relation
import VoxelQuery.Proofs.Query.Acceptance
import VoxelQuery.Proofs.Query.Division
import VoxelQuery.Proofs.Query.Respelling

/-! Query texts that are spelled otherwise. Gaps between tokens, blanks around items and signs, the
case of letters in a group, values that are there already, the name of the default property and
whatever is blank at the end do not count. However often a text is changed in these ways, it
compiles to the same predicate. -/
namespace VoxelQuery

/-- No token of a segment goes on from the first part of its text into the second. -/
def BetweenTokens (a b : List Char) : Prop :=
  ∀ found, tokens (String.ofList (Text.trimChars (a ++ b))) = .ok found → ∀ t ∈ found,
    Text.unitLength (Text.trimLeft a) ≤ t.offset ∨
      t.offset + t.width ≤ Text.unitLength (Text.trimLeft a)

/-- One gap more in a segment, or another spelling of one item of a group. -/
inductive SegmentRewrite (property : List Char) : List Char → List Char → Prop
  | gap {a b : List Char} {c : Char} (hc : isGap c = true) (h : BetweenTokens a b) :
      SegmentRewrite property (a ++ b) (a ++ c :: b)
  | item {a b interior raw raw' : List Char} {front behind : List (List Char)}
      (hclose : ']' ∉ interior) (hcut : Text.pieces ',' interior = front ++ raw :: behind)
      (h : ItemRewrite property (Text.trimChars raw) (Text.trimChars raw')) :
      SegmentRewrite property (a ++ '[' :: (interior ++ ']' :: b))
        (a ++ '[' :: (Text.joinWith ',' (front ++ raw' :: behind) ++ ']' :: b))

/-- One segment spelled otherwise, or commas and blanks at the end of the text. -/
inductive QueryRewrite (property : List Char) : List Char → List Char → Prop
  | segment {text raw raw' : List Char} {before behind : List (List Char)}
      (hcut : cutSegments 0 text = before ++ raw :: behind) (h : SegmentRewrite property raw raw') :
      QueryRewrite property text (Text.joinWith ',' (before ++ raw' :: behind))
  | ending {text more : List Char} (h : ∀ c ∈ more, c = ',' ∨ Text.isBlank c = true) :
      QueryRewrite property text (text ++ more)

theorem Text.trimChars_bracketed (a interior b : List Char) :
    trimChars (a ++ '[' :: (interior ++ ']' :: b)) =
      trimLeft a ++ '[' :: (interior ++ ']' :: trimRight b) := by
  have hclose : isBlank ']' = false := by decide
  have hright := trimRight_append_cons hclose (trimLeft a ++ '[' :: interior) b
  rw [trimChars, trimLeft_append_cons (by decide)]
  simpa using hright

namespace Environment

variable {env : Environment}

section Segments

variable {raw raw' : List Char} {terms : List Term}

theorem exists_listed_of_itemRewrite {interior : List Char} {front behind : List (List Char)}
    {items : List PropertyItem} (hcut : Text.pieces ',' interior = front ++ raw :: behind)
    (h : ItemRewrite env.defaultName (Text.trimChars raw) (Text.trimChars raw'))
    (hitems : Listed ItemText interior items) :
    ∃ items', Listed ItemText (Text.joinWith ',' (front ++ raw' :: behind)) items' ∧
      items'.map env.itemTest = items.map env.itemTest := by
  have hpieces := forall₂_pieces_of_listed (fun raw a => ItemText.comma_notMem_raw) hitems
  rw [hcut] at hpieces
  obtain ⟨first, second, rfl, hfirst, hsecond⟩ := exists_append_of_forall₂ hpieces
  obtain ⟨item, rest, hitem, hrest, rfl⟩ := List.forall₂_cons_left_iff.1 hsecond
  obtain ⟨item', hitem', htest⟩ := h.exists_itemText hitem
  refine ⟨first ++ item' :: rest, listed_joinWith (by simp) ?_, by simp [htest]⟩
  exact List.rel_append hfirst (.cons hitem' hrest)

theorem segmentText_of_gap {a b : List Char} {c : Char} (hc : isGap c = true)
    (h : BetweenTokens a b) (hterms : SegmentText (Text.trimChars (a ++ b)) terms) :
    SegmentText (Text.trimChars (a ++ c :: b)) terms := by
  rcases Text.trimChars_insert (isBlank_of_isGap hc) a b with hsame | ⟨-, hold, hnew⟩
  · rwa [hsame]
  · obtain ⟨found, hscan, hread⟩ := segmentText_iff.1 hterms
    have hfound : tokens (String.ofList (Text.trimChars (a ++ b))) = .ok found := by
      rw [tokens, String.toList_ofList, hscan]
    have hspells := Token.scan_eq_ok_iff.1 hscan
    rw [hold] at hspells
    obtain ⟨found', hs, hl⟩ := hspells.insert_gap hc (by simpa using h found hfound)
    rw [hnew]
    exact segmentText_of_readAs hread hs hl

theorem exists_segmentText_of_rewrite (h : SegmentRewrite env.defaultName raw raw')
    (hterms : SegmentText (Text.trimChars raw) terms) :
    ∃ terms', SegmentText (Text.trimChars raw') terms' ∧
      terms'.map env.termPredicate? = terms.map env.termPredicate? := by
  cases h with
  | gap hc hapart => exact ⟨terms, segmentText_of_gap hc hapart hterms, rfl⟩
  | item hclose hcut h =>
    rw [Text.trimChars_bracketed] at hterms
    obtain ⟨before, negated, items, after, rfl, hitems, hnew⟩ := hterms.regroup hclose rfl
    obtain ⟨items', hitems', htests⟩ := exists_listed_of_itemRewrite hcut h hitems
    refine ⟨before ++ ⟨negated, .group items'⟩ :: after, ?_, ?_⟩
    · rw [Text.trimChars_bracketed]
      exact hnew _ _ hitems'
    · simp [termPredicate?, atomPredicate?, htests]

/-- The second segment has the predicates of the first one, and is blank if the first one is. -/
structure Keeps (env : Environment) (raw raw' : List Char) : Prop where
  segmentPredicate : ∀ p, env.segmentPredicate (String.ofList (Text.trimChars raw)) = .ok p →
    env.segmentPredicate (String.ofList (Text.trimChars raw')) = .ok p
  blank : Text.trimChars raw' = [] ↔ Text.trimChars raw = []

theorem Keeps.of_trimChars_eq (h : Text.trimChars raw' = Text.trimChars raw) : env.Keeps raw raw' :=
  ⟨fun _ hp => h ▸ hp, by rw [h]⟩

theorem keeps_of_rewrite (h : SegmentRewrite env.defaultName raw raw') : env.Keeps raw raw' where
  segmentPredicate p hp := by
    obtain ⟨terms, hterms, predicates, hall, rfl⟩ := segmentPredicate_eq_ok_iff.1 hp
    rw [String.toList_ofList] at hterms
    obtain ⟨terms', hterms', hsame⟩ := exists_segmentText_of_rewrite h hterms
    refine segmentPredicate_eq_ok_iff.2 ⟨terms', by rwa [String.toList_ofList], predicates, ?_, rfl⟩
    have hread : ∀ ts, List.Forall₂ (fun t q => env.termPredicate? t = some q) ts predicates ↔
        List.Forall₂ (fun found q => found = some q) (ts.map env.termPredicate?) predicates := by
      intro ts
      rw [List.forall₂_map_left_iff]
    rwa [hread, hsame, ← hread]
  blank := by
    cases h with
    | @gap a b c hc hapart =>
      rcases Text.trimChars_insert (isBlank_of_isGap hc) a b with hsame | ⟨hne, hold, hnew⟩
      · rw [hsame]
      · simp [hold, hnew, hne]
    | item hclose hcut h => simp [Text.trimChars_bracketed]

end Segments

end Environment

section Joining

theorem cutSegments_joinWith {pieces : List (List Char)} (hne : pieces ≠ [])
    (h : ∀ piece ∈ pieces, Closed piece) : cutSegments 0 (Text.joinWith ',' pieces) = pieces := by
  apply cutSegments_joinWith_of_uncut hne
  · exact fun piece hpiece => (h piece hpiece).uncut
  · exact fun piece hpiece => (h piece (List.mem_of_mem_dropLast hpiece)).depthBehind_eq

/-- What is dropped at the end of one list is dropped at the end of a list that is like it. -/
theorem forall₂_dropTrailingEmpty {R : List Char → List Char → Prop}
    (hR : ∀ a b, R a b → (b = [] ↔ a = [])) {l m : List (List Char)} (h : List.Forall₂ R l m) :
    List.Forall₂ R (dropTrailingEmpty l) (dropTrailingEmpty m) := by
  have hdrop : ∀ {l m : List (List Char)}, List.Forall₂ R l m →
      List.Forall₂ R (l.dropWhile List.isEmpty) (m.dropWhile List.isEmpty) := by
    intro l m h
    induction h with
    | nil => exact .nil
    | @cons a b l m hab htail ih =>
      have hempty : b.isEmpty = a.isEmpty := by
        rw [Bool.eq_iff_iff, List.isEmpty_iff, List.isEmpty_iff, hR a b hab]
      rw [List.dropWhile_cons, List.dropWhile_cons, hempty]
      split
      · exact ih
      · exact .cons hab htail
  cases h with
  | nil => exact .nil
  | cons hab htail =>
    exact .cons hab (List.rel_reverse (hdrop (List.rel_reverse htail)))

theorem dropTrailingEmpty_concat_nil {l : List (List Char)} (hne : l ≠ []) :
    dropTrailingEmpty (l ++ [[]]) = dropTrailingEmpty l := by
  cases l with
  | nil => exact absurd rfl hne
  | cons first rest => simp [dropTrailingEmpty]

end Joining

namespace Environment

variable {env : Environment} {text : List Char} {p : Predicate}

theorem exists_segmentPredicate_of_compile (hp : env.compile (String.ofList text) = .ok p) :
    ∀ raw ∈ cutSegments 0 text, ∃ q,
      env.segmentPredicate (String.ofList (Text.trimChars raw)) = .ok q := by
  have hempty : ∃ q, env.segmentPredicate "" = .ok q :=
    exists_segmentPredicate_iff.2 ⟨[], .nil, by simp⟩
  obtain ⟨predicates, hall, -⟩ := compile_eq_ok_iff.1 hp
  have hsegments := (forall_segments_iff hempty).1 (forall_exists_iff_forall₂.2 ⟨predicates, hall⟩)
  rwa [String.toList_ofList] at hsegments

theorem closed_of_segmentPredicate {raw : List Char} {q : Predicate}
    (h : env.segmentPredicate (String.ofList (Text.trimChars raw)) = .ok q) : Closed raw := by
  obtain ⟨terms, hterms, -⟩ := segmentPredicate_eq_ok_iff.1 h
  rw [String.toList_ofList] at hterms
  exact hterms.closed_raw

/-- Segments that keep their predicates one by one make up a text that keeps its own. -/
theorem compile_of_keeps {pieces : List (List Char)} (hp : env.compile (String.ofList text) = .ok p)
    (h : List.Forall₂ env.Keeps (cutSegments 0 text) pieces) :
    env.compile (String.ofList (Text.joinWith ',' pieces)) = .ok p := by
  have hclosed : ∀ piece ∈ pieces, Closed piece := by
    intro piece hpiece
    obtain ⟨raw, hraw, hkeeps⟩ := exists_of_forall₂ h hpiece
    obtain ⟨q, hq⟩ := exists_segmentPredicate_of_compile hp raw hraw
    exact closed_of_segmentPredicate (hkeeps.segmentPredicate q hq)
  have hne : pieces ≠ [] := by
    rintro rfl
    exact cutSegments_ne_nil 0 text (List.forall₂_nil_right_iff.1 h)
  have htrimmed : List.Forall₂ (fun a b : List Char =>
      (∀ q, env.segmentPredicate (String.ofList a) = .ok q →
        env.segmentPredicate (String.ofList b) = .ok q) ∧ (b = [] ↔ a = []))
      ((cutSegments 0 text).map Text.trimChars) (pieces.map Text.trimChars) := by
    rw [List.forall₂_map_left_iff, List.forall₂_map_right_iff]
    exact h.imp fun raw raw' hkeeps => ⟨hkeeps.segmentPredicate, hkeeps.blank⟩
  have hkept := forall₂_dropTrailingEmpty (fun a b hab => hab.2) htrimmed
  obtain ⟨predicates, hall, rfl⟩ := compile_eq_ok_iff.1 hp
  refine compile_eq_ok_iff.2 ⟨predicates, ?_, rfl⟩
  rw [segments, segmentChars, String.toList_ofList, List.forall₂_map_left_iff] at hall ⊢
  rw [cutSegments_joinWith hne hclosed]
  refine (forall₂_comp_iff.2 ⟨_, hkept.flip, hall⟩).imp fun b q hq => ?_
  obtain ⟨a, hab, ha⟩ := hq
  exact hab.1 q ha

theorem compile_append_comma (hp : env.compile (String.ofList text) = .ok p) :
    env.compile (String.ofList (text ++ [','])) = .ok p := by
  have hclosed : ∀ piece ∈ cutSegments 0 text ++ [[]], Closed piece := by
    refine List.forall_mem_append.2 ⟨fun raw hraw => ?_, List.forall_mem_singleton.2 Closed.nil⟩
    obtain ⟨q, hq⟩ := exists_segmentPredicate_of_compile hp raw hraw
    exact closed_of_segmentPredicate hq
  have hcut : cutSegments 0 (text ++ [',']) = cutSegments 0 text ++ [[]] := by
    have hjoin : Text.joinWith ',' (cutSegments 0 text ++ [[]]) = text ++ [','] := by
      rw [Text.joinWith_concat (cutSegments_ne_nil 0 text), joinWith_cutSegments]
    rw [← hjoin, cutSegments_joinWith (by simp) hclosed]
  have hsegments : segments (String.ofList (text ++ [','])) = segments (String.ofList text) := by
    have hne : (cutSegments 0 text).map Text.trimChars ≠ [] := by simp [cutSegments_ne_nil]
    rw [segments, segments, segmentChars, segmentChars, String.toList_ofList, String.toList_ofList,
      hcut, List.map_append]
    exact congrArg _ (dropTrailingEmpty_concat_nil hne)
  rw [compile, hsegments]
  exact hp

theorem compile_append_blank {c : Char} (hc : Text.isBlank c = true)
    (hp : env.compile (String.ofList text) = .ok p) :
    env.compile (String.ofList (text ++ [c])) = .ok p := by
  obtain ⟨front, last, hcut⟩ : ∃ front last, cutSegments 0 text = front ++ [last] :=
    ⟨_, _, (List.dropLast_concat_getLast (cutSegments_ne_nil 0 text)).symm⟩
  have hjoin : Text.joinWith ',' (front ++ [last ++ [c]]) = text ++ [c] := by
    rw [Text.joinWith_concat_append, ← hcut, joinWith_cutSegments]
  rw [← hjoin]
  refine compile_of_keeps hp ?_
  rw [hcut]
  refine List.rel_append (List.forall₂_same.2 fun raw _ => .of_trimChars_eq rfl) (.cons ?_ .nil)
  exact .of_trimChars_eq (Text.trimChars_append_blanks (by simpa using hc) last)

theorem compile_of_queryRewrite {text' : List Char} (h : QueryRewrite env.defaultName text text')
    (hp : env.compile (String.ofList text) = .ok p) :
    env.compile (String.ofList text') = .ok p := by
  cases h with
  | segment hcut h =>
    refine compile_of_keeps hp ?_
    rw [hcut]
    have hsame : ∀ l : List (List Char), List.Forall₂ env.Keeps l l :=
      fun l => List.forall₂_same.2 fun raw _ => .of_trimChars_eq rfl
    exact List.rel_append (hsame _) (.cons (keeps_of_rewrite h) (hsame _))
  | @ending more h =>
    induction more generalizing text with
    | nil => rwa [List.append_nil]
    | cons c more ih =>
      obtain ⟨hc, hmore⟩ := List.forall_mem_cons.1 h
      rw [List.append_cons]
      refine ih ?_ hmore
      rcases hc with rfl | hc
      · exact compile_append_comma hp
      · exact compile_append_blank hc hp

/-- However often a text is spelled otherwise, it compiles to the predicate that it had first. -/
theorem compile_rewrite (env : Environment) {text text' : String} {p : Predicate}
    (hp : env.compile text = .ok p)
    (h : Relation.ReflTransGen (QueryRewrite env.defaultName) text.toList text'.toList) :
    env.compile text' = .ok p := by
  have hsteps : ∀ chars, Relation.ReflTransGen (QueryRewrite env.defaultName) text.toList chars →
      env.compile (String.ofList chars) = .ok p := by
    intro chars h
    induction h with
    | refl => rwa [String.ofList_toList]
    | tail _ hstep ih => exact compile_of_queryRewrite hstep ih
  have hlast := hsteps _ h
  rwa [String.ofList_toList] at hlast

/-- A segment with a bang, and one with a group of the given items. -/
def notStoneOr (items : List (List Char)) : List Char :=
  "! stone,[".toList ++ (Text.joinWith ',' items ++ [']'])

/-- One item of the group in `notStoneOr` is spelled otherwise. -/
theorem queryRewrite_item {property : List Char} (front behind : List (List Char))
    (raw raw' : List Char) (h : ItemRewrite property (Text.trimChars raw) (Text.trimChars raw'))
    (hcut : cutSegments 0 (notStoneOr (front ++ raw :: behind)) =
      ["! stone".toList, '[' :: (Text.joinWith ',' (front ++ raw :: behind) ++ [']'])])
    (hclose : ']' ∉ Text.joinWith ',' (front ++ raw :: behind))
    (hpieces : Text.pieces ',' (Text.joinWith ',' (front ++ raw :: behind)) =
      front ++ raw :: behind) :
    QueryRewrite property (notStoneOr (front ++ raw :: behind))
      (notStoneOr (front ++ raw' :: behind)) :=
  @QueryRewrite.segment _ _ _ _ ["! stone".toList] [] hcut
    (@SegmentRewrite.item _ [] [] _ _ _ _ _ hclose hpieces h)

/-- A gap behind a bang, blanks around a sign and around an item, capital letters, a value once
more, the name of the default property, and commas behind the text, one after the other. -/
theorem compile_rewrite_polished :
    Relation.ReflTransGen (QueryRewrite quarry.defaultName) "!stone,[axis=Y|z,polished]".toList
        "! stone,[axis = Y|z|y, variant=Polished],\t,".toList ∧
      ∃ p, quarry.compile "!stone,[axis=Y|z,polished]" = .ok p ∧
        quarry.compile "! stone,[axis = Y|z|y, variant=Polished],\t," = .ok p := by
  have hbetween : BetweenTokens ['!'] "stone".toList := by
    have hscan : tokens "!stone" = .ok [⟨.bang, 0⟩, ⟨.bare "stone", 1⟩] := by cbv
    intro found hfound
    obtain rfl : [⟨.bang, 0⟩, ⟨.bare "stone", 1⟩] = found := Except.ok.inj (hscan.symm.trans hfound)
    decide +kernel
  have hread : ItemText "axis = Y|z".toList ⟨some "axis", ["Y", "z"]⟩ :=
    PropertyItem.parse?_eq_some_iff.1 (by cbv)
  have hgap : QueryRewrite quarry.defaultName "!stone,[axis=Y|z,polished]".toList
      (notStoneOr ["axis=Y|z".toList, "polished".toList]) :=
    @QueryRewrite.segment _ _ _ _ [] ["[axis=Y|z,polished]".toList] (by decide +kernel)
      (.gap (by decide) hbetween)
  have hsign := queryRewrite_item [] ["polished".toList] "axis=Y|z".toList "axis = Y|z".toList
    (@ItemRewrite.sign quarry.defaultName "axis".toList [] [] [' '] [' '] "Y|z".toList
      (by decide +kernel) (by simp) (by simp; decide) (by simp; decide))
    (by decide +kernel) (by decide +kernel) (by decide +kernel)
  have hagain := queryRewrite_item [] ["polished".toList] "axis = Y|z".toList "axis = Y|z|y".toList
    (@ItemRewrite.again quarry.defaultName _ "y".toList _ "Y" hread (by simp) (by decide +kernel))
    (by decide +kernel) (by decide +kernel) (by decide +kernel)
  have hletters := queryRewrite_item ["axis = Y|z|y".toList] [] "polished".toList "Polished".toList
    (@ItemRewrite.letters quarry.defaultName _ _ (by decide +kernel))
    (by decide +kernel) (by decide +kernel) (by decide +kernel)
  have hnamed := queryRewrite_item ["axis = Y|z|y".toList] [] "Polished".toList
    "variant=Polished".toList
    (@ItemRewrite.named quarry.defaultName "Polished".toList (by decide +kernel)
      (by decide +kernel))
    (by decide +kernel) (by decide +kernel) (by decide +kernel)
  have hsame := queryRewrite_item ["axis = Y|z|y".toList] [] "variant=Polished".toList
    " variant=Polished".toList (@ItemRewrite.same quarry.defaultName _)
    (by decide +kernel) (by decide +kernel) (by decide +kernel)
  have hending := @QueryRewrite.ending quarry.defaultName
    (notStoneOr ["axis = Y|z|y".toList, " variant=Polished".toList]) [',', '\t', ',']
    (by simp; decide)
  have hitems := ((Relation.ReflTransGen.single hsign).tail hagain).tail hletters
  have hsteps := (((hitems.tail hnamed).tail hsame).tail hending).head hgap
  obtain ⟨p, hp⟩ : ∃ p, quarry.compile "!stone,[axis=Y|z,polished]" = .ok p := ⟨_, by cbv⟩
  exact ⟨hsteps, p, hp, compile_rewrite quarry hp hsteps⟩

end Environment

end VoxelQuery
