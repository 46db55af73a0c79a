import Mathlib.Data.List.Induction
import VoxelQuery.Proofs.Query.Meaning
import VoxelQuery.Proofs.Query.Segments

/-! Texts joined by a comma. If the first text closes its groups and does not end in a blank
segment, the comma separates segments, and the whole has the segments of both texts. So it fails
with the first error of a part, and else it holds where one of the parts does. -/
namespace VoxelQuery

theorem Text.extendFirst_append (c : Char) {l : List (List Char)} (hne : l ≠ [])
    (more : List (List Char)) : extendFirst c (l ++ more) = extendFirst c l ++ more := by
  cases l with
  | nil => exact absurd rfl hne
  | cons piece rest => rfl

/-- The bracket depth behind a text. -/
def depthBehind (depth : Nat) (text : List Char) : Nat := text.foldl depthAfter depth

theorem cutSegments_append_comma {depth : Nat} {a : List Char} (h : depthBehind depth a = 0)
    (b : List Char) : cutSegments depth (a ++ ',' :: b) = cutSegments depth a ++ cutSegments 0 b := by
  induction a generalizing depth with
  | nil =>
    have hdepth : depth = 0 := h
    rw [hdepth]
    rfl
  | cons c rest ih =>
    have hrest : depthBehind (depthAfter depth c) rest = 0 := h
    rw [List.cons_append, cutSegments, cutSegments]
    split
    · next hcut =>
      have hzero : depthBehind 0 rest = 0 := by rwa [hcut.1, hcut.2] at hrest
      rw [ih hzero, List.cons_append]
    · rw [ih hrest, Text.extendFirst_append c (cutSegments_ne_nil _ _)]

section TrailingEmpty

variable {l : List (List Char)}

/-- Only empty pieces stand behind the last one that is not empty. -/
theorem exists_append_replicate_nil (h : ∃ piece ∈ l, piece ≠ []) :
    ∃ front last n, last ≠ [] ∧ l = front ++ last :: List.replicate n [] := by
  induction l using List.reverseRecOn with
  | nil =>
    obtain ⟨piece, hpiece, -⟩ := h
    cases hpiece
  | append_singleton init piece ih =>
    by_cases hempty : piece = []
    · obtain ⟨kept, hkept, hne⟩ := h
      have hinit : kept ∈ init := by
        rcases List.mem_append.1 hkept with hinit | hlast
        · exact hinit
        · exact absurd ((List.mem_singleton.1 hlast).trans hempty) hne
      obtain ⟨front, last, n, hlast, rfl⟩ := ih ⟨kept, hinit, hne⟩
      refine ⟨front, last, n + 1, hlast, ?_⟩
      rw [hempty, List.replicate_succ', List.append_assoc, List.cons_append]
    · exact ⟨init, piece, 0, hempty, rfl⟩

theorem dropTrailingEmpty_append_replicate (front : List (List Char)) {last : List Char}
    (hlast : last ≠ []) (n : Nat) :
    dropTrailingEmpty (front ++ last :: List.replicate n []) = front ++ [last] := by
  have hempty : ∀ piece ∈ List.replicate n ([] : List Char), piece.isEmpty = true := by
    intro piece hpiece
    rw [List.eq_of_mem_replicate hpiece]
    rfl
  cases front with
  | nil =>
    have hdrop : (List.replicate n ([] : List Char)).dropWhile List.isEmpty = [] :=
      List.dropWhile_eq_nil_iff.2 hempty
    rw [List.nil_append, dropTrailingEmpty, List.reverse_replicate, hdrop]
    rfl
  | cons first rest =>
    rw [List.cons_append, dropTrailingEmpty, List.reverse_append, List.reverse_cons,
      List.reverse_replicate, List.append_assoc, List.dropWhile_append_of_pos hempty,
      List.singleton_append, List.dropWhile_cons, if_neg (by simpa using hlast)]
    simp

end TrailingEmpty

/-- The text ends in a segment that is not blank. -/
def EndsFull (text : String) : Prop :=
  Text.trimChars ((cutSegments 0 text.toList).getLast (cutSegments_ne_nil 0 _)) ≠ []

section Segments

variable {a b : String}

theorem EndsFull.exists_pieces (h : EndsFull a) :
    ∃ front last, last ≠ [] ∧ (cutSegments 0 a.toList).map Text.trimChars = front ++ [last] := by
  have hlast := List.dropLast_concat_getLast (cutSegments_ne_nil 0 a.toList)
  refine ⟨(cutSegments 0 a.toList).dropLast.map Text.trimChars, _, h, ?_⟩
  rw [← List.map_singleton, ← List.map_append, hlast]

theorem segmentChars_comma (h : depthBehind 0 a.toList = 0) :
    segmentChars (a ++ "," ++ b).toList =
      dropTrailingEmpty ((cutSegments 0 a.toList).map Text.trimChars ++
        (cutSegments 0 b.toList).map Text.trimChars) := by
  have htext : (a ++ "," ++ b).toList = a.toList ++ ',' :: b.toList := by simp
  rw [segmentChars, htext, cutSegments_append_comma h, List.map_append]

theorem segmentChars_of_endsFull (hlast : EndsFull a) :
    segmentChars a.toList = (cutSegments 0 a.toList).map Text.trimChars := by
  obtain ⟨front, last, hne, hpieces⟩ := hlast.exists_pieces
  rw [segmentChars, hpieces]
  exact dropTrailingEmpty_append_replicate front hne 0

/-- A comma puts the segments of two texts together. -/
theorem segments_comma (hdepth : depthBehind 0 a.toList = 0) (hlast : EndsFull a)
    (hb : ∃ segment ∈ segments b, segment ≠ "") :
    segments (a ++ "," ++ b) = segments a ++ segments b := by
  obtain ⟨segment, hsegment, hne⟩ := hb
  obtain ⟨piece, hpiece, rfl⟩ := List.mem_map.1 hsegment
  have hfull : ∃ piece ∈ (cutSegments 0 b.toList).map Text.trimChars, piece ≠ [] := by
    refine ⟨piece, mem_of_mem_dropTrailingEmpty hpiece, ?_⟩
    rintro rfl
    exact hne rfl
  obtain ⟨front, last, n, hpieceNe, hpieces⟩ := exists_append_replicate_nil hfull
  have hsecond : segmentChars b.toList = front ++ [last] := by
    rw [segmentChars, hpieces]
    exact dropTrailingEmpty_append_replicate front hpieceNe n
  rw [segments, segments, segments, ← List.map_append, segmentChars_comma hdepth, hpieces, hsecond,
    segmentChars_of_endsFull hlast, ← List.append_assoc,
    dropTrailingEmpty_append_replicate _ hpieceNe, List.append_assoc]

/-- A blank text behind a comma does not count. -/
theorem segments_comma_of_blank (hdepth : depthBehind 0 a.toList = 0) (hlast : EndsFull a)
    (hb : ∀ segment ∈ segments b, segment = "") : segments (a ++ "," ++ b) = segments a := by
  have hblank : ∀ piece ∈ (cutSegments 0 b.toList).map Text.trimChars, piece = [] := by
    intro piece hpiece
    rcases mem_dropTrailingEmpty_or_eq_nil hpiece with hkept | hnil
    · exact String.ofList_eq_empty_iff.1 (hb _ (List.mem_map_of_mem hkept))
    · exact hnil
  obtain ⟨front, last, hne, hpieces⟩ := hlast.exists_pieces
  rw [segments, segments, segmentChars_comma hdepth, segmentChars_of_endsFull hlast, hpieces,
    List.eq_replicate_of_mem hblank, List.append_assoc, List.singleton_append,
    dropTrailingEmpty_append_replicate _ hne]

end Segments

namespace Environment

variable {env : Environment} {text : String}

theorem compile_eq_error_iff {e : QueryError} :
    env.compile text = .error e ↔ (segments text).mapM env.segmentPredicate = .error e := by
  rw [compile, map_eq_error_iff]

/-- Between two texts that are each complete, a comma means "or". The first error of the parts is
the error of the whole, and an error of the first text does not depend on what the second one is. -/
theorem compile_comma (env : Environment) {a b : String} (hdepth : depthBehind 0 a.toList = 0)
    (hlast : EndsFull a) :
    (∀ e, env.compile a = .error e → env.compile (a ++ "," ++ b) = .error e) ∧
    ((∃ segment ∈ segments b, segment ≠ "") → ∀ p, env.compile a = .ok p →
      (∀ e, env.compile b = .error e → env.compile (a ++ "," ++ b) = .error e) ∧
      ∀ q, env.compile b = .ok q → ∃ r, env.compile (a ++ "," ++ b) = .ok r ∧
        ∀ scene here, r.holds scene here = (p.holds scene here || q.holds scene here)) := by
  constructor
  · intro e he
    rw [compile_eq_error_iff] at he ⊢
    by_cases hb : ∃ segment ∈ segments b, segment ≠ ""
    · rw [segments_comma hdepth hlast hb]
      exact mapM_append_of_error he _
    · push Not at hb
      rwa [segments_comma_of_blank hdepth hlast hb]
  · intro hb p hp
    obtain ⟨first, hfirst, rfl⟩ := map_eq_ok_iff.1 hp
    have hjoined : (segments (a ++ "," ++ b)).mapM env.segmentPredicate =
        ((segments b).mapM env.segmentPredicate).map (first ++ ·) := by
      rw [segments_comma hdepth hlast hb, mapM_append_of_ok hfirst]
    constructor
    · intro e he
      rw [compile_eq_error_iff] at he ⊢
      rw [hjoined, map_eq_error_iff, he]
    · intro q hq
      obtain ⟨second, hsecond, rfl⟩ := map_eq_ok_iff.1 hq
      refine ⟨.anyOf (first ++ second), ?_, fun scene here => ?_⟩
      · rw [compile, hjoined, hsecond]
        rfl
      · rw [Predicate.holds_anyOf, Predicate.holds_anyOf, Predicate.holds_anyOf, List.any_append]

/-- A comma inside a group, an empty alternative in the middle, and blanks on both sides of the
comma that joins the texts. -/
theorem compile_comma_quarry :
    depthBehind 0 "stone,, ![axis = y, z] ".toList = 0 ∧ EndsFull "stone,, ![axis = y, z] " ∧
      (∃ segment ∈ segments " ~rock %Pillar, ", segment ≠ "") ∧
      ∃ p q r, quarry.compile "stone,, ![axis = y, z] " = .ok p ∧
        quarry.compile " ~rock %Pillar, " = .ok q ∧
        quarry.compile ("stone,, ![axis = y, z] " ++ "," ++ " ~rock %Pillar, ") = .ok r ∧
        ∀ scene here, r.holds scene here = (p.holds scene here || q.holds scene here) := by
  have hdepth : depthBehind 0 "stone,, ![axis = y, z] ".toList = 0 := by decide +kernel
  have hlast : EndsFull "stone,, ![axis = y, z] " := by
    unfold EndsFull
    decide +kernel
  have hb : ∃ segment ∈ segments " ~rock %Pillar, ", segment ≠ "" := by decide +kernel
  have hp : ∃ p, quarry.compile "stone,, ![axis = y, z] " = .ok p := ⟨_, by cbv⟩
  have hq : ∃ q, quarry.compile " ~rock %Pillar, " = .ok q := ⟨_, by cbv⟩
  obtain ⟨p, hp⟩ := hp
  obtain ⟨q, hq⟩ := hq
  obtain ⟨r, hr, hholds⟩ := ((compile_comma quarry hdepth hlast).2 hb p hp).2 q hq
  exact ⟨hdepth, hlast, hb, p, q, r, hp, hq, hr, hholds⟩

end Environment

end VoxelQuery
