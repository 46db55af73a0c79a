import VoxelQuery.Proofs.Query.Lexical
import VoxelQuery.Proofs.Success

/-! Reading on. Scanning ends at the first place where no lexeme can be read. Here such a place is
noted and passed over, so that all places of a segment can be told, those that a scan finds and those
that it never gets to. -/
namespace VoxelQuery

/-- A place of a segment, with the lexeme that stands there or what is wrong with the place. -/
structure Spot where
  found : Except TextFault Lexeme
  offset : Nat

namespace Spot

def isBang (s : Spot) : Bool :=
  match s.found with
  | .ok .bang => true
  | _ => false

/-- Something that a bang can negate. -/
def isTerm (s : Spot) : Bool :=
  match s.found with
  | .ok .bang => false
  | .ok _ => true
  | .error _ => false

end Spot

namespace Token

def spot (t : Token) : Spot := ⟨.ok t.lexeme, t.offset⟩

@[simp] theorem found_spot (t : Token) : t.spot.found = .ok t.lexeme := rfl

@[simp] theorem offset_spot (t : Token) : t.spot.offset = t.offset := rfl

theorem isBang_spot {t : Token} : t.spot.isBang = true ↔ t.lexeme = .bang := by
  rw [Spot.isBang, found_spot]
  cases t.lexeme <;> simp

theorem isTerm_spot {t : Token} : t.spot.isTerm = true ↔ t.lexeme ≠ .bang := by
  rw [Spot.isTerm, found_spot]
  cases t.lexeme <;> simp

end Token

/-- All places of a text that starts at the given offset. Behind a place where nothing can be read,
the reading goes on with the next character. -/
def spots (offset : Nat) : List Char → List Spot
  | [] => []
  | c :: rest =>
    if isGap c then spots (offset + 1) rest
    else
      match h : Lexeme.scan c rest with
      | .ok (lexeme, behind) =>
        have : behind.length < rest.length + 1 := Lexeme.length_lt_of_scan h
        ⟨.ok lexeme, offset⟩ :: spots (offset + Text.unitLength lexeme.chars) behind
      | .error fault => ⟨.error fault, offset⟩ :: spots (offset + Text.width c) rest
termination_by text => text.length

namespace Lexeme

theorem unitLength_pos {lexeme : Lexeme} (h : lexeme.WellFormed) :
    0 < Text.unitLength lexeme.chars := by
  obtain ⟨c, more, hchars⟩ := List.exists_cons_of_ne_nil (chars_ne_nil h)
  rw [hchars, Text.unitLength_cons]
  have hc := Text.width_pos c
  omega

end Lexeme

section Offsets

variable {offset : Nat} {text : List Char}

/-- The offset of a spot counts the units in front of it. -/
theorem exists_of_mem_spots {s : Spot} (h : s ∈ spots offset text) :
    ∃ front c rest, text = front ++ c :: rest ∧ s.offset = offset + Text.unitLength front := by
  fun_induction spots offset text with
  | case1 offset => cases h
  | case2 offset c rest hgap ih =>
    obtain ⟨front, d, behind, rfl, hs⟩ := ih h
    refine ⟨c :: front, d, behind, rfl, ?_⟩
    rw [hs, Text.unitLength_cons, width_of_isGap hgap, Nat.add_assoc]
  | case3 offset c rest hgap lexeme behind hscan _ ih =>
    rcases List.mem_cons.1 h with rfl | h
    · exact ⟨[], c, rest, rfl, rfl⟩
    · obtain ⟨front, d, more, hbehind, hs⟩ := ih h
      refine ⟨lexeme.chars ++ front, d, more, ?_, ?_⟩
      · rw [List.append_assoc, ← hbehind, Lexeme.chars_append_of_scan hscan]
      · rw [hs, Text.unitLength_append, Nat.add_assoc]
  | case4 offset c rest hgap fault hscan ih =>
    rcases List.mem_cons.1 h with rfl | h
    · exact ⟨[], c, rest, rfl, rfl⟩
    · obtain ⟨front, d, behind, rfl, hs⟩ := ih h
      refine ⟨c :: front, d, behind, rfl, ?_⟩
      rw [hs, Text.unitLength_cons, Nat.add_assoc]

theorem offset_of_mem_spots {s : Spot} (h : s ∈ spots offset text) :
    offset ≤ s.offset ∧ s.offset < offset + Text.unitLength text := by
  obtain ⟨front, c, rest, rfl, hs⟩ := exists_of_mem_spots h
  have hpos := Text.width_pos c
  rw [Text.unitLength_append, Text.unitLength_cons]
  omega

theorem pairwise_spots (offset : Nat) (text : List Char) :
    (spots offset text).Pairwise (·.offset < ·.offset) := by
  fun_induction spots offset text with
  | case1 offset => exact .nil
  | case2 offset c rest hgap ih => exact ih
  | case3 offset c rest hgap lexeme behind hscan _ ih =>
    have hpos := Lexeme.unitLength_pos (Lexeme.wellFormed_of_scan hscan).1
    refine List.pairwise_cons.2 ⟨fun s hs => ?_, ih⟩
    have hbound := (offset_of_mem_spots hs).1
    show offset < s.offset
    omega
  | case4 offset c rest hgap fault hscan ih =>
    have hpos := Text.width_pos c
    refine List.pairwise_cons.2 ⟨fun s hs => ?_, ih⟩
    have hbound := (offset_of_mem_spots hs).1
    show offset < s.offset
    omega

end Offsets

namespace Token

section Scan

variable {offset : Nat} {c : Char} {rest behind : List Char} {lexeme : Lexeme}

theorem scan_of_lexeme (hgap : ¬isGap c = true) (h : Lexeme.scan c rest = .ok (lexeme, behind)) :
    scan offset (c :: rest) =
      (scan (offset + Text.unitLength lexeme.chars) behind).map (⟨lexeme, offset⟩ :: ·) := by
  have hnext : next offset (c :: rest) = .ok (some (⟨lexeme, offset⟩, behind)) := by
    rw [next, if_neg hgap, h]
  rw [scan_of_next_some hnext]
  rfl

theorem scan_of_fault (hgap : ¬isGap c = true) {fault : TextFault}
    (h : Lexeme.scan c rest = .error fault) :
    scan offset (c :: rest) = .error (.malformed (String.ofList (c :: rest)) fault) := by
  have hnext : next offset (c :: rest) = .error (.malformed (String.ofList (c :: rest)) fault) := by
    rw [next, if_neg hgap, h]
  exact scan_of_next_error hnext

end Scan

variable {offset : Nat} {text : List Char}

/-- A scan that finds tokens up to the end has found all spots. -/
theorem spots_of_scan_ok {found : List Token} (h : scan offset text = .ok found) :
    spots offset text = found.map spot := by
  fun_induction spots offset text generalizing found with
  | case1 offset =>
    rw [scan_of_next_none rfl] at h
    cases h
    rfl
  | case2 offset c rest hgap ih =>
    rw [scan_gap hgap] at h
    exact ih h
  | case3 offset c rest hgap lexeme behind hscan _ ih =>
    rw [scan_of_lexeme hgap hscan] at h
    obtain ⟨more, hmore, rfl⟩ := map_eq_ok_iff.1 h
    rw [ih hmore]
    rfl
  | case4 offset c rest hgap fault hscan ih =>
    rw [scan_of_fault hgap hscan] at h
    cases h

/-- A scan that fails does so at the first spot where nothing can be read. What stands in front of it
spells the tokens up to there. -/
theorem spots_of_scan_error {fault : QueryFault} (h : scan offset text = .error fault) :
    ∃ (found : List Token) (wrong : TextFault) (front : List Char) (c : Char) (rest : List Char)
        (behind : List Spot),
      text = front ++ c :: rest ∧ Spells offset front found ∧ isGap c = false ∧
      Lexeme.scan c rest = .error wrong ∧
      spots offset text = found.map spot ++ ⟨.error wrong, offset + Text.unitLength front⟩ :: behind ∧
      fault = .malformed (String.ofList (c :: rest)) wrong := by
  fun_induction spots offset text with
  | case1 offset =>
    rw [scan_of_next_none rfl] at h
    cases h
  | case2 offset c rest hgap ih =>
    rw [scan_gap hgap] at h
    obtain ⟨found, wrong, front, d, last, behind, rfl, hfront, hd, hwrong, hspots, hfault⟩ := ih h
    refine ⟨found, wrong, c :: front, d, last, behind, rfl, .gap hgap hfront, hd, hwrong, ?_, hfault⟩
    rw [hspots, Text.unitLength_cons, width_of_isGap hgap, Nat.add_assoc]
  | case3 offset c rest hgap lexeme behind hscan _ ih =>
    rw [scan_of_lexeme hgap hscan, map_eq_error_iff] at h
    obtain ⟨found, wrong, front, d, last, more, rfl, hfront, hd, hwrong, hspots, hfault⟩ := ih h
    obtain ⟨hw, he⟩ := Lexeme.wellFormed_of_scan hscan
    refine ⟨⟨lexeme, offset⟩ :: found, wrong, lexeme.chars ++ front, d, last, more, ?_,
      .token hw he.of_append hfront, hd, hwrong, ?_, hfault⟩
    · rw [List.append_assoc, Lexeme.chars_append_of_scan hscan]
    · rw [hspots, Text.unitLength_append, Nat.add_assoc]
      rfl
  | case4 offset c rest hgap wrong hscan ih =>
    rw [scan_of_fault hgap hscan] at h
    cases h
    exact ⟨[], wrong, [], c, rest, _, rfl, .nil offset, Bool.eq_false_iff.2 hgap, hscan, rfl, rfl⟩

end Token

end VoxelQuery
