import VoxelQuery.Proofs.Query.Denotation
import VoxelQuery.Proofs.Query.Spots

/-! Everything that is wrong with a segment, place by place, and which of it is reported. A segment
is checked in stages: first whether it can be read to its end, then term by term, and at last whether
a bang is left over. The first defect of the first stage that has any is the one reported. -/
namespace VoxelQuery

/-- A segment, with the offset at which it starts in the whole text. -/
structure Place where
  start : Nat
  text : String

/-- Something that is wrong by itself, with its offset in the segment and the error that tells it. -/
structure Defect where
  start : Nat
  offset : Nat
  error : QueryError
  deriving DecidableEq

def QueryFault.stage : QueryFault → Nat
  | .malformed _ (.nameExpected _) => 0
  | .malformed _ .groupOpen => 0
  | .malformed _ .strayCharacter => 0
  | .malformed _ .bangWithoutTerm => 2
  | _ => 1

/-- A name behind a sigil that stands for nothing. -/
def Sigil.unknown : Sigil → String → QueryFault
  | .typeTag => .unknownTypeTag
  | .strictTypeTag => .unknownTypeTag
  | .material => .unknownMaterial
  | .reference => .unknownQuery

theorem QueryFault.stage_of_scan_error {c : Char} {rest : List Char} {wrong : TextFault}
    (h : Lexeme.scan c rest = .error wrong) (remainder : String) :
    (malformed remainder wrong).stage = 0 := by
  unfold Lexeme.scan at h
  split at h
  · cases h
  · split at h
    · cases h
    · split at h
      · split at h
        · cases h
          rfl
        · cases h
      · split at h
        · split at h
          · cases h
            rfl
          · cases h
        · cases h
          rfl

namespace Defect

/-- The offset in the whole text. -/
def position (d : Defect) : Nat := d.start + d.offset

def stage (d : Defect) : Nat := d.error.fault.stage

/-- Segment by segment, within a segment stage by stage, and within a stage from left to right. -/
def Precedes (d d' : Defect) : Prop :=
  d.start < d'.start ∨
    d.start = d'.start ∧ (d.stage < d'.stage ∨ d.stage = d'.stage ∧ d.offset < d'.offset)

instance (d d' : Defect) : Decidable (d.Precedes d') := by
  unfold Precedes
  infer_instance

theorem Precedes.asymm {d d' : Defect} (h : d.Precedes d') : ¬d'.Precedes d := by
  unfold Precedes at *
  omega

end Defect

/-- The result is an error if and only if there is a defect, and then it is the error of the one
before all others. -/
def Explains {α : Type} (l : List Defect) : Except QueryError α → Prop
  | .ok _ => l = []
  | .error e => ∃ d ∈ l, d.error = e ∧ ∀ d' ∈ l, d' = d ∨ d.Precedes d'

section Explanation

variable {α β : Type}

theorem explains_map_iff {l : List Defect} {x : Except QueryError α} {f : α → β} :
    Explains l (x.map f) ↔ Explains l x := by
  cases x <;> rfl

theorem explains_of_append_cons {early late : List Defect} {d : Defect} {e : QueryError}
    (he : d.error = e) (hearly : ∀ d' ∈ early, d.Precedes d') (hlate : ∀ d' ∈ late, d.Precedes d') :
    Explains (early ++ d :: late) (.error e : Except QueryError α) := by
  refine ⟨d, by simp, he, fun d' hd' => ?_⟩
  rcases List.mem_append.1 hd' with hd' | hd'
  · exact .inr (hearly d' hd')
  · rcases List.mem_cons.1 hd' with rfl | hd'
    · exact .inl rfl
    · exact .inr (hlate d' hd')

end Explanation

namespace Environment

variable (env : Environment)

/-- What is wrong with a spot of a segment, given the spot in front of it and all spots behind it. -/
def faultsAt (segment : String) (previous : Option Spot) (s : Spot) (behind : List Spot) :
    List QueryFault :=
  let malformed (fault : TextFault) : QueryFault :=
    .malformed (String.ofList (Text.dropUnits s.offset segment.toList)) fault
  match s.found with
  | .error fault => [malformed fault]
  | .ok .bang =>
    (if previous.any Spot.isBang then [malformed .bangRepeated] else []) ++
      if behind.any Spot.isTerm then [] else [malformed .bangWithoutTerm]
  | .ok (.bare name) => if (env.identifier? name).isSome then [] else [.unknownBlock name]
  | .ok (.marked sigil name) =>
    if (env.atomPredicate? (.marked sigil name)).isSome then [] else [sigil.unknown name]
  | .ok (.group interior) =>
    match (groupItems interior).find? fun item => (PropertyItem.parse? item).isNone with
    | some item => [malformed (.itemInvalid item)]
    | none => []

def defectsAt (place : Place) (previous : Option Spot) (s : Spot) (behind : List Spot) :
    List Defect :=
  (env.faultsAt place.text previous s behind).map fun fault =>
    ⟨place.start, s.offset, ⟨place.text, fault⟩⟩

/-- The defects of spots that stand behind one that is given. -/
def defectsFrom (place : Place) : Option Spot → List Spot → List Defect
  | _, [] => []
  | previous, s :: behind =>
    env.defectsAt place previous s behind ++ defectsFrom place (some s) behind

def defectsOf (place : Place) : List Defect :=
  env.defectsFrom place none (spots 0 place.text.toList)

variable {env} {place : Place} {previous : Option Spot} {behind l : List Spot} {s : Spot}

section Members

theorem exists_of_mem_defectsFrom {d : Defect} (h : d ∈ env.defectsFrom place previous l) :
    ∃ s ∈ l, ∃ p b, d ∈ env.defectsAt place p s b := by
  induction l generalizing previous with
  | nil => cases h
  | cons s rest ih =>
    rcases List.mem_append.1 h with h | h
    · exact ⟨s, List.mem_cons_self, previous, rest, h⟩
    · obtain ⟨s', hs', hd⟩ := ih h
      exact ⟨s', List.mem_cons_of_mem _ hs', hd⟩

theorem exists_defectsAt_subset (hs : s ∈ l) :
    ∃ p b, ∀ d ∈ env.defectsAt place p s b, d ∈ env.defectsFrom place previous l := by
  induction l generalizing previous with
  | nil => cases hs
  | cons first rest ih =>
    rcases List.mem_cons.1 hs with rfl | hs
    · exact ⟨previous, rest, fun d hd => List.mem_append_left _ hd⟩
    · obtain ⟨p, b, hsub⟩ := @ih (some first) hs
      exact ⟨p, b, fun d hd => List.mem_append_right _ (hsub d hd)⟩

theorem start_of_mem_defectsAt {d : Defect} (h : d ∈ env.defectsAt place previous s behind) :
    d.start = place.start ∧ d.offset = s.offset := by
  obtain ⟨fault, -, rfl⟩ := List.mem_map.1 h
  exact ⟨rfl, rfl⟩

/-- Where a lexeme can be read, all that can be wrong is found at a later stage. -/
theorem stage_pos_of_mem_faultsAt {segment : String} {t : Token} {fault : QueryFault}
    (h : fault ∈ env.faultsAt segment previous t.spot behind) : 0 < fault.stage := by
  obtain ⟨lexeme, offset⟩ := t
  cases lexeme with
  | bang =>
    simp only [faultsAt, Token.spot, List.mem_append] at h
    rcases h with h | h
    · split at h
      · rw [List.mem_singleton.1 h]
        exact Nat.one_pos
      · cases h
    · split at h
      · cases h
      · rw [List.mem_singleton.1 h]
        exact Nat.two_pos
  | bare name =>
    simp only [faultsAt, Token.spot] at h
    split at h
    · cases h
    · rw [List.mem_singleton.1 h]
      exact Nat.one_pos
  | marked sigil name =>
    simp only [faultsAt, Token.spot] at h
    split at h
    · cases h
    · rw [List.mem_singleton.1 h]
      cases sigil <;> exact Nat.one_pos
  | group interior =>
    simp only [faultsAt, Token.spot] at h
    split at h
    · rw [List.mem_singleton.1 h]
      exact Nat.one_pos
    · cases h

end Members

section Terms

theorem find?_of_mapM_itemPredicate {items : List String} {fault : TextFault}
    (h : items.mapM env.itemPredicate = .error fault) :
    ∃ item, items.find? (fun item => (PropertyItem.parse? item).isNone) = some item ∧
      fault = .itemInvalid item := by
  obtain ⟨before, item, behind, rfl, hbefore, hitem⟩ := exists_of_mapM_eq_error h
  have hparse : PropertyItem.parse? item = none ∧ fault = .itemInvalid item := by
    rw [itemPredicate] at hitem
    split at hitem
    · cases hitem
    · next hnone =>
      cases hitem
      exact ⟨hnone, rfl⟩
  refine ⟨item, List.find?_eq_some_iff_append.2 ⟨by simp [hparse.1], before, behind, rfl, ?_⟩, hparse.2⟩
  intro other hother
  obtain ⟨p, hp⟩ := hbefore other hother
  obtain ⟨found, hfound, -⟩ := itemPredicate_eq_ok_iff.1 hp
  simp [hfound]

theorem markedPredicate_eq_error_iff {sigil : Sigil} {name : String} {fault : QueryFault} :
    env.markedPredicate sigil name = .error fault ↔
      env.atomPredicate? (.marked sigil name) = none ∧ fault = sigil.unknown name := by
  cases sigil with
  | typeTag =>
    cases h : env.typeTag? name <;> simp [markedPredicate, atomPredicate?, Sigil.unknown, h, eq_comm]
  | strictTypeTag =>
    cases h : env.typeTag? name <;> simp [markedPredicate, atomPredicate?, Sigil.unknown, h, eq_comm]
  | material =>
    cases h : env.material? name <;> simp [markedPredicate, atomPredicate?, Sigil.unknown, h, eq_comm]
  | reference =>
    cases h : env.query? name <;> simp [markedPredicate, atomPredicate?, Sigil.unknown, h, eq_comm]

theorem faultsAt_of_ok {segment : String} {t : Token} {p : Predicate}
    (h : env.termPredicate segment t = .ok p) :
    env.faultsAt segment previous t.spot behind = [] := by
  obtain ⟨atom, hatom, hp⟩ := termPredicate_eq_ok_iff.1 h
  obtain ⟨lexeme, offset⟩ := t
  cases hatom with
  | bare name =>
    obtain ⟨identifier, hid, -⟩ := Option.map_eq_some_iff.1 hp
    simp [faultsAt, Token.spot, hid]
  | marked sigil name => simp [faultsAt, Token.spot, hp]
  | @group interior items hitems =>
    have hread := forall_exists_iff_forall₂.2 ⟨items, forall₂_parse?_iff.2 hitems⟩
    have hnone : (groupItems interior).find? (fun item => (PropertyItem.parse? item).isNone) = none := by
      refine List.find?_eq_none.2 fun item hitem => ?_
      obtain ⟨found, hfound⟩ := hread item hitem
      simp [hfound]
    simp [faultsAt, Token.spot, hnone]

theorem faultsAt_of_error {segment : String} {t : Token} {fault : QueryFault}
    (hbang : t.lexeme ≠ .bang) (h : env.termPredicate segment t = .error fault) :
    env.faultsAt segment previous t.spot behind = [fault] ∧ fault.stage = 1 := by
  obtain ⟨lexeme, offset⟩ := t
  cases lexeme with
  | bang => exact absurd rfl hbang
  | bare name =>
    simp only [termPredicate] at h
    cases hid : env.identifier? name with
    | none =>
      rw [hid] at h
      cases h
      exact ⟨by simp [faultsAt, Token.spot, hid], rfl⟩
    | some identifier =>
      rw [hid] at h
      cases h
  | marked sigil name =>
    obtain ⟨hnone, rfl⟩ := markedPredicate_eq_error_iff.1 h
    refine ⟨by simp [faultsAt, Token.spot, hnone], ?_⟩
    cases sigil <;> rfl
  | group interior =>
    simp only [termPredicate] at h
    split at h
    · cases h
    · next wrong hwrong =>
      cases h
      obtain ⟨item, hitem, rfl⟩ := find?_of_mapM_itemPredicate (map_eq_error_iff.1 hwrong)
      refine ⟨?_, rfl⟩
      simp only [faultsAt, Token.spot, hitem]
      rfl

end Terms

section Segments

theorem faultsAt_bang (segment : String) {bang : Token} (hbang : bang.lexeme = .bang) :
    env.faultsAt segment previous bang.spot behind =
      (if previous.any Spot.isBang then
        [.malformed (remainder segment bang) .bangRepeated] else []) ++
      if behind.any Spot.isTerm then []
      else [.malformed (remainder segment bang) .bangWithoutTerm] := by
  simp only [faultsAt, Token.found_spot, hbang]
  rfl

theorem stage_of_mem_faultsAt_bang {segment : String} {bang : Token} {fault : QueryFault}
    (hbang : bang.lexeme = .bang) (hprevious : previous.any Spot.isBang = false)
    (h : fault ∈ env.faultsAt segment previous bang.spot behind) : fault.stage = 2 := by
  rw [faultsAt_bang _ hbang, hprevious, if_neg Bool.false_ne_true, List.nil_append] at h
  split at h
  · cases h
  · rw [List.mem_singleton.1 h]
    rfl

/-- Of two defects in a segment that can be read, the one further left precedes the other, unless it
is a bang without a term. -/
theorem precedes_of_mem_defectsFrom {d d' : Defect} {found : List Token}
    (hd' : d' ∈ env.defectsFrom place previous (found.map Token.spot)) (hstart : d.start = place.start)
    (hstage : d.stage ≤ 1) (hoffset : ∀ t ∈ found, d.offset < t.offset) : d.Precedes d' := by
  obtain ⟨s, hs, p, b, hmem⟩ := exists_of_mem_defectsFrom hd'
  obtain ⟨t, ht, rfl⟩ := List.mem_map.1 hs
  obtain ⟨fault, hfault, rfl⟩ := List.mem_map.1 hmem
  have hpos := stage_pos_of_mem_faultsAt hfault
  have hlt := hoffset t ht
  refine .inr ⟨hstart, ?_⟩
  show d.stage < fault.stage ∨ d.stage = fault.stage ∧ d.offset < t.offset
  omega

/-- The bang that waits has no defect if a term is next. -/
theorem exists_defectsFrom_term {waiting : Option Token} {t : Token} {rest : List Token}
    (hwaiting : ∀ bang ∈ waiting, bang.lexeme = .bang) (hprevious : previous.any Spot.isBang = false)
    (ht : t.lexeme ≠ .bang) :
    ∃ p, env.defectsFrom place previous ((waiting.toList ++ t :: rest).map Token.spot) =
      env.defectsAt place p t.spot (rest.map Token.spot) ++
        env.defectsFrom place (some t.spot) (rest.map Token.spot) := by
  cases waiting with
  | none => exact ⟨previous, rfl⟩
  | some bang =>
    have hfaults : env.faultsAt place.text previous bang.spot ((t :: rest).map Token.spot) = [] := by
      rw [faultsAt_bang _ (hwaiting bang rfl), hprevious, List.map_cons, List.any_cons,
        Token.isTerm_spot.2 ht]
      rfl
    refine ⟨some bang.spot, ?_⟩
    show env.defectsAt place previous bang.spot ((t :: rest).map Token.spot) ++ _ = _
    rw [defectsAt, hfaults]
    rfl

/-- That a bang waits is found only at the end, so the bang behind it is reported first. -/
theorem explains_bangRepeated {α : Type} {bang t : Token} {rest : List Token}
    (hbang : bang.lexeme = .bang) (ht : t.lexeme = .bang)
    (hprevious : previous.any Spot.isBang = false) (hbehind : ∀ t' ∈ rest, t.offset < t'.offset) :
    Explains (env.defectsFrom place previous ((bang :: t :: rest).map Token.spot))
      (.error ⟨place.text, .malformed (remainder place.text t) .bangRepeated⟩ :
        Except QueryError α) := by
  have hfaults : env.faultsAt place.text (some bang.spot) t.spot (rest.map Token.spot) =
      .malformed (remainder place.text t) .bangRepeated ::
        if (rest.map Token.spot).any Spot.isTerm then []
        else [.malformed (remainder place.text t) .bangWithoutTerm] := by
    rw [faultsAt_bang _ ht, Option.any_some, Token.isBang_spot.2 hbang]
    rfl
  rw [List.map_cons, List.map_cons, defectsFrom, defectsFrom, defectsAt, defectsAt, hfaults,
    List.map_cons, List.cons_append]
  refine explains_of_append_cons rfl (fun d' hd' => ?_) (fun d' hd' => ?_)
  · obtain ⟨fault, hfault, rfl⟩ := List.mem_map.1 hd'
    have hstage := stage_of_mem_faultsAt_bang hbang hprevious hfault
    refine .inr ⟨rfl, .inl ?_⟩
    show 1 < fault.stage
    omega
  · rcases List.mem_append.1 hd' with hd' | hd'
    · split at hd'
      · cases hd'
      · rw [List.mem_singleton.1 hd']
        exact .inr ⟨rfl, .inl Nat.one_lt_two⟩
    · exact precedes_of_mem_defectsFrom hd' rfl (Nat.le_refl 1) hbehind

/-- Along the terms, the defect that is reported is the first one, save that a bang without a term is
found last. The bang that waits is the first of the spots that are left. -/
theorem explains_termPredicates {waiting : Option Token} {found : List Token}
    (hwaiting : ∀ bang ∈ waiting, bang.lexeme = .bang) (hprevious : previous.any Spot.isBang = false)
    (hsorted : (waiting.toList ++ found).Pairwise (·.offset < ·.offset)) :
    Explains (env.defectsFrom place previous ((waiting.toList ++ found).map Token.spot))
      ((env.termPredicates place.text waiting found).mapError (QueryError.mk place.text)) := by
  induction found generalizing waiting previous with
  | nil =>
    cases waiting with
    | none => rfl
    | some bang =>
      have hfaults : env.faultsAt place.text previous bang.spot [] =
          [.malformed (remainder place.text bang) .bangWithoutTerm] := by
        rw [faultsAt_bang _ (hwaiting bang rfl), hprevious]
        rfl
      show Explains (env.defectsAt place previous bang.spot [] ++ []) _
      rw [defectsAt, hfaults]
      exact @explains_of_append_cons _ [] [] _ _ rfl (by simp) (by simp)
  | cons t rest ih =>
    have hbehind : ∀ t' ∈ rest, t.offset < t'.offset :=
      (List.pairwise_cons.1 (List.pairwise_append.1 hsorted).2.1).1
    by_cases hbang : t.lexeme = .bang
    · cases waiting with
      | none =>
        rw [termPredicates, if_pos ⟨hbang, rfl⟩]
        refine ih ?_ hprevious hsorted
        intro bang hmem
        rwa [← Option.some.inj hmem]
      | some bang =>
        have hresult : env.termPredicates place.text (some bang) (t :: rest) =
            .error (.malformed (remainder place.text t) .bangRepeated) := by
          rw [termPredicates, if_neg (by simp), termPredicate, hbang]
          rfl
        rw [hresult]
        exact explains_bangRepeated (hwaiting bang rfl) hbang hprevious hbehind
    · obtain ⟨p, hdefects⟩ :=
        @exists_defectsFrom_term env place previous waiting t rest hwaiting hprevious hbang
      rw [hdefects, termPredicates, if_neg (fun h => hbang h.1)]
      cases hp : env.termPredicate place.text t with
      | error fault =>
        obtain ⟨hfaults, hstage⟩ := faultsAt_of_error hbang hp
        rw [defectsAt, hfaults]
        refine @explains_of_append_cons _ [] _ _ _ rfl (by simp) fun d' hd' => ?_
        exact precedes_of_mem_defectsFrom hd' rfl (Nat.le_of_eq hstage) hbehind
      | ok q =>
        have hnext : Option.any Spot.isBang (some t.spot) = false := by
          rw [Option.any_some, ← Bool.not_eq_true, Token.isBang_spot]
          exact hbang
        have hrest := @ih (some t.spot) none (by simp) hnext (List.pairwise_append.1 hsorted).2.1.tail
        rw [defectsAt, faultsAt_of_ok hp]
        cases hlater : env.termPredicates place.text none rest <;>
          (rw [hlater] at hrest; exact hrest)

/-- Where no lexeme can be read, nothing else is wrong, and what is wrong is found first. -/
theorem precedes_of_unreadable {d d' : Defect} {found : List Token} {wrong : TextFault} {offset : Nat}
    (hd : d ∈ env.defectsAt place previous ⟨.error wrong, offset⟩ behind) (hd' : d' ∈
      env.defectsFrom place none (found.map Token.spot ++ ⟨.error wrong, offset⟩ :: l))
    (hstage : d.stage = 0) (hoffset : ∀ s ∈ l, offset < s.offset) : d' = d ∨ d.Precedes d' := by
  obtain ⟨s, hs, p, b, hmem⟩ := exists_of_mem_defectsFrom hd'
  obtain ⟨hstart, hplace⟩ := start_of_mem_defectsAt hd
  obtain ⟨hstart', hplace'⟩ := start_of_mem_defectsAt hmem
  have hsame : d.start = d'.start := hstart.trans hstart'.symm
  rcases List.mem_append.1 hs with hs | hs
  · obtain ⟨t, -, rfl⟩ := List.mem_map.1 hs
    obtain ⟨fault, hfault, rfl⟩ := List.mem_map.1 hmem
    refine .inr (.inr ⟨hsame, .inl ?_⟩)
    rw [hstage]
    exact stage_pos_of_mem_faultsAt hfault
  · rcases List.mem_cons.1 hs with rfl | hs
    · exact .inl ((List.mem_singleton.1 hmem).trans (List.mem_singleton.1 hd).symm)
    · have hlt := hoffset s hs
      refine .inr (.inr ⟨hsame, ?_⟩)
      have hzero : d.offset < d'.offset := by
        rw [hplace, hplace']
        exact hlt
      omega

/-- The first place where no lexeme can be read, or else the first defect along the terms. -/
theorem explains_segmentPredicate (env : Environment) (place : Place) :
    Explains (env.defectsOf place) (env.segmentPredicate place.text) := by
  have hsorted := pairwise_spots 0 place.text.toList
  cases hscan : Token.scan 0 place.text.toList with
  | ok found =>
    have hresult : env.segmentPredicate place.text =
        ((env.termPredicates place.text none found).mapError (QueryError.mk place.text)).map
          .allOf := by
      rw [segmentPredicate, tokens, hscan]
      simp only [bind, Except.bind]
      cases env.termPredicates place.text none found <;> rfl
    rw [Token.spots_of_scan_ok hscan, List.pairwise_map] at hsorted
    rw [hresult, explains_map_iff, defectsOf, Token.spots_of_scan_ok hscan]
    exact @explains_termPredicates env place none none found (by simp) rfl hsorted
  | error fault =>
    have hresult : env.segmentPredicate place.text = .error ⟨place.text, fault⟩ := by
      rw [segmentPredicate, tokens, hscan]
      rfl
    obtain ⟨found, wrong, front, c, rest, behind, htext, -, -, hwrong, hspots, rfl⟩ :=
      Token.spots_of_scan_error hscan
    rw [Nat.zero_add] at hspots
    rw [hspots] at hsorted
    have hlate := (List.pairwise_cons.1 (List.pairwise_append.1 hsorted).2.1).1
    have hrest : Text.dropUnits (Text.unitLength front) place.text.toList = c :: rest := by
      rw [htext, Text.dropUnits_unitLength_append]
    rw [hresult, defectsOf, hspots]
    obtain ⟨p, b, hsubset⟩ := @exists_defectsAt_subset env place none
      (found.map Token.spot ++ ⟨.error wrong, Text.unitLength front⟩ :: behind)
      ⟨.error wrong, Text.unitLength front⟩ (by simp)
    have hd : ⟨place.start, Text.unitLength front,
          ⟨place.text, .malformed (String.ofList (c :: rest)) wrong⟩⟩ ∈
        env.defectsAt place p ⟨.error wrong, Text.unitLength front⟩ b := by
      rw [← hrest]
      exact List.mem_singleton.2 rfl
    refine ⟨_, hsubset _ hd, rfl, fun d' hd' => ?_⟩
    exact precedes_of_unreadable hd hd' (QueryFault.stage_of_scan_error hwrong _) hlate

end Segments

end Environment

end VoxelQuery
