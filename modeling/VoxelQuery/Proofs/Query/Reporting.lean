import VoxelQuery.Proofs.Query.Defects
import VoxelQuery.Proofs.Query.Meaning
import VoxelQuery.Proofs.Query.Segments

/-! Which defect of a text is reported. Segments are compiled from left to right, so a defect in a
segment comes before all defects in later ones. Within a segment it is the stages that count, so the
defect that is reported need not be the leftmost one. -/
namespace VoxelQuery

/-- The places of segments whose uncut texts follow one another, with a comma between them. -/
def placesFrom (offset : Nat) : List (List Char) → List Place
  | [] => []
  | raw :: rest =>
    ⟨offset + Text.unitLength (raw.takeWhile Text.isBlank), String.ofList (Text.trimChars raw)⟩ ::
      placesFrom (offset + Text.unitLength raw + 1) rest

def places (text : String) : List Place := placesFrom 0 (cutSegments 0 text.toList)

/-- The offset behind a segment. -/
def Place.stop (p : Place) : Nat := p.start + Text.unitLength p.text.toList

section Places

variable {p q : Place} {offset : Nat} {raws : List (List Char)}

theorem map_text_placesFrom (offset : Nat) (raws : List (List Char)) :
    (placesFrom offset raws).map Place.text =
      raws.map fun raw => String.ofList (Text.trimChars raw) := by
  induction raws generalizing offset with
  | nil => rfl
  | cons raw rest ih => rw [placesFrom, List.map_cons, List.map_cons, ih]

/-- The text of a place stands in the whole text where the place says. -/
theorem exists_of_mem_placesFrom {front : List Char}
    (h : p ∈ placesFrom (Text.unitLength front) raws) :
    ∃ before behind, front ++ Text.joinWith ',' raws = before ++ (p.text.toList ++ behind) ∧
      p.start = Text.unitLength before := by
  induction raws generalizing front with
  | nil => cases h
  | cons raw rest ih =>
    have hjoin : ∃ tail, Text.joinWith ',' (raw :: rest) = raw ++ tail ∧
        (rest ≠ [] → tail = ',' :: Text.joinWith ',' rest) := by
      cases rest with
      | nil => exact ⟨[], (List.append_nil raw).symm, fun h => absurd rfl h⟩
      | cons second more => exact ⟨_, rfl, fun _ => rfl⟩
    obtain ⟨tail, htail, hmore⟩ := hjoin
    rcases List.mem_cons.1 h with rfl | h
    · refine ⟨front ++ raw.takeWhile Text.isBlank,
        ((Text.trimLeft raw).reverse.takeWhile Text.isBlank).reverse ++ tail, ?_, ?_⟩
      · rw [htail, String.toList_ofList, ← List.append_assoc (Text.trimChars raw),
          Text.trimChars_append_trail, List.append_assoc, ← List.append_assoc _ (Text.trimLeft raw),
          Text.trimLeft, List.takeWhile_append_dropWhile]
      · rw [Text.unitLength_append]
    · have hne : rest ≠ [] := by
        rintro rfl
        cases h
      have hfront : Text.unitLength front + Text.unitLength raw + 1 =
          Text.unitLength (front ++ (raw ++ [','])) := by
        rw [Text.unitLength_append, Text.unitLength_append, Nat.add_assoc]
        rfl
      rw [hfront] at h
      obtain ⟨before, behind, htext, hstart⟩ := ih h
      refine ⟨before, behind, ?_, hstart⟩
      rw [← htext, htail, hmore hne]
      simp

theorem exists_of_mem_places {text : String} (h : p ∈ places text) :
    ∃ before behind, text.toList = before ++ (p.text.toList ++ behind) ∧
      p.start = Text.unitLength before := by
  have hplace := @exists_of_mem_placesFrom p _ [] h
  rwa [List.nil_append, joinWith_cutSegments] at hplace

theorem le_start_of_mem_placesFrom (h : p ∈ placesFrom offset raws) : offset ≤ p.start := by
  induction raws generalizing offset with
  | nil => cases h
  | cons raw rest ih =>
    rcases List.mem_cons.1 h with rfl | h
    · exact Nat.le_add_right _ _
    · have hrest := ih h
      omega

theorem pairwise_placesFrom (offset : Nat) (raws : List (List Char)) :
    (placesFrom offset raws).Pairwise fun p q => p.stop < q.start := by
  induction raws generalizing offset with
  | nil => exact .nil
  | cons raw rest ih =>
    refine List.pairwise_cons.2 ⟨fun q hq => ?_, ih _⟩
    have hq' := le_start_of_mem_placesFrom hq
    have hlead := congrArg Text.unitLength
      (List.takeWhile_append_dropWhile (p := Text.isBlank) (l := raw))
    have htrail := congrArg Text.unitLength (Text.trimChars_append_trail raw)
    rw [Text.unitLength_append] at hlead htrail
    rw [Text.trimLeft] at htrail
    rw [Place.stop, String.toList_ofList]
    show offset + _ + _ < _
    omega

theorem stop_lt_start {l : List Place} (h : l.Pairwise fun p q => p.stop < q.start) (hp : p ∈ l)
    (hq : q ∈ l) (hlt : p.start < q.start) : p.stop < q.start := by
  induction h with
  | nil => cases hp
  | @cons first rest hfirst _ ih =>
    rcases List.mem_cons.1 hp with rfl | hp'
    · rcases List.mem_cons.1 hq with rfl | hq'
      · exact absurd hlt (Nat.lt_irrefl _)
      · exact hfirst q hq'
    · rcases List.mem_cons.1 hq with rfl | hq'
      · have hback := hfirst p hp'
        rw [Place.stop] at hback
        omega
      · exact ih hp' hq'

end Places

/-- No defect stands behind one of the same segment that is found at a later stage. So what cannot be
read stands behind no other defect of its segment, and no segment ends in two bangs. -/
def InOrder (l : List Defect) : Prop :=
  ∀ d ∈ l, ∀ d' ∈ l, d.start = d'.start → d.stage < d'.stage → d.offset < d'.offset

/-- The error is that of a defect that stands before all others. -/
def ReportsFirst (l : List Defect) (e : QueryError) : Prop :=
  ∃ d ∈ l, d.error = e ∧ ∀ d' ∈ l, d.position ≤ d'.position

namespace Environment

/-- All defects of a text. -/
def defects (env : Environment) (text : String) : List Defect :=
  (places text).flatMap env.defectsOf

variable {env : Environment} {text : String}

theorem start_of_mem_defectsOf {place : Place} {d : Defect} (h : d ∈ env.defectsOf place) :
    d.start = place.start ∧ d.offset < Text.unitLength place.text.toList := by
  obtain ⟨s, hs, p, b, hmem⟩ := exists_of_mem_defectsFrom h
  obtain ⟨hstart, hoffset⟩ := start_of_mem_defectsAt hmem
  have hbound := (offset_of_mem_spots hs).2
  rw [Nat.zero_add] at hbound
  exact ⟨hstart, hoffset ▸ hbound⟩

/-- The position of a defect counts the units of the text in front of it. -/
theorem exists_of_mem_defects {d : Defect} (h : d ∈ env.defects text) :
    ∃ before c behind, text.toList = before ++ c :: behind ∧
      d.position = Text.unitLength before := by
  obtain ⟨place, hplace, hd⟩ := List.mem_flatMap.1 h
  obtain ⟨before, behind, htext, hstart⟩ := exists_of_mem_places hplace
  obtain ⟨s, hs, p, b, hmem⟩ := exists_of_mem_defectsFrom hd
  obtain ⟨front, c, rest, hsegment, hoffset⟩ := exists_of_mem_spots hs
  obtain ⟨hstart', hoffset'⟩ := start_of_mem_defectsAt hmem
  refine ⟨before ++ front, c, rest ++ behind, ?_, ?_⟩
  · rw [htext, hsegment]
    simp
  · rw [Defect.position, hstart', hoffset', hstart, hoffset, Nat.zero_add, Text.unitLength_append]

theorem explains_mapM {l : List Place} (h : l.Pairwise fun p q => p.stop < q.start) :
    Explains (l.flatMap env.defectsOf) ((l.map Place.text).mapM env.segmentPredicate) := by
  induction h with
  | nil => rfl
  | @cons p rest hrest _ ih =>
    rw [List.flatMap_cons, List.map_cons, List.mapM_cons]
    have hp := explains_segmentPredicate env p
    cases hresult : env.segmentPredicate p.text with
    | ok q =>
      rw [hresult] at hp
      have hnone : env.defectsOf p = [] := hp
      rw [hnone, List.nil_append]
      cases hmore : (rest.map Place.text).mapM env.segmentPredicate <;>
        (rw [hmore] at ih; exact ih)
    | error e =>
      rw [hresult] at hp
      obtain ⟨d, hd, he, hfirst⟩ := hp
      refine ⟨d, List.mem_append_left _ hd, he, fun d' hd' => ?_⟩
      rcases List.mem_append.1 hd' with hd' | hd'
      · exact hfirst d' hd'
      · obtain ⟨q, hq, hd'⟩ := List.mem_flatMap.1 hd'
        have hlt := hrest q hq
        have hstart := (start_of_mem_defectsOf hd).1
        have hstart' := (start_of_mem_defectsOf hd').1
        rw [Place.stop] at hlt
        exact .inr (.inl (by omega))

/-- The empty segments that are left out at the end of a text have no defects. -/
theorem explains_compile (env : Environment) (text : String) :
    Explains (env.defects text) (env.compile text) := by
  have hall : Explains (env.defects text)
      (((places text).map Place.text).mapM env.segmentPredicate) :=
    explains_mapM (pairwise_placesFrom 0 _)
  obtain ⟨n, hcuts⟩ :=
    exists_dropTrailingEmpty_append ((cutSegments 0 text.toList).map Text.trimChars)
  have htexts : (places text).map Place.text = segments text ++ List.replicate n "" := by
    have hmap : ((cutSegments 0 text.toList).map fun raw => String.ofList (Text.trimChars raw)) =
        ((cutSegments 0 text.toList).map Text.trimChars).map String.ofList := by
      rw [List.map_map]
      rfl
    rw [places, map_text_placesFrom, hmap, ← hcuts, List.map_append, List.map_replicate]
    rfl
  rw [htexts] at hall
  rw [compile, explains_map_iff]
  cases hresult : (segments text).mapM env.segmentPredicate with
  | ok predicates =>
    rw [mapM_append_of_ok hresult, explains_map_iff] at hall
    have hempty : ∀ segment ∈ List.replicate n "", ∃ p, env.segmentPredicate segment = .ok p := by
      intro segment hsegment
      rw [List.eq_of_mem_replicate hsegment]
      exact ⟨_, segmentPredicate_eq_ok_iff.2 ⟨[], .nil, [], .nil, rfl⟩⟩
    obtain ⟨more, hmore⟩ := forall_exists_iff_forall₂.1 hempty
    rw [mapM_eq_ok_iff.2 hmore] at hall
    exact hall
  | error e => rwa [mapM_append_of_error hresult] at hall

/-- In order, the defect that comes first by segment, stage and place is the leftmost one. -/
theorem position_le_of_precedes {d d' : Defect} (hd : d ∈ env.defects text)
    (hd' : d' ∈ env.defects text) (horder : InOrder (env.defects text)) (h : d.Precedes d') :
    d.position ≤ d'.position := by
  obtain ⟨p, hp, hdp⟩ := List.mem_flatMap.1 hd
  obtain ⟨q, hq, hdq⟩ := List.mem_flatMap.1 hd'
  obtain ⟨hstart, hoffset⟩ := start_of_mem_defectsOf hdp
  have hstart' := (start_of_mem_defectsOf hdq).1
  rw [Defect.position, Defect.position]
  rcases h with hlt | ⟨hsame, hstage | ⟨-, hlt⟩⟩
  · have hstop := stop_lt_start (pairwise_placesFrom 0 _) hp hq (by omega)
    rw [Place.stop] at hstop
    omega
  · have hlt := horder d hd d' hd' hsame hstage
    omega
  · omega

/-- The error of a text is that of the defect that comes first by segment, stage and place. As long
as every segment has its defects in the order of the stages, it is the leftmost defect of the text. -/
theorem compile_reports (env : Environment) (text : String) (e : QueryError) :
    (env.compile text = .error e ↔
      ∃ d ∈ env.defects text, d.error = e ∧ ∀ d' ∈ env.defects text, d' = d ∨ d.Precedes d') ∧
    (InOrder (env.defects text) → env.compile text = .error e →
      ReportsFirst (env.defects text) e) := by
  have hexplains := explains_compile env text
  have hforward : env.compile text = .error e →
      ∃ d ∈ env.defects text, d.error = e ∧ ∀ d' ∈ env.defects text, d' = d ∨ d.Precedes d' := by
    intro he
    rw [he] at hexplains
    exact hexplains
  refine ⟨⟨hforward, ?_⟩, fun horder he => ?_⟩
  · rintro ⟨d, hd, rfl, hfirst⟩
    cases hresult : env.compile text with
    | ok p =>
      rw [hresult] at hexplains
      have hnone : env.defects text = [] := hexplains
      rw [hnone] at hd
      cases hd
    | error e =>
      rw [hresult] at hexplains
      obtain ⟨d', hd', rfl, hfirst'⟩ := hexplains
      -- Only one defect can precede all others.
      rcases hfirst d' hd' with rfl | hlt
      · rfl
      · rcases hfirst' d hd with rfl | hlt'
        · rfl
        · exact absurd hlt' hlt.asymm
  · obtain ⟨d, hd, he, hfirst⟩ := hforward he
    refine ⟨d, hd, he, fun d' hd' => ?_⟩
    rcases hfirst d' hd' with rfl | hlt
    · exact Nat.le_refl _
    · exact position_le_of_precedes hd hd' horder hlt

/-- Two names that stand for nothing come before what cannot be read, in another segment. -/
theorem compile_reports_quarry :
    quarry.compile "ore !%Wall, # ore" = .error ⟨"ore !%Wall", .unknownBlock "ore"⟩ ∧
      InOrder (quarry.defects "ore !%Wall, # ore") ∧
      ReportsFirst (quarry.defects "ore !%Wall, # ore") ⟨"ore !%Wall", .unknownBlock "ore"⟩ := by
  have hcompile :
      quarry.compile "ore !%Wall, # ore" = .error ⟨"ore !%Wall", .unknownBlock "ore"⟩ := by cbv
  have hdefects : quarry.defects "ore !%Wall, # ore" =
      [⟨0, 0, ⟨"ore !%Wall", .unknownBlock "ore"⟩⟩, ⟨0, 5, ⟨"ore !%Wall", .unknownTypeTag "Wall"⟩⟩,
        ⟨12, 0, ⟨"# ore", .malformed "# ore" .strayCharacter⟩⟩,
        ⟨12, 2, ⟨"# ore", .unknownBlock "ore"⟩⟩] := by cbv
  have horder : InOrder (quarry.defects "ore !%Wall, # ore") := by
    rw [hdefects]
    unfold InOrder
    decide
  exact ⟨hcompile, horder, (compile_reports _ _ _).2 horder hcompile⟩

/-- In one segment, what cannot be read is reported although a name further left stands for nothing. -/
theorem not_reportsFirst_obsidian :
    ∃ e, quarry.compile "obsidian #" = .error e ∧
      ¬ReportsFirst (quarry.defects "obsidian #") e := by
  refine ⟨⟨"obsidian #", .malformed "#" .strayCharacter⟩, by cbv, ?_⟩
  have hdefects : quarry.defects "obsidian #" =
      [⟨0, 0, ⟨"obsidian #", .unknownBlock "obsidian"⟩⟩,
        ⟨0, 9, ⟨"obsidian #", .malformed "#" .strayCharacter⟩⟩] := by cbv
  rw [hdefects]
  unfold ReportsFirst
  decide

end Environment

end VoxelQuery
