import VoxelQuery.Proofs.Query.Defects
import VoxelQuery.Proofs.Query.Meaning
import VoxelQuery.Proofs.Query.Recutting
import VoxelQuery.Proofs.Query.Rendering

/-! Where an error points. Its fragment is a segment of the text, and all segments before it
compile. Within the fragment it shows either the place where reading stops or the first name that
stands for nothing. -/
namespace VoxelQuery

/-- The name that stands for nothing. -/
def QueryFault.name? : QueryFault → Option String
  | malformed _ _ => none
  | unknownBlock name => some name
  | unknownTypeTag name => some name
  | unknownMaterial name => some name
  | unknownQuery name => some name

/-- What is wrong at the start of the rest of a segment, behind the tokens in front of it. -/
inductive Offends (front : List Token) : TextFault → List Char → Prop
  | stray {c : Char} {rest : List Char} (hbang : c ≠ '!') (hname : Text.isIdentifierPart c = false)
      (hsigil : ∀ sigil : Sigil, c ≠ sigil.symbol) (hopen : c ≠ '[') (hgap : isGap c = false) :
      Offends front .strayCharacter (c :: rest)
  | nameless (sigil : Sigil) {rest : List Char} (h : ∀ c ∈ rest.head?, Text.isWordPart c = false) :
      Offends front (.nameExpected sigil.symbol) (sigil.symbol :: rest)
  | unclosed {rest : List Char} (h : ']' ∉ rest) : Offends front .groupOpen ('[' :: rest)
  | repeated {early : List Token} {bang : Token} {rest : List Char}
      (hfront : front = early ++ [bang]) (hbang : bang.lexeme = .bang) :
      Offends front .bangRepeated ('!' :: rest)
  | alone {rest : List Char} (h : ∀ c ∈ rest, isGap c = true) :
      Offends front .bangWithoutTerm ('!' :: rest)
  | item {item : String} {interior behind : List Char} (hclose : ']' ∉ interior)
      (hitem : item ∈ groupItems (String.ofList interior))
      (h : ∀ found, ¬ItemText item.toList found) :
      Offends front (.itemInvalid item) ('[' :: (interior ++ ']' :: behind))

namespace Environment

/-- A lexeme whose name stands for nothing, and the error that tells it. -/
inductive Unknown (env : Environment) : Lexeme → QueryFault → Prop
  | block {name : String} (h : env.identifier? name = none) :
      env.Unknown (.bare name) (.unknownBlock name)
  | typeTag {name : String} (h : env.typeTag? name = none) :
      env.Unknown (.marked .typeTag name) (.unknownTypeTag name)
  | strictTypeTag {name : String} (h : env.typeTag? name = none) :
      env.Unknown (.marked .strictTypeTag name) (.unknownTypeTag name)
  | material {name : String} (h : env.material? name = none) :
      env.Unknown (.marked .material name) (.unknownMaterial name)
  | query {name : String} (h : env.query? name = none) :
      env.Unknown (.marked .reference name) (.unknownQuery name)

/-- Each of the tokens that is a term has its predicate. -/
def TermsCompile (env : Environment) (segment : String) (found : List Token) : Prop :=
  ∀ t ∈ found, t.lexeme ≠ .bang → ∃ p, env.termPredicate segment t = .ok p

/-- Where an error points in its segment. The text in front of a remainder can be read, and so can
the whole segment of a name that stands for nothing. -/
inductive Shows (env : Environment) (segment : String) : QueryFault → Prop
  | place {front remainder : String} {found : List Token} {wrong : TextFault} (hne : remainder ≠ "")
      (hsegment : segment = front ++ remainder) (hfront : tokens front = .ok found)
      (h : Offends found wrong remainder.toList) : env.Shows segment (.malformed remainder wrong)
  | name {name : String} {before behind : List Token} {t : Token} {fault : QueryFault}
      (hname : fault.name? = some name)
      (hsegment : tokens segment = .ok (before ++ t :: behind)) (hvalue : t.lexeme.value = name)
      (hbefore : env.TermsCompile segment before) (h : env.Unknown t.lexeme fault) :
      env.Shows segment fault

end Environment

theorem Offends.of_scan {front : List Token} {c : Char} {rest : List Char} {wrong : TextFault}
    (hgap : isGap c = false) (h : Lexeme.scan c rest = .error wrong) :
    Offends front wrong (c :: rest) := by
  unfold Lexeme.scan at h
  split at h
  · cases h
  next hbang =>
  split at h
  · cases h
  next hname =>
  split at h
  next sigil hsigil =>
    split at h
    · next hword =>
      cases h
      obtain rfl := Sigil.eq_symbol_of_ofSymbol? hsigil
      refine .nameless sigil fun d hd => ?_
      cases rest with
      | nil => cases hd
      | cons first more =>
        cases hd
        simpa using hword
    · cases h
  next hsigil =>
  split at h
  · next hopen =>
    split at h
    · next hclose =>
      cases h
      subst hopen
      exact .unclosed fun hmem => by simpa using List.dropWhile_eq_nil_iff.1 hclose _ hmem
    · cases h
  · next hopen =>
    cases h
    refine .stray hbang (Bool.eq_false_iff.2 hname) (fun sigil heq => ?_) hopen hgap
    rw [heq, Sigil.ofSymbol?_symbol] at hsigil
    cases hsigil

namespace Token

/-- A token that a text spells starts where its offset says, and the text in front of it spells the
tokens in front of it. -/
theorem Spells.exists_front {offset : Nat} {text : List Char} {found before behind : List Token}
    {t : Token} (h : Spells offset text found) (hfound : found = before ++ t :: behind) :
    ∃ front rest next, text = front ++ (t.lexeme.chars ++ rest) ∧
      t.offset = offset + Text.unitLength front ∧ t.lexeme.WellFormed ∧
      Spells offset front before ∧ Spells next rest behind := by
  induction h generalizing before with
  | nil offset => cases before <;> cases hfound
  | @gap offset c text found hc tail ih =>
    obtain ⟨front, rest, next, rfl, hoffset, hw, hfront, hrest⟩ := ih hfound
    refine ⟨c :: front, rest, next, rfl, ?_, hw, .gap hc hfront, hrest⟩
    rw [hoffset, Text.unitLength_cons, width_of_isGap hc, Nat.add_assoc]
  | @token offset lexeme text found hw he tail ih =>
    cases before with
    | nil =>
      obtain ⟨rfl, rfl⟩ := List.cons.inj hfound
      exact ⟨[], text, _, rfl, rfl, hw, .nil offset, tail⟩
    | cons first before =>
      obtain ⟨rfl, hmore⟩ := List.cons.inj hfound
      obtain ⟨front, rest, next, rfl, hoffset, hw', hfront, hrest⟩ := ih hmore
      refine ⟨lexeme.chars ++ front, rest, next, by rw [List.append_assoc], ?_, hw',
        .token hw he.of_append hfront, hrest⟩
      rw [hoffset, Text.unitLength_append, Nat.add_assoc]

end Token

namespace Environment

variable {env : Environment} {segment : String} {t : Token} {fault : QueryFault}

/-- A remainder starts with its token, and the segment in front of it has the tokens in front. -/
theorem exists_front_of_tokens {before behind : List Token}
    (h : tokens segment = .ok (before ++ t :: behind)) :
    ∃ front rest, segment = front ++ remainder segment t ∧ tokens front = .ok before ∧
      (remainder segment t).toList = t.lexeme.chars ++ rest ∧ t.lexeme.WellFormed ∧
      (behind = [] → ∀ c ∈ rest, isGap c = true) := by
  obtain ⟨front, rest, next, htext, hoffset, hw, hfront, hrest⟩ :=
    (tokens_eq_ok_iff.1 h).exists_front rfl
  have hremainder : (remainder segment t).toList = t.lexeme.chars ++ rest := by
    rw [remainder, String.toList_ofList, htext, hoffset, Nat.zero_add,
      Text.dropUnits_unitLength_append]
  refine ⟨String.ofList front, rest, ?_, ?_, hremainder, hw, ?_⟩
  · rw [← String.toList_inj, String.toList_append, hremainder, htext, String.toList_ofList]
  · rwa [tokens_eq_ok_iff, String.toList_ofList]
  · rintro rfl
    exact hrest.all_gaps

/-- The token at which the terms of a segment stop, with the tokens in front of it and behind it. -/
inductive Stops (env : Environment) (segment : String) (before : List Token) (t : Token)
    (behind : List Token) : QueryFault → Prop
  | alone (hbang : t.lexeme = .bang) (hbehind : behind = []) :
      env.Stops segment before t behind (.malformed (remainder segment t) .bangWithoutTerm)
  | repeated {early : List Token} {bang : Token} (hbang : t.lexeme = .bang)
      (hfront : before = early ++ [bang]) (hfirst : bang.lexeme = .bang) :
      env.Stops segment before t behind (.malformed (remainder segment t) .bangRepeated)
  | term {fault : QueryFault} (hterm : t.lexeme ≠ .bang)
      (h : env.termPredicate segment t = .error fault) : env.Stops segment before t behind fault

theorem Stops.prepend {before behind : List Token} (front : List Token)
    (h : env.Stops segment before t behind fault) :
    env.Stops segment (front ++ before) t behind fault := by
  cases h with
  | alone hbang hbehind => exact .alone hbang hbehind
  | repeated hbang hfront hfirst =>
    exact .repeated hbang (by rw [hfront, List.append_assoc]) hfirst
  | term hterm h => exact .term hterm h

/-- A bang that waits is the first of the tokens that are left. -/
theorem exists_stops_of_termPredicates {waiting : Option Token} {found : List Token}
    (hwaiting : ∀ bang ∈ waiting, bang.lexeme = .bang)
    (h : env.termPredicates segment waiting found = .error fault) :
    ∃ before t behind, waiting.toList ++ found = before ++ t :: behind ∧
      env.TermsCompile segment before ∧ env.Stops segment before t behind fault := by
  induction found generalizing waiting with
  | nil =>
    cases waiting with
    | none => cases h
    | some bang =>
      cases h
      exact ⟨[], bang, [], rfl, by simp [TermsCompile], .alone (hwaiting bang rfl) rfl⟩
  | cons t rest ih =>
    have hfront : env.TermsCompile segment waiting.toList := by
      intro bang hmem hterm
      exact absurd (hwaiting bang (Option.mem_toList.1 hmem)) hterm
    by_cases hbang : t.lexeme = .bang
    · cases waiting with
      | none =>
        rw [termPredicates, if_pos ⟨hbang, rfl⟩] at h
        refine ih ?_ h
        intro bang hmem
        rwa [← Option.some.inj hmem]
      | some bang =>
        rw [termPredicates, if_neg (by simp), termPredicate, hbang] at h
        cases h
        exact ⟨[bang], t, rest, rfl, hfront,
          .repeated hbang (List.nil_append _).symm (hwaiting bang rfl)⟩
    · rw [termPredicates, if_neg fun hskip => hbang hskip.1] at h
      rcases bind_eq_error_iff.1 h with hwrong | ⟨p, hp, h⟩
      · exact ⟨waiting.toList, t, rest, rfl, hfront, .term hbang hwrong⟩
      rcases bind_eq_error_iff.1 h with hrest | ⟨later, -, h⟩
      · obtain ⟨before, t', behind, hfound, hbefore, hstops⟩ := ih (by simp) hrest
        refine ⟨waiting.toList ++ t :: before, t', behind, ?_, ?_, ?_⟩
        · rw [List.append_assoc, List.cons_append, ← hfound, Option.toList_none, List.nil_append]
        · intro earlier hmem hterm
          rcases List.mem_append.1 hmem with hmem | hmem
          · exact hfront earlier hmem hterm
          · rcases List.mem_cons.1 hmem with rfl | hmem
            · exact ⟨p, hp⟩
            · exact hbefore earlier hmem hterm
        · rw [List.append_cons]
          exact hstops.prepend _
      · cases h

/-- A term without a predicate is a name that stands for nothing, or a group with an item that does
not match. -/
theorem unknown_or_item_of_termPredicate (hterm : t.lexeme ≠ .bang)
    (h : env.termPredicate segment t = .error fault) :
    env.Unknown t.lexeme fault ∨ ∃ interior item, t.lexeme = .group interior ∧
      fault = .malformed (remainder segment t) (.itemInvalid item) ∧
      item ∈ groupItems interior ∧ ∀ found, ¬ItemText item.toList found := by
  obtain ⟨lexeme, offset⟩ := t
  cases lexeme with
  | bang => exact absurd rfl hterm
  | bare name =>
    cases hid : env.identifier? name with
    | none =>
      simp only [termPredicate, hid] at h
      cases h
      exact .inl (.block hid)
    | some identifier =>
      simp only [termPredicate, hid] at h
      cases h
  | marked sigil name =>
    obtain ⟨hnone, rfl⟩ := markedPredicate_eq_error_iff.1 h
    cases sigil with
    | typeTag => exact .inl (.typeTag (Option.map_eq_none_iff.1 hnone))
    | strictTypeTag => exact .inl (.strictTypeTag (Option.map_eq_none_iff.1 hnone))
    | material => exact .inl (.material (Option.map_eq_none_iff.1 hnone))
    | reference => exact .inl (.query hnone)
  | group interior =>
    simp only [termPredicate] at h
    split at h
    · cases h
    · next wrong hwrong =>
      cases h
      obtain ⟨item, hitem, rfl⟩ := find?_of_mapM_itemPredicate (map_eq_error_iff.1 hwrong)
      refine .inr ⟨interior, item, rfl, rfl, List.mem_of_find?_eq_some hitem, ?_⟩
      intro found hfound
      have hnone := List.find?_some hitem
      rw [PropertyItem.parse?_eq_some_iff.2 hfound] at hnone
      cases hnone

theorem name?_of_unknown {lexeme : Lexeme} (h : env.Unknown lexeme fault) :
    fault.name? = some lexeme.value := by
  cases h <;> rfl

theorem shows_of_tokens_error {e : QueryError} (h : tokens segment = .error e) :
    e.fragment = segment ∧ env.Shows segment e.fault := by
  unfold tokens at h
  split at h
  · cases h
  · next fault hscan =>
    cases h
    obtain ⟨found, wrong, front, c, rest, -, htext, hfront, hgap, hwrong, -, rfl⟩ :=
      Token.spots_of_scan_error hscan
    have hread : tokens (String.ofList front) = .ok found := by
      rwa [tokens_eq_ok_iff, String.toList_ofList]
    refine ⟨rfl, .place (by simp) ?_ hread ?_⟩
    · rw [← String.toList_inj, String.toList_append, htext, String.toList_ofList,
        String.toList_ofList]
    · rw [String.toList_ofList]
      exact .of_scan hgap hwrong

/-- A token that is wrong starts the remainder. -/
theorem shows_of_token {before behind : List Token} {wrong : TextFault}
    (h : tokens segment = .ok (before ++ t :: behind))
    (hwrong : ∀ rest, (behind = [] → ∀ c ∈ rest, isGap c = true) → t.lexeme.WellFormed →
      Offends before wrong (t.lexeme.chars ++ rest)) :
    env.Shows segment (.malformed (remainder segment t) wrong) := by
  obtain ⟨front, rest, hsegment, hfront, hremainder, hw, hrest⟩ := exists_front_of_tokens h
  refine .place (fun hempty => ?_) hsegment hfront (hremainder ▸ hwrong rest hrest hw)
  rw [hempty] at hremainder
  exact Lexeme.chars_ne_nil hw (List.append_eq_nil_iff.1 hremainder.symm).1

theorem shows_of_stops {before behind : List Token}
    (h : tokens segment = .ok (before ++ t :: behind)) (hbefore : env.TermsCompile segment before)
    (hstops : env.Stops segment before t behind fault) : env.Shows segment fault := by
  cases hstops with
  | alone hbang hbehind =>
    refine shows_of_token h fun rest hrest _ => ?_
    rw [hbang]
    exact .alone (hrest hbehind)
  | repeated hbang hfront hfirst =>
    refine shows_of_token h fun rest _ _ => ?_
    rw [hbang]
    exact .repeated hfront hfirst
  | term hterm herror =>
    rcases unknown_or_item_of_termPredicate hterm herror with
      hunknown | ⟨interior, item, hgroup, rfl, hitem, hnone⟩
    · exact .name (name?_of_unknown hunknown) h rfl hbefore hunknown
    · refine shows_of_token h fun rest _ hw => ?_
      rw [hgroup] at hw ⊢
      have htext : (Lexeme.group interior).chars ++ rest =
          '[' :: (interior.toList ++ ']' :: rest) := by simp [Lexeme.chars]
      rw [htext]
      exact .item hw (by rwa [String.ofList_toList]) hnone

theorem shows_of_segmentPredicate {e : QueryError} (h : env.segmentPredicate segment = .error e) :
    e.fragment = segment ∧ env.Shows segment e.fault := by
  rcases bind_eq_error_iff.1 h with htokens | ⟨found, htokens, h⟩
  · exact shows_of_tokens_error htokens
  · split at h
    · cases h
    · next fault hterms =>
      cases h
      obtain ⟨before, t, behind, hfound, hbefore, hstops⟩ :=
        exists_stops_of_termPredicates (by simp) hterms
      rw [Option.toList_none, List.nil_append] at hfound
      rw [hfound] at htokens
      exact ⟨rfl, shows_of_stops htokens hbefore hstops⟩

/-- An error of a text points at its first segment that does not compile. In that segment it shows
where reading stops, or else the name that stands for nothing. -/
theorem compile_shows {text : String} {e : QueryError} (h : env.compile text = .error e) :
    (∃ before behind, segments text = before ++ e.fragment :: behind ∧
      ∀ segment ∈ before, ∃ p, env.compile segment = .ok p) ∧ env.Shows e.fragment e.fault := by
  obtain ⟨before, segment, behind, hsegments, hbefore, hsegment⟩ :=
    exists_of_mapM_eq_error (map_eq_error_iff.1 h)
  obtain ⟨rfl, hshows⟩ := shows_of_segmentPredicate hsegment
  refine ⟨⟨before, behind, hsegments, fun earlier hearlier => ?_⟩, hshows⟩
  have hmem : earlier ∈ segments text := by
    rw [hsegments]
    exact List.mem_append_left _ hearlier
  exact (exists_compile_segment_iff hmem).2 (hbefore earlier hearlier)

/-- A name that stands for nothing, behind a bang and in front of a segment that cannot be read. -/
theorem compile_shows_quarry :
    quarry.compile "~rock,, !stone !%Wall ore, #" =
        .error ⟨"!stone !%Wall ore", .unknownTypeTag "Wall"⟩ ∧
      (∃ before behind, segments "~rock,, !stone !%Wall ore, #" =
          before ++ "!stone !%Wall ore" :: behind ∧
        ∀ segment ∈ before, ∃ p, quarry.compile segment = .ok p) ∧
      quarry.Shows "!stone !%Wall ore" (.unknownTypeTag "Wall") := by
  have hcompile : quarry.compile "~rock,, !stone !%Wall ore, #" =
      .error ⟨"!stone !%Wall ore", .unknownTypeTag "Wall"⟩ := by cbv
  exact ⟨hcompile, compile_shows hcompile⟩

example : quarry.compile "stone, %Pillar [axis = Y, a b]" =
    .error ⟨"%Pillar [axis = Y, a b]", .malformed "[axis = Y, a b]" (.itemInvalid "a b")⟩ := by cbv

end Environment

end VoxelQuery
