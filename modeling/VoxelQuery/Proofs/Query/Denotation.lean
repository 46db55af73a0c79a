import VoxelQuery.Proofs.Query.Terms
import VoxelQuery.Proofs.Success
import VoxelQuery.Query.Compile

/-! Compilation by way of the grammar. A segment compiles if and only if it has a reading whose
terms all have a predicate, and then it compiles to the conjunction of these predicates. -/
namespace VoxelQuery

namespace Environment

variable (env : Environment)

/-- The test of the property of an item for the values of the item. -/
def itemTest (item : PropertyItem) : Predicate := .ofProperty (env.propertyName item) item.values

/-- The predicate of an atom, if its name stands for something. -/
def atomPredicate? : Atom → Option Predicate
  | .bare name => (env.identifier? name).map .block
  | .marked .typeTag name => (env.typeTag? name).map fun tag => .typeTag tag false
  | .marked .strictTypeTag name => (env.typeTag? name).map fun tag => .typeTag tag true
  | .marked .material name => (env.material? name).map .material
  | .marked .reference name => env.query? name
  | .group items => some (.allOf (items.map env.itemTest))

def termPredicate? (t : Term) : Option Predicate :=
  (env.atomPredicate? t.atom).map fun p => if t.negated then .negation p else p

variable {env}

theorem itemPredicate_eq_ok_iff {item : String} {p : Predicate} :
    env.itemPredicate item = .ok p ↔
      ∃ found, PropertyItem.parse? item = some found ∧ p = env.itemTest found := by
  rw [itemPredicate]
  cases PropertyItem.parse? item with
  | none => simp
  | some found => simp [itemTest, eq_comm]

/-- A group of the grammar compiles to the conjunction of the tests of its items. -/
theorem groupPredicate_eq_ok_iff {interior : String} {p : Predicate} :
    env.groupPredicate interior = .ok p ↔
      ∃ items, Listed ItemText interior.toList items ∧ .allOf (items.map env.itemTest) = p := by
  rw [groupPredicate, map_eq_ok_iff]
  simp only [mapM_eq_ok_iff, itemPredicate_eq_ok_iff, forall₂_comp_iff, forall₂_parse?_iff,
    forall₂_eq_map_iff]
  constructor
  · rintro ⟨_, ⟨items, hitems, rfl⟩, rfl⟩
    exact ⟨items, hitems, rfl⟩
  · rintro ⟨items, hitems, rfl⟩
    exact ⟨_, ⟨items, hitems, rfl⟩, rfl⟩

theorem markedPredicate_eq_ok_iff {sigil : Sigil} {name : String} {p : Predicate} :
    env.markedPredicate sigil name = .ok p ↔ env.atomPredicate? (.marked sigil name) = some p := by
  cases sigil with
  | typeTag => cases h : env.typeTag? name <;> simp [markedPredicate, atomPredicate?, h]
  | strictTypeTag => cases h : env.typeTag? name <;> simp [markedPredicate, atomPredicate?, h]
  | material => cases h : env.material? name <;> simp [markedPredicate, atomPredicate?, h]
  | reference => cases h : env.query? name <;> simp [markedPredicate, atomPredicate?, h]

theorem termPredicate_eq_ok_iff {segment : String} {t : Token} {p : Predicate} :
    env.termPredicate segment t = .ok p ↔
      ∃ atom, t.lexeme.Reads atom ∧ env.atomPredicate? atom = some p := by
  obtain ⟨lexeme, offset⟩ := t
  cases lexeme with
  | bang =>
    constructor
    · intro h
      cases h
    · rintro ⟨atom, hatom, -⟩
      cases hatom
  | bare name =>
    have hname : env.termPredicate segment ⟨.bare name, offset⟩ = .ok p ↔
        env.atomPredicate? (.bare name) = some p := by
      cases h : env.identifier? name <;> simp [termPredicate, atomPredicate?, h]
    rw [hname]
    constructor
    · exact fun h => ⟨_, .bare name, h⟩
    · rintro ⟨atom, hatom, h⟩
      cases hatom
      exact h
  | marked sigil name =>
    rw [termPredicate, markedPredicate_eq_ok_iff]
    constructor
    · exact fun h => ⟨_, .marked sigil name, h⟩
    · rintro ⟨atom, hatom, h⟩
      cases hatom
      exact h
  | group interior =>
    have hgroup : env.termPredicate segment ⟨.group interior, offset⟩ = .ok p ↔
        env.groupPredicate interior = .ok p := by
      simp only [termPredicate]
      split <;> simp_all
    rw [hgroup, groupPredicate_eq_ok_iff]
    constructor
    · rintro ⟨items, hitems, rfl⟩
      exact ⟨.group items, .group hitems, rfl⟩
    · rintro ⟨atom, hatom, h⟩
      cases hatom with
      | group hitems => exact ⟨_, hitems, Option.some.inj h⟩

/-- The bang that waits, as it stands in front of the tokens to come. -/
def waitingLexemes (waiting : Option Token) : List Lexeme :=
  if waiting.isSome then [.bang] else []

theorem readAs_waiting_iff {waiting : Option Token} {lexeme : Lexeme} {rest : List Lexeme}
    {terms : List Term} (h : ¬(lexeme = .bang ∧ waiting = none)) :
    ReadAs (waitingLexemes waiting ++ lexeme :: rest) terms ↔
      ∃ atom others, lexeme.Reads atom ∧ ReadAs rest others ∧
        terms = ⟨waiting.isSome, atom⟩ :: others := by
  cases waiting with
  | none =>
    constructor
    · intro hread
      cases hread with
      | plain hatom tail => exact ⟨_, _, hatom, tail, rfl⟩
      | negated hatom tail => exact absurd ⟨rfl, rfl⟩ h
    · rintro ⟨atom, others, hatom, tail, rfl⟩
      exact .plain hatom tail
  | some bang =>
    constructor
    · intro hread
      cases hread with
      | plain hatom tail => cases hatom
      | negated hatom tail => exact ⟨_, _, hatom, tail, rfl⟩
    · rintro ⟨atom, others, hatom, tail, rfl⟩
      exact .negated hatom tail

/-- Whether a bang waits or not, the predicates found are those of the terms that are read. -/
theorem termPredicates_eq_ok_iff {segment : String} {waiting : Option Token} {found : List Token}
    {predicates : List Predicate} :
    env.termPredicates segment waiting found = .ok predicates ↔
      ∃ terms, ReadAs (waitingLexemes waiting ++ found.map Token.lexeme) terms ∧
        List.Forall₂ (fun t p => env.termPredicate? t = some p) terms predicates := by
  induction found generalizing waiting predicates with
  | nil =>
    cases waiting with
    | none =>
      rw [termPredicates]
      constructor
      · intro h
        cases h
        exact ⟨[], .nil, .nil⟩
      · rintro ⟨terms, hread, hterms⟩
        cases hread
        cases hterms
        rfl
    | some bang =>
      rw [termPredicates]
      constructor
      · intro h
        cases h
      · rintro ⟨terms, hread, -⟩
        cases hread with
        | plain h tail => cases h
  | cons t rest ih =>
    by_cases hbang : t.lexeme = .bang ∧ waiting = none
    · obtain ⟨hlexeme, rfl⟩ := hbang
      rw [termPredicates, if_pos ⟨hlexeme, rfl⟩, ih, List.map_cons, hlexeme]
      rfl
    · rw [termPredicates, if_neg hbang, List.map_cons]
      simp only [readAs_waiting_iff hbang, bind_eq_ok_iff, termPredicate_eq_ok_iff, ih]
      constructor
      · rintro ⟨p, ⟨atom, hatom, hp⟩, later, ⟨terms, hread, hterms⟩, h⟩
        cases h
        have hterm : env.termPredicate? ⟨waiting.isSome, atom⟩ =
            some (if waiting.isSome then .negation p else p) := by rw [termPredicate?, hp]; rfl
        exact ⟨_, ⟨atom, terms, hatom, hread, rfl⟩, .cons hterm hterms⟩
      · rintro ⟨_, ⟨atom, terms, hatom, hread, rfl⟩, hterms⟩
        obtain ⟨q, later, hq, hlater, rfl⟩ := List.forall₂_cons_left_iff.1 hterms
        obtain ⟨p, hp, rfl⟩ := Option.map_eq_some_iff.1 hq
        exact ⟨p, ⟨atom, hatom, hp⟩, later, ⟨terms, hread, hlater⟩, rfl⟩

/-- A segment compiles along its one reading. -/
theorem segmentPredicate_eq_ok_iff {segment : String} {p : Predicate} :
    env.segmentPredicate segment = .ok p ↔
      ∃ terms, SegmentText segment.toList terms ∧
        ∃ predicates, List.Forall₂ (fun t q => env.termPredicate? t = some q) terms predicates ∧
          p = .allOf predicates := by
  have htokens : ∀ found, tokens segment = .ok found ↔ Token.scan 0 segment.toList = .ok found := by
    intro found
    rw [tokens]
    cases Token.scan 0 segment.toList <;> simp
  rw [segmentPredicate, bind_eq_ok_iff]
  simp only [htokens]
  constructor
  · rintro ⟨found, hscan, h⟩
    split at h
    · next predicates hall =>
      cases h
      obtain ⟨terms, hread, hterms⟩ := termPredicates_eq_ok_iff.1 hall
      exact ⟨terms, segmentText_iff.2 ⟨found, hscan, hread⟩, predicates, hterms, rfl⟩
    · cases h
  · rintro ⟨terms, hsegment, predicates, hterms, rfl⟩
    obtain ⟨found, hscan, hread⟩ := segmentText_iff.1 hsegment
    have hall : env.termPredicates segment none found = .ok predicates :=
      termPredicates_eq_ok_iff.2 ⟨terms, hread, hterms⟩
    exact ⟨found, hscan, by rw [hall]⟩

/-- A text compiles if and only if all its segments do. -/
theorem compile_eq_ok_iff {text : String} {p : Predicate} :
    env.compile text = .ok p ↔
      ∃ predicates, List.Forall₂ (fun segment q => env.segmentPredicate segment = .ok q)
        (segments text) predicates ∧ p = .anyOf predicates := by
  rw [compile, map_eq_ok_iff]
  simp only [mapM_eq_ok_iff]
  constructor
  · rintro ⟨predicates, hall, rfl⟩
    exact ⟨predicates, hall, rfl⟩
  · rintro ⟨predicates, hall, rfl⟩
    exact ⟨predicates, hall, rfl⟩

end Environment

end VoxelQuery
