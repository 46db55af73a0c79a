import VoxelQuery.Proofs.Query.Acceptance

/-! Compilation and the stored queries it can refer to. Whether a text compiles depends on which
names are stored and on nothing else of the store. A reference alone compiles to the stored predicate
itself. -/
namespace VoxelQuery

/-- The text names a stored query. -/
def References (text name : String) : Prop :=
  ∃ query, QueryText text.toList query ∧
    ∃ terms ∈ query, ∃ t ∈ terms, t.atom = .marked .reference name

namespace Environment

/-- The same names with other stored queries. -/
def withQueries (env : Environment) (query? : String → Option Predicate) : Environment :=
  { env with query? := query? }

/-- The text is a query whose names stand for something, save perhaps those of stored queries. -/
def Supports (env : Environment) (text : String) : Prop :=
  ∃ query, QueryText text.toList query ∧ ∀ terms ∈ query, ∀ t ∈ terms,
    (∃ name, t.atom = .marked .reference name) ∨ env.Resolves t.atom

variable {env : Environment} {text : String} {f g : String → Option Predicate}

theorem atomPredicate?_withQueries {atom : Atom} (h : ∀ name, atom ≠ .marked .reference name) :
    (env.withQueries f).atomPredicate? atom = env.atomPredicate? atom := by
  cases atom with
  | bare name => rfl
  | group items => rfl
  | marked sigil name =>
    cases sigil with
    | reference => exact absurd rfl (h name)
    | typeTag => rfl
    | strictTypeTag => rfl
    | material => rfl

theorem resolves_withQueries {atom : Atom} (h : ∀ name, atom ≠ .marked .reference name) :
    (env.withQueries f).Resolves atom ↔ env.Resolves atom := by
  rw [← exists_atomPredicate_iff, ← exists_atomPredicate_iff, atomPredicate?_withQueries h]

theorem supports_withQueries : (env.withQueries f).Supports text ↔ env.Supports text := by
  have hatom : ∀ atom : Atom, (∃ name, atom = .marked .reference name) ∨
      (env.withQueries f).Resolves atom ↔
        (∃ name, atom = .marked .reference name) ∨ env.Resolves atom := by
    intro atom
    by_cases href : ∃ name, atom = .marked .reference name
    · simp [href]
    · rw [resolves_withQueries fun name heq => href ⟨name, heq⟩]
  simp only [Supports, hatom]

/-- A supported text compiles if and only if the names it refers to are stored. -/
theorem exists_compile_iff_references :
    (∃ p, env.compile text = .ok p) ↔
      env.Supports text ∧ ∀ name, References text name → ∃ q, env.query? name = some q := by
  rw [exists_compile_iff]
  constructor
  · rintro ⟨query, hquery, hall⟩
    refine ⟨⟨query, hquery, fun terms hterms t ht => .inr (hall terms hterms t ht)⟩, ?_⟩
    rintro name ⟨query', hquery', terms, hterms, t, ht, hname⟩
    rw [← hquery.unique hquery'] at hterms
    have hresolves := hall terms hterms t ht
    rw [hname] at hresolves
    exact hresolves
  · rintro ⟨⟨query, hquery, hall⟩, hreferences⟩
    refine ⟨query, hquery, fun terms hterms t ht => ?_⟩
    rcases hall terms hterms t ht with ⟨name, hname⟩ | hresolves
    · rw [hname]
      exact hreferences name ⟨query, hquery, terms, hterms, t, ht, hname⟩
    · exact hresolves

/-- A text that is one name compiles to what the name stands for, with nothing around it. -/
theorem compile_atom {atom : Atom} (hatom : AtomText text.toList atom)
    (hblank : ∀ c ∈ text.toList, Text.isBlank c = false) {p : Predicate}
    (hp : env.atomPredicate? atom = some p) : env.compile text = .ok p := by
  have hends : atom.EndsBefore [] := by cases atom <;> simp [Atom.EndsBefore]
  have hsegment : SegmentText text.toList [⟨false, atom⟩] := by
    have hplain := SegmentText.plain hatom hends .nil
    rwa [List.append_nil] at hplain
  have hterm : env.termPredicate? ⟨false, atom⟩ = some p := by
    rw [termPredicate?, hp]
    rfl
  have hread : env.segmentPredicate text = .ok p :=
    segmentPredicate_eq_ok_iff.2 ⟨_, hsegment, [p], .cons hterm .nil, rfl⟩
  refine compile_eq_ok_iff.2 ⟨[p], ?_, rfl⟩
  rw [segments_of_closed hatom.closed hblank]
  exact .cons hread .nil

theorem compile_bare (hname : Text.isIdentifier text.toList = true) {identifier : String}
    (hid : env.identifier? text = some identifier) : env.compile text = .ok (.block identifier) := by
  obtain ⟨-, hall⟩ := (Text.isIdentifier_iff _).1 hname
  refine compile_atom (.bare hname) (fun c hc => ?_) ?_
  · exact Text.isBlank_eq_false_of_isIdentifierPart (hall c hc)
  · rw [atomPredicate?, hid]
    rfl

theorem compile_marked (sigil : Sigil) {name : String} (hname : Text.isWord name.toList = true)
    (htext : text.toList = sigil.symbol :: name.toList) {p : Predicate}
    (hp : env.atomPredicate? (.marked sigil name) = some p) : env.compile text = .ok p := by
  obtain ⟨-, hall⟩ := (Text.isWord_iff _).1 hname
  have hatom : AtomText text.toList (.marked sigil name) := by
    rw [htext]
    exact .marked sigil hname
  refine compile_atom hatom ?_ hp
  rw [htext, List.forall_mem_cons]
  exact ⟨by cases sigil <;> decide, fun c hc => Text.isBlank_eq_false_of_isWordPart (hall c hc)⟩

/-- A reference to a stored query stands for the stored predicate. -/
theorem compile_reference {name : String} (hname : Text.isWord name.toList = true) {p : Predicate}
    (hp : env.query? name = some p) : env.compile ("@" ++ name) = .ok p :=
  compile_marked .reference hname (by rw [String.toList_append]; rfl) hp

end Environment

end VoxelQuery
