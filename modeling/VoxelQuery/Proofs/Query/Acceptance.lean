import VoxelQuery.Proofs.Query.Denotation
import VoxelQuery.Proofs.Query.Flaws

/-! Which texts compile. A text that the grammar reads and whose names all stand for something has
a predicate, and no other text has one. -/
namespace VoxelQuery

namespace Environment

variable (env : Environment)

/-- The name in an atom stands for something. Groups name only properties, of which all are fine. -/
def Resolves : Atom → Prop
  | .bare name => ∃ identifier, env.identifier? name = some identifier
  | .marked .typeTag name => ∃ tag, env.typeTag? name = some tag
  | .marked .strictTypeTag name => ∃ tag, env.typeTag? name = some tag
  | .marked .material name => ∃ material, env.material? name = some material
  | .marked .reference name => ∃ q, env.query? name = some q
  | .group _ => True

variable {env}

theorem exists_atomPredicate_iff {atom : Atom} :
    (∃ p, env.atomPredicate? atom = some p) ↔ env.Resolves atom := by
  cases atom with
  | bare name => simp [atomPredicate?, Resolves]
  | group items => simp [atomPredicate?, Resolves]
  | marked sigil name => cases sigil <;> simp [atomPredicate?, Resolves]

theorem exists_termPredicate_iff {t : Term} :
    (∃ p, env.termPredicate? t = some p) ↔ env.Resolves t.atom := by
  rw [← exists_atomPredicate_iff]
  simp [termPredicate?]

theorem exists_segmentPredicate_iff {segment : String} :
    (∃ p, env.segmentPredicate segment = .ok p) ↔
      ∃ terms, SegmentText segment.toList terms ∧ ∀ t ∈ terms, env.Resolves t.atom := by
  simp only [segmentPredicate_eq_ok_iff, ← exists_termPredicate_iff, forall_exists_iff_forall₂]
  constructor
  · rintro ⟨p, terms, hsegment, predicates, hterms, rfl⟩
    exact ⟨terms, hsegment, predicates, hterms⟩
  · rintro ⟨terms, hsegment, predicates, hterms⟩
    exact ⟨_, terms, hsegment, predicates, hterms, rfl⟩

theorem exists_compile_iff {text : String} :
    (∃ p, env.compile text = .ok p) ↔
      ∃ query, QueryText text.toList query ∧ ∀ terms ∈ query, ∀ t ∈ terms, env.Resolves t.atom := by
  have hsegments : (∃ p, env.compile text = .ok p) ↔
      ∀ segment ∈ segments text, ∃ p, env.segmentPredicate segment = .ok p := by
    rw [forall_exists_iff_forall₂]
    simp only [compile_eq_ok_iff]
    constructor
    · rintro ⟨p, predicates, hall, rfl⟩
      exact ⟨predicates, hall⟩
    · rintro ⟨predicates, hall⟩
      exact ⟨_, predicates, hall, rfl⟩
  -- The segments that are left out are empty, and an empty segment compiles.
  have hempty : ∃ p, env.segmentPredicate "" = .ok p :=
    exists_segmentPredicate_iff.2 ⟨[], .nil, by simp⟩
  rw [hsegments, forall_segments_iff hempty]
  simp only [exists_segmentPredicate_iff, String.toList_ofList, forall_exists_iff_forall₂,
    forall₂_and_right_iff, ← queryText_iff]

/-- Compilation accepts the grammar over the whole text, and of it the queries whose names are all
known. It accepts no text that has a flaw. -/
theorem compile_accepts_iff (env : Environment) (text : String) :
    ((∃ p, env.compile text = .ok p) ↔
      ∃ query, QueryText text.toList query ∧ ∀ terms ∈ query, ∀ t ∈ terms, env.Resolves t.atom) ∧
    ¬(Flawed text.toList ∧ ∃ p, env.compile text = .ok p) := by
  refine ⟨exists_compile_iff, ?_⟩
  rintro ⟨hflawed, haccepted⟩
  obtain ⟨query, hquery, -⟩ := exists_compile_iff.1 haccepted
  exact hquery.not_flawed hflawed

end Environment

end VoxelQuery
