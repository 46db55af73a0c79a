import VoxelQuery.Predicate.Evaluation
import VoxelQuery.Proofs.Query.References

/-! One text in two environments. If whatever the text mentions stands for related predicates, and
the relation respects the ways in which predicates are put together, then the text compiles to
related predicates. So storing more queries breaks no text. -/
namespace VoxelQuery

/-- A relation that negations and combinations of related predicates keep. -/
structure Predicate.Congruence (R : Predicate → Predicate → Prop) : Prop where
  negation : ∀ {p q}, R p q → R (.negation p) (.negation q)
  combine : ∀ (connective : Connective) {l m}, List.Forall₂ R l m →
    R (.combine connective l) (.combine connective m)

namespace Predicate

theorem congruence_eq : Congruence Eq where
  negation h := congrArg negation h
  combine connective l m h := by
    rw [List.forall₂_eq_eq_eq] at h
    rw [h]

/-- A predicate sees its parts only at the position where it is evaluated itself. -/
theorem congruence_holds (scene : Scene) (here : Position) :
    Congruence fun p q => q.holds scene here = p.holds scene here where
  negation h := by rw [holds_negation, holds_negation, h]
  combine connective l m h := by
    rw [holds_combine, holds_combine, holds_combination, holds_combination]
    induction h with
    | nil => rfl
    | cons hpq _ ih =>
      cases connective with
      | and =>
        simp only [List.all_cons] at ih ⊢
        rw [hpq, ih]
      | or =>
        simp only [List.any_cons] at ih ⊢
        rw [hpq, ih]

end Predicate

/-- The text asks for something of this kind in some term. -/
def Mentions (text : String) (atom : Atom) : Prop :=
  ∃ query, QueryText text.toList query ∧ ∃ terms ∈ query, ∃ t ∈ terms, t.atom = atom

theorem QueryText.mem_of_segmentText {text segment : String} {query : List (List Term)}
    {terms : List Term} (h : QueryText text.toList query) (hsegment : segment ∈ segments text)
    (hterms : SegmentText segment.toList terms) : terms ∈ query := by
  obtain ⟨piece, hpiece, rfl⟩ := List.mem_map.1 hsegment
  obtain ⟨raw, hraw, rfl⟩ := List.mem_map.1 (mem_of_mem_dropTrailingEmpty hpiece)
  rw [String.toList_ofList] at hterms
  obtain ⟨found, hfound, hread⟩ := exists_of_forall₂ (queryText_iff.1 h).flip hraw
  rwa [hterms.unique hread]

namespace Environment

variable {env env' : Environment} {R : Predicate → Predicate → Prop} {text : String}

theorem termPredicate?_congr (hR : Predicate.Congruence R) {t : Term}
    (hatom : ∀ q, env.atomPredicate? t.atom = some q →
      ∃ q', env'.atomPredicate? t.atom = some q' ∧ R q q') {p : Predicate}
    (hp : env.termPredicate? t = some p) : ∃ p', env'.termPredicate? t = some p' ∧ R p p' := by
  obtain ⟨q, hq, rfl⟩ := Option.map_eq_some_iff.1 hp
  obtain ⟨q', hq', hqq'⟩ := hatom q hq
  refine ⟨_, by rw [termPredicate?, hq', Option.map_some], ?_⟩
  cases t.negated with
  | true => exact hR.negation hqq'
  | false => exact hqq'

theorem compile_congr (hR : Predicate.Congruence R)
    (hatom : ∀ atom, Mentions text atom → ∀ q, env.atomPredicate? atom = some q →
      ∃ q', env'.atomPredicate? atom = some q' ∧ R q q') {p : Predicate}
    (hp : env.compile text = .ok p) : ∃ p', env'.compile text = .ok p' ∧ R p p' := by
  obtain ⟨query, hquery, -⟩ := exists_compile_iff.1 ⟨p, hp⟩
  obtain ⟨predicates, hall, rfl⟩ := compile_eq_ok_iff.1 hp
  have hsegment : ∀ segment ∈ segments text, ∀ q, env.segmentPredicate segment = .ok q →
      ∃ q', env'.segmentPredicate segment = .ok q' ∧ R q q' := by
    intro segment hsegment q hq
    obtain ⟨terms, hterms, found, hfound, rfl⟩ := segmentPredicate_eq_ok_iff.1 hq
    have hmem := hquery.mem_of_segmentText hsegment hterms
    obtain ⟨found', hfound', hrelated⟩ := exists_forall₂_of_forall₂ hfound fun t ht p hp =>
      termPredicate?_congr hR (hatom t.atom ⟨query, hquery, terms, hmem, t, ht, rfl⟩) hp
    exact ⟨_, segmentPredicate_eq_ok_iff.2 ⟨terms, hterms, found', hfound', rfl⟩,
      hR.combine .and hrelated⟩
  obtain ⟨predicates', hall', hrelated⟩ := exists_forall₂_of_forall₂ hall hsegment
  exact ⟨_, compile_eq_ok_iff.2 ⟨predicates', hall', rfl⟩, hR.combine .or hrelated⟩

/-- What compiles goes on to compile to the same predicate when more queries are stored. -/
theorem compile_mono {f g : String → Option Predicate}
    (h : ∀ name q, f name = some q → g name = some q) {p : Predicate}
    (hp : (env.withQueries f).compile text = .ok p) : (env.withQueries g).compile text = .ok p := by
  have hatom : ∀ atom, Mentions text atom → ∀ q, (env.withQueries f).atomPredicate? atom = some q →
      ∃ q', (env.withQueries g).atomPredicate? atom = some q' ∧ q = q' := by
    intro atom _ q hq
    by_cases href : ∃ name, atom = .marked .reference name
    · obtain ⟨name, rfl⟩ := href
      exact ⟨q, h name q hq, rfl⟩
    · have hname : ∀ name, atom ≠ .marked .reference name := fun name heq => href ⟨name, heq⟩
      rw [atomPredicate?_withQueries hname] at hq ⊢
      exact ⟨q, hq, rfl⟩
  obtain ⟨p', hp', rfl⟩ := compile_congr Predicate.congruence_eq hatom hp
  exact hp'

end Environment

end VoxelQuery
