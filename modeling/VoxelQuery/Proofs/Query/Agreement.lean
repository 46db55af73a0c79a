import VoxelQuery.Proofs.Query.References

/-! The errors of a compilation. Of the stored queries they tell no more than which names are there:
with the same names stored, a text fails in the same way, whatever the names stand for. -/
namespace VoxelQuery

variable {ε α β γ δ : Type}

/-- Two computations that both succeed, or both fail with one error. -/
inductive FailAlike : Except ε α → Except ε β → Prop
  | ok (a : α) (b : β) : FailAlike (.ok a) (.ok b)
  | error (e : ε) : FailAlike (.error e) (.error e)

namespace FailAlike

theorem refl (x : Except ε α) : FailAlike x x := by
  cases x with
  | error e => exact .error e
  | ok a => exact .ok a a

theorem eq_error_iff {x : Except ε α} {y : Except ε β} (h : FailAlike x y) (e : ε) :
    x = .error e ↔ y = .error e := by
  cases h with
  | ok a b => simp
  | error e' => simp

theorem map {x : Except ε α} {y : Except ε β} (h : FailAlike x y) (f : α → γ) (g : β → δ) :
    FailAlike (x.map f) (y.map g) := by
  cases h with
  | ok a b => exact .ok (f a) (g b)
  | error e => exact .error e

theorem bind {x : Except ε α} {y : Except ε β} {f : α → Except ε γ} {g : β → Except ε δ}
    (h : FailAlike x y) (hnext : ∀ a b, FailAlike (f a) (g b)) : FailAlike (x >>= f) (y >>= g) := by
  cases h with
  | ok a b => exact hnext a b
  | error e => exact .error e

theorem mapM {f : α → Except ε β} {g : α → Except ε γ} (h : ∀ a, FailAlike (f a) (g a))
    (l : List α) : FailAlike (l.mapM f) (l.mapM g) := by
  induction l with
  | nil =>
    rw [List.mapM_nil, List.mapM_nil]
    exact .ok _ _
  | cons a rest ih =>
    rw [List.mapM_cons, List.mapM_cons]
    exact (h a).bind fun _ _ => ih.bind fun _ _ => .ok _ _

end FailAlike

namespace Environment

variable {env : Environment} {f g : String → Option Predicate}
  (h : ∀ name, (∃ p, f name = some p) ↔ ∃ p, g name = some p)

include h

theorem markedPredicate_failAlike (sigil : Sigil) (name : String) :
    FailAlike ((env.withQueries f).markedPredicate sigil name)
      ((env.withQueries g).markedPredicate sigil name) := by
  cases sigil with
  | typeTag => exact .refl _
  | strictTypeTag => exact .refl _
  | material => exact .refl _
  | reference =>
    have hname := h name
    simp only [markedPredicate, withQueries]
    cases hf : f name with
    | none =>
      have hg : g name = none := by
        rw [Option.eq_none_iff_forall_ne_some]
        intro q hq
        obtain ⟨p, hp⟩ := hname.2 ⟨q, hq⟩
        rw [hf] at hp
        cases hp
      rw [hg]
      exact .error _
    | some p =>
      obtain ⟨q, hg⟩ := hname.1 ⟨p, hf⟩
      rw [hg]
      exact .ok p q

theorem termPredicate_failAlike (segment : String) (t : Token) :
    FailAlike ((env.withQueries f).termPredicate segment t)
      ((env.withQueries g).termPredicate segment t) := by
  obtain ⟨lexeme, offset⟩ := t
  cases lexeme with
  | bang => exact .refl _
  | bare name => exact .refl _
  | marked sigil name => exact markedPredicate_failAlike h sigil name
  | group interior => exact .refl _

theorem termPredicates_failAlike (segment : String) (waiting : Option Token)
    (found : List Token) :
    FailAlike ((env.withQueries f).termPredicates segment waiting found)
      ((env.withQueries g).termPredicates segment waiting found) := by
  induction found generalizing waiting with
  | nil => cases waiting <;> exact .refl _
  | cons t rest ih =>
    by_cases hbang : t.lexeme = .bang ∧ waiting = none
    · rw [termPredicates, termPredicates, if_pos hbang, if_pos hbang]
      exact ih (some t)
    · rw [termPredicates, termPredicates, if_neg hbang, if_neg hbang]
      exact (termPredicate_failAlike h segment t).bind fun _ _ => (ih none).bind fun _ _ => .ok _ _

theorem segmentPredicate_failAlike (segment : String) :
    FailAlike ((env.withQueries f).segmentPredicate segment)
      ((env.withQueries g).segmentPredicate segment) := by
  cases hfound : tokens segment with
  | error e =>
    simp only [segmentPredicate, hfound]
    exact .error e
  | ok found =>
    have hterms := @termPredicates_failAlike env f g h segment none found
    simp only [segmentPredicate, hfound, bind, Except.bind]
    generalize (env.withQueries f).termPredicates segment none found = x at hterms ⊢
    generalize (env.withQueries g).termPredicates segment none found = y at hterms ⊢
    cases hterms with
    | ok a b => exact .ok _ _
    | error fault => exact .error _

/-- The error of a text depends on which queries are stored, and not on what they are. -/
theorem compile_failAlike (text : String) :
    FailAlike ((env.withQueries f).compile text) ((env.withQueries g).compile text) :=
  (FailAlike.mapM (segmentPredicate_failAlike h) (segments text)).map _ _

end Environment

end VoxelQuery
