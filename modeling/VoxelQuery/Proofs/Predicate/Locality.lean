import VoxelQuery.Predicate.Evaluation
import VoxelQuery.World.Basic

/-! What an evaluation reads. A predicate looks at its own cell, at the cells beside it and at the
one above, each of them only for the tests that ask for it. The answers to these readings decide the
value and all further readings, so scenes that differ elsewhere cannot be told apart. -/
namespace VoxelQuery

namespace Predicate

/-- A property of all predicates, from the children of a combination to the combination. -/
@[elab_as_elim]
theorem induction {motive : Predicate → Prop} (always : motive .always) (never : motive .never)
    (combination : ∀ connective children, (∀ child ∈ children, motive child) →
      motive (.combination connective children))
    (negation : ∀ child, motive child → motive (.negation child))
    (block : ∀ identifier, motive (.block identifier)) (state : ∀ key, motive (.state key))
    (typeTag : ∀ tag strict, motive (.typeTag tag strict))
    (property : ∀ name values, motive (.property name values))
    (material : ∀ m, motive (.material m)) (adjacent : ∀ m, motive (.adjacent m))
    (emptyAbove : motive .emptyAbove) (altitude : ∀ low high, motive (.altitude low high))
    (p : Predicate) : motive p :=
  @Predicate.rec motive (fun children => ∀ child ∈ children, motive child)
    always never combination negation block state typeTag property material adjacent emptyAbove
    altitude (by simp) (fun _ _ hchild hrest => List.forall_mem_cons.2 ⟨hchild, hrest⟩) p

/-- The readings that the tests in a predicate can ask for at the cell `x`, `y`, `z`. -/
inductive MayRead (x y z : Number) : Predicate → Access → Prop
  | combination {connective : Connective} {children : List Predicate} {child : Predicate}
      {a : Access} (hchild : child ∈ children) (h : MayRead x y z child a) :
      MayRead x y z (.combination connective children) a
  | negation {child : Predicate} {a : Access} (h : MayRead x y z child a) :
      MayRead x y z (.negation child) a
  | block (identifier : String) : MayRead x y z (.block identifier) (.state ⟨x, y, z⟩)
  | state (key : String) : MayRead x y z (.state key) (.state ⟨x, y, z⟩)
  | typeTag (tag : TypeTag) (strict : Bool) : MayRead x y z (.typeTag tag strict) (.state ⟨x, y, z⟩)
  | property (name : String) (values : List String) :
      MayRead x y z (.property name values) (.state ⟨x, y, z⟩)
  | material (m : Material) : MayRead x y z (.material m) (.state ⟨x, y, z⟩)
  | west (m : Material) : MayRead x y z (.adjacent m) (.state ⟨x + .ofInt (-1), y, z⟩)
  | east (m : Material) : MayRead x y z (.adjacent m) (.state ⟨x + .ofInt 1, y, z⟩)
  | north (m : Material) : MayRead x y z (.adjacent m) (.state ⟨x, y, z + .ofInt (-1)⟩)
  | south (m : Material) : MayRead x y z (.adjacent m) (.state ⟨x, y, z + .ofInt 1⟩)
  | above : MayRead x y z .emptyAbove (.emptiness ⟨x, y + .ofInt 1, z⟩)

end Predicate

/-- Both scenes answer a reading in the same way. -/
def Scene.AnswersAlike (scene other : Scene) : Access → Prop
  | .state position => other.stateAt position = scene.stateAt position
  | .emptiness position => other.isEmpty position = scene.isEmpty position

namespace Outcome

variable {scene other : Scene}

theorem exists_of_mem_search {test : CellView → Bool} {positions : List Position} {a : Access}
    (h : a ∈ (search scene test positions).accesses) : ∃ q ∈ positions, a = .state q := by
  induction positions with
  | nil => simp [search, settled] at h
  | cons position rest ih =>
    unfold search at h
    split at h
    · exact ⟨position, by simp, by simpa using h⟩
    · rcases List.mem_cons.1 h with rfl | h
      · exact ⟨position, by simp, rfl⟩
      · obtain ⟨q, hq, rfl⟩ := ih h
        exact ⟨q, by simp [hq], rfl⟩

/-- A search that finds the same at each place it looks at ends at the same place. -/
theorem search_congr {test : CellView → Bool} {positions : List Position}
    (h : ∀ a ∈ (search scene test positions).accesses, scene.AnswersAlike other a) :
    search other test positions = search scene test positions := by
  induction positions with
  | nil => rfl
  | cons position rest ih =>
    unfold search at h ⊢
    split at h
    · next hfound =>
      have hhere : other.stateAt position = scene.stateAt position :=
        h (.state position) (by simp)
      simp [hhere, hfound]
    · next hfound =>
      obtain ⟨hhere, hrest⟩ := List.forall_mem_cons.1 h
      have hhere : other.stateAt position = scene.stateAt position := hhere
      simp [hhere, hfound, ih hrest]

end Outcome

namespace Predicate

variable {scene other : Scene} {here : Position} {connective : Connective}
  {children : List Predicate}

theorem exists_of_mem_evaluateChildren {a : Access}
    (h : a ∈ (evaluateChildren scene here connective children).accesses) :
    ∃ child ∈ children, a ∈ (child.evaluate scene here).accesses := by
  induction children with
  | nil => simp [evaluateChildren, Outcome.settled] at h
  | cons child rest ih =>
    unfold evaluateChildren at h
    simp only at h
    split at h
    · exact ⟨child, by simp, h⟩
    · rcases List.mem_append.1 h with h | h
      · exact ⟨child, by simp, h⟩
      · obtain ⟨later, hlater, ha⟩ := ih h
        exact ⟨later, by simp [hlater], ha⟩

/-- Each reading is one that some test in the predicate asks for. -/
theorem mayRead_of_mem_accesses (p : Predicate) {x y z : Number} {a : Access}
    (h : a ∈ (p.evaluate scene ⟨x, y, z⟩).accesses) : p.MayRead x y z a := by
  induction p using Predicate.induction with
  | always => simp [evaluate, Outcome.settled] at h
  | never => simp [evaluate, Outcome.settled] at h
  | altitude low high => simp [evaluate, Outcome.settled] at h
  | combination connective children ih =>
    obtain ⟨child, hchild, ha⟩ := exists_of_mem_evaluateChildren h
    exact .combination hchild (ih child hchild ha)
  | negation child ih => exact .negation (ih h)
  | block identifier =>
    obtain rfl : a = .state ⟨x, y, z⟩ := List.mem_singleton.1 h
    exact .block identifier
  | state key =>
    obtain rfl : a = .state ⟨x, y, z⟩ := List.mem_singleton.1 h
    exact .state key
  | typeTag tag strict =>
    obtain rfl : a = .state ⟨x, y, z⟩ := List.mem_singleton.1 h
    exact .typeTag tag strict
  | property name values =>
    obtain rfl : a = .state ⟨x, y, z⟩ := List.mem_singleton.1 h
    exact .property name values
  | material m =>
    obtain rfl : a = .state ⟨x, y, z⟩ := List.mem_singleton.1 h
    exact .material m
  | adjacent m =>
    obtain ⟨q, hq, rfl⟩ := Outcome.exists_of_mem_search h
    simp only [Position.neighbours, List.mem_cons, List.not_mem_nil, or_false] at hq
    rcases hq with rfl | rfl | rfl | rfl
    · exact .west m
    · exact .east m
    · exact .north m
    · exact .south m
  | emptyAbove =>
    obtain rfl : a = .emptiness ⟨x, y + .ofInt 1, z⟩ := List.mem_singleton.1 h
    exact .above

/-- Children are evaluated in both scenes up to the same one. -/
theorem evaluateChildren_congr
    (hchild : ∀ child ∈ children,
      (∀ a ∈ (child.evaluate scene here).accesses, scene.AnswersAlike other a) →
        child.evaluate other here = child.evaluate scene here)
    (h : ∀ a ∈ (evaluateChildren scene here connective children).accesses,
      scene.AnswersAlike other a) :
    evaluateChildren other here connective children =
      evaluateChildren scene here connective children := by
  induction children with
  | nil => rfl
  | cons child rest ih =>
    obtain ⟨hfirst, hrest⟩ := List.forall_mem_cons.1 hchild
    unfold evaluateChildren at h ⊢
    simp only at h ⊢
    split at h
    · next hsettled => rw [hfirst h, if_pos hsettled, if_pos hsettled]
    · next hopen =>
      obtain ⟨hhere, hlater⟩ := List.forall_mem_append.1 h
      rw [hfirst hhere, if_neg hopen, ih hrest hlater, if_neg hopen]

/-- The value and the readings are decided by the answers to the readings. -/
theorem evaluate_congr (p : Predicate)
    (h : ∀ a ∈ (p.evaluate scene here).accesses, scene.AnswersAlike other a) :
    p.evaluate other here = p.evaluate scene here := by
  have hstate : ∀ test : CellView → Bool,
      (∀ a ∈ (Outcome.ofState scene here test).accesses, scene.AnswersAlike other a) →
        Outcome.ofState other here test = Outcome.ofState scene here test := by
    intro test htest
    have hhere : other.stateAt here = scene.stateAt here :=
      htest (.state here) (by simp [Outcome.ofState])
    rw [Outcome.ofState, hhere, Outcome.ofState]
  induction p using Predicate.induction with
  | always => rfl
  | never => rfl
  | altitude low high => rfl
  | combination connective children ih => exact evaluateChildren_congr ih h
  | negation child ih =>
    have hchild := ih h
    simp [evaluate, hchild]
  | block identifier => exact hstate _ h
  | state key => exact hstate _ h
  | typeTag tag strict => exact hstate _ h
  | property name values => exact hstate _ h
  | material m => exact hstate _ h
  | adjacent m => exact Outcome.search_congr h
  | emptyAbove =>
    have habove : other.isEmpty here.above = scene.isEmpty here.above :=
      h (.emptiness here.above) (by simp [evaluate])
    simp [evaluate, habove]

/-- Evaluation reads its own cell, the four cells beside it and the one above, and each of them only
for a test that asks for it. A scene that answers these readings alike is evaluated alike, with the
same readings in the same order, whatever else it holds. -/
theorem evaluate_local (p : Predicate) (scene : Scene) (x y z : Number) :
    (∀ a ∈ (p.evaluate scene ⟨x, y, z⟩).accesses, p.MayRead x y z a) ∧
      ∀ other : Scene,
        (∀ a ∈ (p.evaluate scene ⟨x, y, z⟩).accesses, scene.AnswersAlike other a) →
          p.evaluate other ⟨x, y, z⟩ = p.evaluate scene ⟨x, y, z⟩ :=
  ⟨fun _ ha => p.mayRead_of_mem_accesses ha, fun _ h => p.evaluate_congr h⟩

end Predicate

/-- Stone with dirt to the west and water to the east, in a world of one block. -/
def World.bank (fill : Block) : World :=
  let cell (name : String) : BlockState :=
    .ofPairs ⟨"core:" ++ name, .root 0 "core.Solid", ⟨0, name⟩, false⟩ []
  let start : World := ⟨.ofPairs fill [], .empty⟩
  ((start.put (.ofInts 0 64 0) (cell "stone")).put (.ofInts (-1) 64 0) (cell "dirt")).put
    (.ofInts 1 64 0) (cell "water")

theorem World.stateAt_bank (fill : Block) {position : Position}
    (h : position ∉ [Position.ofInts 0 64 0, .ofInts (-1) 64 0, .ofInts 1 64 0]) :
    (bank fill).stateAt position = .ofPairs fill [] := by
  simp only [List.mem_cons, List.not_mem_nil, or_false, not_or, eq_comm (a := position)] at h
  rw [bank, stateAt_put, if_neg h.2.2, stateAt_put, if_neg h.2.1, stateAt_put, if_neg h.1]
  rfl

namespace Predicate

/-- Ore under an empty cell, or any block beside water. -/
def oreOrShore : Predicate :=
  .combination .or [.combination .and [.block "core:ore", .emptyAbove], .adjacent ⟨0, "water"⟩]

def air : Block := ⟨"core:air", .root 0 "core.Void", ⟨0, "air"⟩, true⟩

def ore : Block := ⟨"core:ore", .root 0 "core.Solid", ⟨0, "rock"⟩, false⟩

theorem evaluate_local_bank :
    let seen := [Position.ofInts 0 64 0, .ofInts (-1) 64 0, .ofInts 1 64 0]
    (oreOrShore.evaluate (World.bank air).scene (.ofInts 0 64 0)).accesses = seen.map .state ∧
      (∀ position, position ∉ seen →
        ((World.bank ore).scene.stateAt position).identifier ≠
          ((World.bank air).scene.stateAt position).identifier ∧
        (World.bank ore).scene.isEmpty position ≠ (World.bank air).scene.isEmpty position) ∧
      (∀ a ∈ seen.map Access.state, (World.bank air).scene.AnswersAlike (World.bank ore).scene a ∧
        oreOrShore.MayRead (.ofInt 0) (.ofInt 64) (.ofInt 0) a) ∧
      oreOrShore.evaluate (World.bank ore).scene (.ofInts 0 64 0) =
        oreOrShore.evaluate (World.bank air).scene (.ofInts 0 64 0) := by
  intro seen
  have haccesses :
      (oreOrShore.evaluate (World.bank air).scene (.ofInts 0 64 0)).accesses = seen.map .state := by
    decide +kernel
  have halike : ∀ a ∈ seen.map Access.state,
      (World.bank air).scene.AnswersAlike (World.bank ore).scene a := by
    simp [seen, Scene.AnswersAlike, World.scene, World.bank]
  obtain ⟨hreads, hsame⟩ := oreOrShore.evaluate_local (World.bank air).scene (.ofInt 0) (.ofInt 64)
    (.ofInt 0)
  refine ⟨haccesses, fun position h => ?_,
    fun a ha => ⟨halike a ha, hreads a (haccesses.symm ▸ ha)⟩, hsame _ (haccesses.symm ▸ halike)⟩
  simp [World.scene, World.isEmpty, World.stateAt_bank _ h, BlockState.view, BlockState.ofPairs,
    air, ore]

end Predicate

end VoxelQuery
