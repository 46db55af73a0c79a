import VoxelQuery.Predicate.Basic
import VoxelQuery.World.Scene

/-! Evaluation of a predicate at a position. The result comes with the readings of the world in
their order, since a combination stops at the first child that settles it. -/
namespace VoxelQuery

structure Outcome where
  holds : Bool
  accesses : List Access
  deriving DecidableEq

namespace Outcome

def settled (holds : Bool) : Outcome := ⟨holds, []⟩

/-- A test of the state at one position. -/
def ofState (scene : Scene) (position : Position) (test : CellView → Bool) : Outcome :=
  ⟨test (scene.stateAt position), [.state position]⟩

/-- Whether some state on the way passes a test, which is looked for until the first hit. -/
def search (scene : Scene) (test : CellView → Bool) : List Position → Outcome
  | [] => settled false
  | position :: rest =>
    if test (scene.stateAt position) then ⟨true, [.state position]⟩
    else
      let later := search scene test rest
      ⟨later.holds, .state position :: later.accesses⟩

end Outcome

namespace Predicate

def passesProperty (name : String) (values : List String) (state : CellView) : Bool :=
  match state.property? name with
  | some value => decide (Text.lower value ∈ values)
  | none => false

def passesTypeTag (tag : TypeTag) (strict : Bool) (state : CellView) : Bool :=
  if strict then decide (state.typeTag = tag) else state.typeTag.derivesFrom tag

mutual

def evaluate (scene : Scene) (here : Position) : Predicate → Outcome
  | always => .settled true
  | never => .settled false
  | combination connective children => evaluateChildren scene here connective children
  | negation child =>
    let inner := evaluate scene here child
    ⟨!inner.holds, inner.accesses⟩
  | block identifier => .ofState scene here fun s => decide (s.identifier = identifier)
  | state key => .ofState scene here fun s => decide (s.key = key)
  | typeTag tag strict => .ofState scene here (passesTypeTag tag strict)
  | property name values => .ofState scene here (passesProperty name values)
  | material m => .ofState scene here fun s => decide (s.material = m)
  | adjacent m => .search scene (fun s => decide (s.material = m)) here.neighbours
  | emptyAbove => ⟨scene.isEmpty here.above, [.emptiness here.above]⟩
  | altitude low high => .settled (low.le here.y && here.y.le high)

def evaluateChildren (scene : Scene) (here : Position) (connective : Connective) :
    List Predicate → Outcome
  | [] => .settled !connective.deciding
  | child :: rest =>
    let first := evaluate scene here child
    if first.holds = connective.deciding then first
    else
      let later := evaluateChildren scene here connective rest
      ⟨later.holds, first.accesses ++ later.accesses⟩

end

def holds (p : Predicate) (scene : Scene) (here : Position) : Bool :=
  (p.evaluate scene here).holds

section

variable (scene : Scene) (here : Position)

@[simp] theorem holds_always : always.holds scene here = true := rfl

@[simp] theorem holds_never : never.holds scene here = false := rfl

@[simp] theorem holds_negation (child : Predicate) :
    (negation child).holds scene here = !child.holds scene here := rfl

/-- A conjunction holds where all children do, a disjunction where one of them does. -/
theorem holds_combination (connective : Connective) (children : List Predicate) :
    (combination connective children).holds scene here =
      match connective with
      | .and => children.all (·.holds scene here)
      | .or => children.any (·.holds scene here) := by
  show (evaluateChildren scene here connective children).holds = _
  induction children with
  | nil => cases connective <;> rfl
  | cons child rest ih =>
    rw [evaluateChildren]
    cases connective <;> cases h : (evaluate scene here child).holds <;>
      simp_all [holds, Connective.deciding]

/-- The collapse of small combinations does not change their meaning. -/
theorem holds_combine (connective : Connective) (children : List Predicate) :
    (combine connective children).holds scene here =
      (combination connective children).holds scene here := by
  match children with
  | [] => cases connective <;> rfl
  | [child] => cases connective <;> simp [combine, holds_combination]
  | _ :: _ :: _ => rfl

@[simp] theorem holds_allOf (children : List Predicate) :
    (allOf children).holds scene here = children.all (·.holds scene here) := by
  rw [allOf, holds_combine, holds_combination]

@[simp] theorem holds_anyOf (children : List Predicate) :
    (anyOf children).holds scene here = children.any (·.holds scene here) := by
  rw [anyOf, holds_combine, holds_combination]

end

end Predicate

/-- One outcome for each position, in order and with repetitions kept. -/
def Predicate.evaluateAll (p : Predicate) (scene : Scene) (positions : List Position) :
    List (Position × Outcome) :=
  positions.map fun position => (position, p.evaluate scene position)

end VoxelQuery
