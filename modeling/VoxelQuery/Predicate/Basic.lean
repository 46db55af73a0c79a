import VoxelQuery.Number.Basic
import VoxelQuery.Registry.Entry
import VoxelQuery.Text.Lower

/-! Predicates on positions of a world, and the rules by which they are put together: a
combination of no predicates is a constant, one of a single predicate is that predicate. -/
namespace VoxelQuery

inductive Connective where
  | and
  | or
  deriving DecidableEq

/-- The value of a child that settles a combination. -/
def Connective.deciding : Connective → Bool
  | and => false
  | or => true

inductive Predicate where
  | always
  | never
  | combination (connective : Connective) (children : List Predicate)
  | negation (child : Predicate)
  | block (identifier : String)
  | state (key : String)
  | typeTag (tag : TypeTag) (strict : Bool)
  | property (name : String) (values : List String)
  | material (m : Material)
  | adjacent (m : Material)
  | emptyAbove
  | altitude (low high : Number)

namespace Predicate

instance : Inhabited Predicate := ⟨never⟩

/-- What a connective makes of no children. -/
def neutral : Connective → Predicate
  | .and => always
  | .or => never

def combine (connective : Connective) : List Predicate → Predicate
  | [] => neutral connective
  | [child] => child
  | children => combination connective children

def allOf (children : List Predicate) : Predicate := combine .and children

def anyOf (children : List Predicate) : Predicate := combine .or children

/-- Each value once, at its first place. -/
def distinct : List String → List String
  | [] => []
  | value :: rest => value :: (distinct rest).filter (· ≠ value)

/-- A property test keeps its name and its values in lower case. -/
def ofProperty (name : String) (values : List String) : Predicate :=
  property (Text.lower name) (distinct (values.map Text.lower))

@[simp] theorem mem_distinct (value : String) (values : List String) :
    value ∈ distinct values ↔ value ∈ values := by
  induction values with
  | nil => simp [distinct]
  | cons first rest ih =>
    by_cases h : value = first <;> simp [distinct, h, ih]

theorem nodup_distinct (values : List String) : (distinct values).Nodup := by
  induction values with
  | nil => simp [distinct]
  | cons first rest ih => exact List.nodup_cons.2 ⟨by simp, List.Pairwise.filter _ ih⟩

end Predicate

/-- A combination in the making. Building it leaves it as it is. -/
structure Combinator where
  connective : Connective
  children : List Predicate

namespace Combinator

def empty (connective : Connective) : Combinator := ⟨connective, []⟩

def add (c : Combinator) (child : Predicate) : Combinator :=
  { c with children := c.children ++ [child] }

def size (c : Combinator) : Nat := c.children.length

def build (c : Combinator) : Predicate := .combine c.connective c.children

@[simp] theorem size_empty (connective : Connective) : (empty connective).size = 0 := rfl

@[simp] theorem size_add (c : Combinator) (child : Predicate) :
    (c.add child).size = c.size + 1 := by
  simp [size, add]

end Combinator

end VoxelQuery
