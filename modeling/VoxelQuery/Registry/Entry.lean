/-! What a registry holds: materials, type tags that derive from one another, and blocks. Entries of
two registries differ even if they are named alike, so every root tag and every material carries the
number of its registry. -/
namespace VoxelQuery

structure Material where
  registry : Nat
  name : String
  deriving DecidableEq

/-- A tag holds the whole chain of its ancestors. -/
inductive TypeTag where
  | root (registry : Nat) (name : String)
  | derived (name : String) (parent : TypeTag)
  deriving DecidableEq

namespace TypeTag

def name : TypeTag → String
  | root _ name => name
  | derived name _ => name

def parent? : TypeTag → Option TypeTag
  | root _ _ => none
  | derived _ parent => some parent

/-- The tag itself, then its ancestors from the nearest on. -/
def lineage : TypeTag → List TypeTag
  | root registry name => [root registry name]
  | derived name parent => derived name parent :: parent.lineage

def derivesFrom (tag ancestor : TypeTag) : Bool := decide (ancestor ∈ tag.lineage)

@[simp] theorem self_mem_lineage (tag : TypeTag) : tag ∈ tag.lineage := by
  cases tag <;> simp [lineage]

/-- The lineage of an ancestor is a tail of the lineage of the tag. -/
theorem lineage_suffix {tag ancestor : TypeTag} (h : ancestor ∈ tag.lineage) :
    ancestor.lineage <:+ tag.lineage := by
  induction tag with
  | root registry name => simp_all [lineage]
  | derived name parent ih =>
    rw [lineage, List.mem_cons] at h
    rcases h with rfl | h
    · exact List.suffix_refl _
    · exact (ih h).trans (List.suffix_cons _ _)

end TypeTag

structure Block where
  identifier : String
  typeTag : TypeTag
  material : Material
  isEmpty : Bool
  deriving DecidableEq

end VoxelQuery
