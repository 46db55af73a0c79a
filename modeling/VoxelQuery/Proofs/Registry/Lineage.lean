import Mathlib.Logic.Relation
import VoxelQuery.Proofs.Registry.Closure

/-! The tags of a registry as a forest. The walk from a tag to its parents can be followed in the
table of the registry by names alone. It comes to an end since parents are defined first, and since
no tag is defined twice, it is the same walk whatever is defined later. -/
namespace VoxelQuery

namespace TypeTag

variable {tag ancestor other : TypeTag}

theorem derivesFrom_iff : tag.derivesFrom ancestor = true ↔ ancestor ∈ tag.lineage := by
  rw [derivesFrom, decide_eq_true_iff]

theorem derivesFrom_refl (tag : TypeTag) : tag.derivesFrom tag = true :=
  derivesFrom_iff.2 tag.self_mem_lineage

theorem derivesFrom_trans (h : tag.derivesFrom ancestor = true)
    (h' : ancestor.derivesFrom other = true) : tag.derivesFrom other = true := by
  rw [derivesFrom_iff] at h h' ⊢
  exact (lineage_suffix h).subset h'

theorem head_lineage (tag : TypeTag) : tag.lineage.head? = some tag := by
  cases tag <;> rfl

theorem derivesFrom_antisymm (h : tag.derivesFrom other = true) (h' : other.derivesFrom tag = true) :
    tag = other := by
  rw [derivesFrom_iff] at h h'
  have hlineage : other.lineage = tag.lineage :=
    (lineage_suffix h).eq_of_length_le (lineage_suffix h').length_le
  have hhead := congrArg List.head? hlineage
  rw [head_lineage, head_lineage] at hhead
  exact (Option.some.inj hhead).symm

/-- Of two ancestors one is an ancestor of the other. -/
theorem derivesFrom_total (h : tag.derivesFrom ancestor = true) (h' : tag.derivesFrom other = true) :
    ancestor.derivesFrom other = true ∨ other.derivesFrom ancestor = true := by
  rw [derivesFrom_iff] at h h'
  rw [derivesFrom_iff, derivesFrom_iff]
  rcases List.suffix_or_suffix_of_suffix (lineage_suffix h) (lineage_suffix h') with hle | hle
  · exact .inr (hle.subset ancestor.self_mem_lineage)
  · exact .inl (hle.subset other.self_mem_lineage)

end TypeTag

namespace Registry

variable {r : Registry} {tag ancestor : TypeTag}

/-- The table has the second name for the parent of the first one. -/
def Parent (r : Registry) (name parent : String) : Prop :=
  ((r.typeTags.get? name).bind TypeTag.parent?).map TypeTag.name = some parent

theorem Sound.hasTypeTag_iff (h : r.Sound) : r.HasTypeTag tag ↔ tag ∈ r.typeTags.values := by
  constructor
  · exact fun htag => Table.mem_values_iff.2 ⟨_, htag tag tag.self_mem_lineage⟩
  · intro hmem
    obtain ⟨name, hname⟩ := Table.mem_values_iff.1 hmem
    exact (h.typeTag name tag hname).2

/-- A tag that has a parent is one place further from its root. -/
theorem Sound.wellFounded_parent (h : r.Sound) :
    WellFounded fun parent name => r.Parent name parent := by
  have hlength : ∀ parent name, r.Parent name parent →
      ((r.typeTags.get? parent).map fun tag => tag.lineage.length).getD 0 <
        ((r.typeTags.get? name).map fun tag => tag.lineage.length).getD 0 := by
    intro parent name hparent
    obtain ⟨p, hp, rfl⟩ := Option.map_eq_some_iff.1 hparent
    obtain ⟨tag, htag, hp⟩ := Option.bind_eq_some_iff.1 hp
    have hlineage := (h.typeTag name tag htag).2
    cases tag with
    | root number name => cases hp
    | derived name p' =>
      cases hp
      have hget := hlineage p (List.mem_cons_of_mem _ p.self_mem_lineage)
      simp [hget, htag, TypeTag.lineage]
  exact Subrelation.wf (hlength _ _) (measure _).wf

/-- The walk from parent to parent is the same in the tags and in the table. -/
theorem HasTypeTag.derivesFrom_iff (h : r.HasTypeTag tag) (h' : r.HasTypeTag ancestor) :
    tag.derivesFrom ancestor = true ↔ Relation.ReflTransGen r.Parent tag.name ancestor.name := by
  rw [TypeTag.derivesFrom_iff]
  constructor
  · intro hmem
    induction tag with
    | root number name =>
      obtain rfl : ancestor = .root number name := by simpa [TypeTag.lineage] using hmem
      exact .refl
    | derived name parent ih =>
      rcases List.mem_cons.1 hmem with rfl | hmem
      · exact .refl
      · have hget := h _ (TypeTag.self_mem_lineage _)
        have hparent : r.Parent (TypeTag.derived name parent).name parent.name := by
          rw [Parent, hget]
          rfl
        have hup := List.mem_cons_of_mem (TypeTag.derived name parent) parent.self_mem_lineage
        exact .head hparent (ih (h.of_mem_lineage hup) hmem)
  · intro hwalk
    generalize hname : tag.name = name at hwalk
    induction hwalk using Relation.ReflTransGen.head_induction_on generalizing tag with
    | refl =>
      rw [(h.eq_iff h').2 hname]
      exact ancestor.self_mem_lineage
    | head hstep _ ih =>
      subst hname
      rw [Parent, h tag tag.self_mem_lineage] at hstep
      cases tag with
      | root number name => cases hstep
      | derived name parent =>
        cases hstep
        have hmem := List.mem_cons_of_mem (TypeTag.derived name parent) parent.self_mem_lineage
        exact List.mem_cons_of_mem _ (ih (h.of_mem_lineage hmem) rfl)

/-- The tags of a registry are the trees of a forest, and deriving is to be below in it. -/
structure Forest (r : Registry) : Prop where
  wellFounded : WellFounded fun parent name => r.Parent name parent
  bounded : ∀ S ∈ r.typeTags.values, S.lineage.length ≤ r.typeTags.size
  closed : ∀ S ∈ r.typeTags.values, ∀ T, S.derivesFrom T = true → T ∈ r.typeTags.values
  walk : ∀ S ∈ r.typeTags.values, ∀ T ∈ r.typeTags.values,
    S.derivesFrom T = true ↔ Relation.ReflTransGen r.Parent S.name T.name
  refl : ∀ S ∈ r.typeTags.values, S.derivesFrom S = true
  trans : ∀ S ∈ r.typeTags.values, ∀ T ∈ r.typeTags.values, ∀ U ∈ r.typeTags.values,
    S.derivesFrom T = true → T.derivesFrom U = true → S.derivesFrom U = true
  antisymm : ∀ S ∈ r.typeTags.values, ∀ T ∈ r.typeTags.values,
    S.derivesFrom T = true → T.derivesFrom S = true → S = T
  total : ∀ S ∈ r.typeTags.values, ∀ T ∈ r.typeTags.values, ∀ U ∈ r.typeTags.values,
    S.derivesFrom T = true → S.derivesFrom U = true →
      T.derivesFrom U = true ∨ U.derivesFrom T = true

theorem Closed.forest (h : r.Closed) : r.Forest where
  wellFounded := h.wellFounded_parent
  bounded S hS := by
    obtain ⟨before, behind, heq⟩ := List.append_of_mem hS
    have hlength := (h.lineage before S behind heq).length_le
    have hvalues : r.typeTags.values.length = r.typeTags.size := by simp [Table.values, Table.size]
    rw [← hvalues, heq]
    simp only [List.length_reverse, List.length_append, List.length_cons,
      List.length_nil] at hlength ⊢
    omega
  closed S hS T hT := by
    rw [← h.hasTypeTag_iff] at hS ⊢
    exact hS.of_mem_lineage (TypeTag.derivesFrom_iff.1 hT)
  walk S hS T hT := (h.hasTypeTag_iff.2 hS).derivesFrom_iff (h.hasTypeTag_iff.2 hT)
  refl S _ := S.derivesFrom_refl
  trans S _ T _ U _ := TypeTag.derivesFrom_trans
  antisymm S _ T _ := TypeTag.derivesFrom_antisymm
  total S _ T _ U _ := TypeTag.derivesFrom_total

/-- What is defined later adds tags, and no walk between the old ones. -/
theorem Closed.walk_run (h : r.Closed) (later : List Step) {S T : TypeTag}
    (hS : S ∈ r.typeTags.values) (hT : T ∈ r.typeTags.values) :
    S ∈ (r.run later).typeTags.values ∧
      (Relation.ReflTransGen (r.run later).Parent S.name T.name ↔
        Relation.ReflTransGen r.Parent S.name T.name) := by
  have hwithin := r.within_run later
  rw [← h.hasTypeTag_iff] at hS hT
  have hS' := hwithin.hasTypeTag hS
  refine ⟨(h.run later).hasTypeTag_iff.1 hS', ?_⟩
  rw [← hS.derivesFrom_iff hT, ← hS'.derivesFrom_iff (hwithin.hasTypeTag hT)]

end Registry

end VoxelQuery
