import VoxelQuery.Proofs.Table
import VoxelQuery.Registry.Basic

/-! How registries grow. Materials and tags are only added, and a block can be replaced only by a
block of the same identifier. So an entry that a registry has once stays the entry of its name, and
entries can be told apart by their names. -/
namespace VoxelQuery.Registry

/-- What can be done with a registry. -/
inductive Step where
  | material (name : String)
  | typeTag (name : String) (parent : Option String)
  | block (entry : BlockSpec)
  | freeze

/-- A definition that fails leaves the registry as it is. -/
def after {α : Type} (r : Registry) : Except DefinitionError (Registry × α) → Registry
  | .ok (next, _) => next
  | .error _ => r

def step (r : Registry) : Step → Registry
  | .material name => r.after (r.addMaterial name)
  | .typeTag name parent => r.after (r.addTypeTag name parent)
  | .block entry => r.after (r.addBlock entry)
  | .freeze => r.freeze

def run (r : Registry) (steps : List Step) : Registry := steps.foldl step r

/-- What one step can make of a registry. -/
inductive Grows (r : Registry) : Registry → Prop
  | stay : Grows r r
  | freeze : Grows r r.freeze
  | material {name : String} (hopen : r.frozen = false) (hnew : r.materials.get? name = none) :
      Grows r { r with materials := r.materials.put name ⟨r.number, name⟩ }
  | typeTag (tag : TypeTag) (hopen : r.frozen = false)
      (hnew : r.typeTags.get? tag.name = none)
      (hroot : tag.parent? = none → tag = .root r.number tag.name)
      (hderived : ∀ parent, tag.parent? = some parent → ∃ name, r.typeTags.get? name = some parent) :
      Grows r { r with typeTags := r.typeTags.put tag.name tag }
  | block {text tagName materialName : String} (block : Block) (hopen : r.frozen = false)
      (hidentifier : block.identifier = r.canonical text)
      (htag : r.typeTags.get? tagName = some block.typeTag)
      (hmaterial : r.materials.get? materialName = some block.material) :
      Grows r { r with blocks := r.blocks.put block.identifier block }

variable {r next : Registry}

theorem grows_addMaterial {name : String} : r.Grows (r.after (r.addMaterial name)) := by
  unfold addMaterial
  split
  · exact .stay
  · next hfrozen =>
    split
    · exact .stay
    · next hnew => exact .material (by simpa using hfrozen) (by simpa [Table.contains] using hnew)

theorem grows_addTypeTag {name : String} {parent : Option String} :
    r.Grows (r.after (r.addTypeTag name parent)) := by
  unfold addTypeTag
  split
  · exact .stay
  · next hfrozen =>
    have hopen : r.frozen = false := by simpa using hfrozen
    split
    · exact .stay
    · next hname =>
      have hnew : r.typeTags.get? name = none := by simpa [Table.contains] using hname
      split
      · refine .typeTag (.root r.number name) hopen hnew (fun _ => rfl) ?_
        rintro parent hparent
        cases hparent
      · split
        · exact .stay
        · next parentTag hparent =>
          refine .typeTag (.derived name parentTag) hopen hnew ?_ ?_
          · rintro hnone
            cases hnone
          · rintro parent heq
            cases heq
            exact ⟨_, hparent⟩

theorem grows_addBlock {entry : BlockSpec} : r.Grows (r.after (r.addBlock entry)) := by
  unfold addBlock
  split
  · exact .stay
  · next hfrozen =>
    split
    · exact .stay
    · next htag =>
      split
      · exact .stay
      · next hmaterial =>
        exact .block ⟨r.canonical entry.identifier, _, _, _⟩ (by simpa using hfrozen) rfl htag
          hmaterial

theorem grows_step (r : Registry) (s : Step) : r.Grows (r.step s) := by
  cases s with
  | material name => exact grows_addMaterial
  | typeTag name parent => exact grows_addTypeTag
  | block entry => exact grows_addBlock
  | freeze => exact .freeze

/-- The tag and all its ancestors are the entries of their names. -/
def HasTypeTag (r : Registry) (tag : TypeTag) : Prop :=
  ∀ t ∈ tag.lineage, r.typeTags.get? t.name = some t

def HasMaterial (r : Registry) (m : Material) : Prop := r.materials.get? m.name = some m

def HasBlock (r : Registry) (identifier : String) : Prop :=
  ∃ block, r.blocks.get? identifier = some block ∧ block.identifier = identifier

/-- Every entry stands under its own name, with entries for all that it refers to. -/
structure Sound (r : Registry) : Prop where
  material : ∀ name m, r.materials.get? name = some m → m.name = name
  typeTag : ∀ name tag, r.typeTags.get? name = some tag → tag.name = name ∧ r.HasTypeTag tag
  block : ∀ identifier block, r.blocks.get? identifier = some block →
    block.identifier = identifier ∧ r.HasTypeTag block.typeTag ∧ r.HasMaterial block.material

/-- What is there stays there. -/
structure Within (r next : Registry) : Prop where
  material : ∀ name m, r.materials.get? name = some m → next.materials.get? name = some m
  typeTag : ∀ name tag, r.typeTags.get? name = some tag → next.typeTags.get? name = some tag
  block : ∀ identifier, r.HasBlock identifier → next.HasBlock identifier

namespace Within

theorem refl (r : Registry) : r.Within r := ⟨fun _ _ h => h, fun _ _ h => h, fun _ h => h⟩

theorem trans {last : Registry} (h : r.Within next) (h' : next.Within last) : r.Within last where
  material name m hm := h'.material name m (h.material name m hm)
  typeTag name tag htag := h'.typeTag name tag (h.typeTag name tag htag)
  block identifier hblock := h'.block identifier (h.block identifier hblock)

theorem hasMaterial (h : r.Within next) {m : Material} (hm : r.HasMaterial m) :
    next.HasMaterial m := h.material m.name m hm

theorem hasTypeTag (h : r.Within next) {tag : TypeTag} (htag : r.HasTypeTag tag) :
    next.HasTypeTag tag := fun t ht => h.typeTag t.name t (htag t ht)

end Within

/-- A tag has its entries if it has its own and its parent has them. -/
theorem hasTypeTag_of_parent {tag : TypeTag} (h : r.typeTags.get? tag.name = some tag)
    (hparent : ∀ parent, tag.parent? = some parent → r.HasTypeTag parent) : r.HasTypeTag tag := by
  cases tag with
  | root number name => exact List.forall_mem_singleton.2 h
  | derived name parent => exact List.forall_mem_cons.2 ⟨h, hparent parent rfl⟩

theorem Grows.within (h : r.Grows next) : r.Within next := by
  cases h with
  | stay => exact .refl r
  | freeze => exact ⟨fun _ _ h => h, fun _ _ h => h, fun _ h => h⟩
  | material hopen hnew =>
    exact ⟨fun _ _ hm => Table.get?_put_of_new hnew hm, fun _ _ h => h, fun _ h => h⟩
  | typeTag tag hopen hnew hroot hderived =>
    exact ⟨fun _ _ h => h, fun _ _ htag => Table.get?_put_of_new hnew htag, fun _ h => h⟩
  | @block text tagName materialName block hopen hidentifier htag hmaterial =>
    refine ⟨fun _ _ h => h, fun _ _ h => h, ?_⟩
    rintro identifier ⟨old, hold, hname⟩
    rw [HasBlock, Table.get?_put]
    split
    · next heq => exact ⟨block, rfl, heq⟩
    · exact ⟨old, hold, hname⟩

theorem within_run (r : Registry) (steps : List Step) : r.Within (r.run steps) := by
  induction steps generalizing r with
  | nil => exact .refl r
  | cons s rest ih => exact (r.grows_step s).within.trans (ih (r.step s))

namespace Sound

theorem empty (number : Nat) (tagPrefixes : List String) (defaultNamespace : String) :
    Sound (.empty number tagPrefixes defaultNamespace) where
  material name m h := by cases h
  typeTag name tag h := by cases h
  block identifier block h := by cases h

/-- Entries refer to entries that were there before them. -/
theorem grows (h : r.Sound) (hgrows : r.Grows next) : next.Sound := by
  have hwithin := hgrows.within
  have hblock : ∀ identifier block, r.blocks.get? identifier = some block →
      block.identifier = identifier ∧ next.HasTypeTag block.typeTag ∧
        next.HasMaterial block.material := by
    intro identifier block hget
    obtain ⟨hname, htag, hmaterial⟩ := h.block identifier block hget
    exact ⟨hname, hwithin.hasTypeTag htag, hwithin.hasMaterial hmaterial⟩
  cases hgrows with
  | stay => exact h
  | freeze => exact ⟨h.material, h.typeTag, h.block⟩
  | @material name hopen hnew =>
    refine ⟨fun other m hm => ?_, h.typeTag, hblock⟩
    rcases Table.get?_put_cases hm with ⟨rfl, rfl⟩ | hold
    · rfl
    · exact h.material other m hold
  | typeTag tag hopen hnew hroot hderived =>
    refine ⟨h.material, fun name found hfound => ?_, hblock⟩
    rcases Table.get?_put_cases hfound with ⟨rfl, rfl⟩ | hold
    · refine ⟨rfl, hasTypeTag_of_parent hfound fun parent hparent => ?_⟩
      obtain ⟨parentName, hget⟩ := hderived parent hparent
      exact hwithin.hasTypeTag (h.typeTag parentName parent hget).2
    · obtain ⟨hname, hlineage⟩ := h.typeTag name found hold
      exact ⟨hname, hwithin.hasTypeTag hlineage⟩
  | @block text tagName materialName block hopen hidentifier htag hmaterial =>
    refine ⟨h.material, h.typeTag, fun identifier found hfound => ?_⟩
    rcases Table.get?_put_cases hfound with ⟨rfl, rfl⟩ | hold
    · have hname := h.material materialName block.material hmaterial
      rw [← hname] at hmaterial
      exact ⟨rfl, (h.typeTag tagName block.typeTag htag).2, hmaterial⟩
    · exact hblock identifier found hold

theorem run (h : r.Sound) (steps : List Step) : (r.run steps).Sound := by
  induction steps generalizing r with
  | nil => exact h
  | cons s rest ih => exact ih (h.grows (r.grows_step s))

variable (h : r.Sound)

include h

theorem hasBlock_of_identifier? {text identifier : String}
    (hid : r.identifier? text = some identifier) : r.HasBlock identifier := by
  obtain ⟨block, hblock, rfl⟩ := Option.map_eq_some_iff.1 hid
  have hname := (h.block _ block hblock).1
  refine ⟨block, ?_, rfl⟩
  rw [hname]
  exact hblock

theorem hasTypeTag_of_typeTag? {text : String} {tag : TypeTag}
    (htag : r.typeTag? text = some tag) : r.HasTypeTag tag := by
  obtain ⟨start, -, hget⟩ := List.exists_of_findSome?_eq_some htag
  exact (h.typeTag _ tag hget).2

theorem hasMaterial_of_material? {text : String} {m : Material}
    (hm : r.material? text = some m) : r.HasMaterial m := by
  have hname := h.material text m hm
  rw [HasMaterial, hname]
  exact hm

end Sound

section Names

variable {tag other : TypeTag} {m m' : Material}

/-- Tags of one registry are the same if they have the same name. -/
theorem HasTypeTag.eq_iff (h : r.HasTypeTag tag) (h' : r.HasTypeTag other) :
    tag = other ↔ tag.name = other.name := by
  constructor
  · rintro rfl
    rfl
  · intro hname
    have htag := h tag tag.self_mem_lineage
    rw [hname, h' other other.self_mem_lineage] at htag
    exact (Option.some.inj htag).symm

theorem HasTypeTag.of_mem_lineage (h : r.HasTypeTag tag) (hmem : other ∈ tag.lineage) :
    r.HasTypeTag other :=
  fun t ht => h t ((TypeTag.lineage_suffix hmem).subset ht)

theorem HasTypeTag.mem_lineage_iff (h : r.HasTypeTag tag) (h' : r.HasTypeTag other) :
    other ∈ tag.lineage ↔ other.name ∈ tag.lineage.map TypeTag.name := by
  constructor
  · exact List.mem_map_of_mem
  · intro hname
    obtain ⟨t, ht, heq⟩ := List.mem_map.1 hname
    rwa [← ((h.of_mem_lineage ht).eq_iff h').2 heq]

theorem HasMaterial.eq_iff (h : r.HasMaterial m) (h' : r.HasMaterial m') :
    m = m' ↔ m.name = m'.name := by
  constructor
  · rintro rfl
    rfl
  · intro hname
    have hm : r.materials.get? m.name = some m := h
    rw [hname] at hm
    exact Option.some.inj (hm.symm.trans h')

end Names

end VoxelQuery.Registry
