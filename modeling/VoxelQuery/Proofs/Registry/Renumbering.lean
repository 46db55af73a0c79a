import VoxelQuery.Proofs.Registry.Definition

/-! Registries that differ in their number only. Entries carry the number of their registry, so the
registry that is filled anew with all that another one lists is not the same, but every name stands
for the entry that differs in the number. -/
namespace VoxelQuery

def Material.renumber (n : Nat) (m : Material) : Material := { m with registry := n }

namespace TypeTag

/-- The whole chain of ancestors changes with the tag. -/
def renumber (n : Nat) : TypeTag → TypeTag
  | root _ name => root n name
  | derived name parent => derived name (parent.renumber n)

end TypeTag

def Block.renumber (n : Nat) (b : Block) : Block :=
  { b with typeTag := b.typeTag.renumber n, material := b.material.renumber n }

/-- A computation over a list that goes through the states that its prefixes stand for. -/
theorem foldlM_of_prefix {ε σ α : Type} {f : σ → α → Except ε σ} (state : List α → σ) {l : List α}
    (hstep : ∀ before a behind, l = before ++ a :: behind →
      f (state before) a = .ok (state (before ++ [a]))) :
    l.foldlM f (state []) = .ok (state l) := by
  have hrest : ∀ behind before, l = before ++ behind →
      behind.foldlM f (state before) = .ok (state l) := by
    intro behind
    induction behind with
    | nil =>
      rintro before rfl
      rw [List.append_nil]
      rfl
    | cons a rest ih =>
      intro before heq
      rw [List.foldlM_cons, hstep before a rest heq]
      exact ih (before ++ [a]) (by rw [heq, List.append_assoc, List.singleton_append])
  exact hrest l [] rfl

namespace Registry

def renumber (n : Nat) (r : Registry) : Registry :=
  { r with
    number := n
    materials := r.materials.mapValues (.renumber n)
    typeTags := r.typeTags.mapValues (.renumber n)
    blocks := r.blocks.mapValues (.renumber n) }

section Names

variable (n : Nat) (r : Registry) (text : String)

theorem block?_renumber : (r.renumber n).block? text = (r.block? text).map (.renumber n) :=
  Table.get?_mapValues _ _ _

theorem identifier?_renumber : (r.renumber n).identifier? text = r.identifier? text := by
  rw [identifier?, block?_renumber, Option.map_map]
  rfl

theorem material?_renumber : (r.renumber n).material? text = (r.material? text).map (.renumber n) :=
  Table.get?_mapValues _ _ _

theorem typeTag?_renumber : (r.renumber n).typeTag? text = (r.typeTag? text).map (.renumber n) := by
  have hget : ∀ name, (r.renumber n).typeTags.get? name =
      (r.typeTags.get? name).map (.renumber n) := fun name => Table.get?_mapValues _ _ _
  simp only [typeTag?, hget, List.map_findSome?]
  rfl

end Names

def materialCall (m : Material) : Step := .material m.name

def typeTagCall (tag : TypeTag) : Step := .typeTag tag.name (tag.parent?.map TypeTag.name)

def blockCall (b : Block) : Step :=
  .block ⟨b.identifier, b.typeTag.name, b.material.name, some b.isEmpty⟩

/-- The calls for all that a registry lists. -/
def calls (r : Registry) : List Step :=
  r.materials.values.map materialCall ++
    (r.typeTags.values.map typeTagCall ++ r.blocks.values.map blockCall)

section Tables

variable {α β : Type}

/-- The table of some values under their names. -/
def tableOf (name : α → String) (f : α → β) (l : List α) : Table String β :=
  .ofPairs (l.map fun a => (name a, f a))

variable {name : α → String} {f : α → β} {t : Table String α}

/-- Calls for the values of a table fill another table with them, if each call is admitted behind
those in front of it. -/
theorem build_table (hnamed : ∀ key a, t.get? key = some a → name a = key) (call : α → Step)
    (state : Table String β → Registry)
    (hstep : ∀ before a behind, t.values = before ++ a :: behind →
      name a ∉ (tableOf name f before).keys →
      (∀ b ∈ before, (tableOf name f before).get? (name b) = some (f b)) →
        (state (tableOf name f before)).frozen = false ∧
          ∃ entry, (state (tableOf name f before)).Admits (call a) entry ∧
            (state (tableOf name f before)).record entry =
              state ((tableOf name f before).put (name a) (f a))) :
    (state .empty).build (t.values.map call) = .ok (state (t.mapValues f)) := by
  rw [build, List.foldlM_map, ← Table.ofPairs_values f t hnamed]
  refine foldlM_of_prefix (fun l => state (tableOf name f l)) fun before a behind heq => ?_
  -- No two values share a name, so those in front are all there and the next one is new.
  have hnodup := t.nodup_keys
  rw [← Table.map_values_eq_keys hnamed, heq, List.map_append, List.nodup_append] at hnodup
  obtain ⟨hbefore, -, hapart⟩ := hnodup
  have hentries : (tableOf name f before).entries = before.map fun a => (name a, f a) := by
    apply Table.entries_ofPairs
    rw [List.map_map]
    exact hbefore
  have hconcat : tableOf name f (before ++ [a]) = (tableOf name f before).put (name a) (f a) := by
    rw [tableOf, List.map_append]
    exact Table.ofPairs_concat _ _
  have hnew : name a ∉ (tableOf name f before).keys := by
    rw [Table.keys, hentries, List.map_map]
    exact fun hmem => hapart _ hmem _ List.mem_cons_self rfl
  have hfound : ∀ b ∈ before, (tableOf name f before).get? (name b) = some (f b) := by
    intro b hb
    rw [Table.get?_eq_some_iff, hentries]
    exact List.mem_map_of_mem hb
  obtain ⟨hopen, entry, hadmits, hrecord⟩ := hstep before a behind heq hnew hfound
  rw [hconcat, ← hrecord]
  exact map_eq_ok_iff.2 ⟨_, attempt_eq_ok_iff.2 ⟨hopen, hadmits, rfl⟩, rfl⟩

end Tables

section Calls

variable {r : Registry} (h : r.Closed) (n : Nat)

include h

theorem build_materials :
    (empty n r.tagPrefixes r.defaultNamespace).build (r.materials.values.map materialCall) =
      .ok ⟨n, r.tagPrefixes, r.defaultNamespace, r.materials.mapValues (.renumber n), .empty, .empty,
        false⟩ :=
  build_table h.material materialCall
    (fun found => ⟨n, r.tagPrefixes, r.defaultNamespace, found, .empty, .empty, false⟩)
    fun _ m _ _ hnew _ => ⟨rfl, .material (m.renumber n), .material hnew, rfl⟩

theorem build_typeTags (materials : Table String Material) :
    build ⟨n, r.tagPrefixes, r.defaultNamespace, materials, .empty, .empty, false⟩
        (r.typeTags.values.map typeTagCall) =
      .ok ⟨n, r.tagPrefixes, r.defaultNamespace, materials, r.typeTags.mapValues (.renumber n),
        .empty, false⟩ := by
  refine build_table h.typeTag_named typeTagCall
    (fun found => ⟨n, r.tagPrefixes, r.defaultNamespace, materials, found, .empty, false⟩) ?_
  intro before tag behind heq hnew hfound
  -- The parent stands in front, so it is there under its name when the tag is called for.
  have hparent := h.parent before tag behind heq
  cases tag with
  | root number name => exact ⟨rfl, .typeTag (.root n name), .root hnew, rfl⟩
  | derived name parent =>
    have hget := hfound parent (hparent parent rfl).2
    exact ⟨rfl, .typeTag (.derived name (parent.renumber n)), .derived hnew hget, rfl⟩

theorem build_blocks :
    build ⟨n, r.tagPrefixes, r.defaultNamespace, r.materials.mapValues (.renumber n),
        r.typeTags.mapValues (.renumber n), .empty, false⟩ (r.blocks.values.map blockCall) =
      .ok ⟨n, r.tagPrefixes, r.defaultNamespace, r.materials.mapValues (.renumber n),
        r.typeTags.mapValues (.renumber n), r.blocks.mapValues (.renumber n), false⟩ := by
  refine build_table h.block_named blockCall
    (fun found => ⟨n, r.tagPrefixes, r.defaultNamespace, r.materials.mapValues (.renumber n),
      r.typeTags.mapValues (.renumber n), found, false⟩) ?_
  intro before b behind heq hnew hfound
  have hmem : b ∈ r.blocks.values := by
    rw [heq]
    exact List.mem_append_right _ List.mem_cons_self
  have hself := Table.get?_of_mem_values h.block_named hmem
  obtain ⟨-, htag, hmaterial⟩ := h.block _ b hself
  have hcolon := h.namespaced _ ((Table.mem_keys_iff _ _).2 ⟨b, hself⟩)
  have hget : (r.typeTags.mapValues (TypeTag.renumber n)).get? b.typeTag.name =
      some (b.typeTag.renumber n) := by
    rw [Table.get?_mapValues, htag _ b.typeTag.self_mem_lineage, Option.map_some]
  have hget' : (r.materials.mapValues (Material.renumber n)).get? b.material.name =
      some (b.material.renumber n) := by
    rw [Table.get?_mapValues, hmaterial, Option.map_some]
  refine ⟨rfl, _, .block hget hget', ?_⟩
  rw [canonical, if_pos hcolon]
  rfl

/-- All that a registry lists can be called for again, and gives the registry with another number. -/
theorem build_calls (hopen : r.frozen = false) :
    (empty n r.tagPrefixes r.defaultNamespace).build r.calls = .ok (r.renumber n) := by
  rw [calls, build_append, build_materials h]
  refine bind_eq_ok_iff.2 ⟨_, rfl, ?_⟩
  rw [build_append]
  refine bind_eq_ok_iff.2 ⟨_, build_typeTags h n _, (build_blocks h n).trans ?_⟩
  rw [renumber, hopen]

end Calls

end Registry

end VoxelQuery
