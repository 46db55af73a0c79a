import VoxelQuery.Proofs.Catalog.Conformance
import VoxelQuery.Proofs.Library.Requests
import VoxelQuery.Proofs.Library.Session
import VoxelQuery.Proofs.Registry.Definition
import VoxelQuery.Proofs.Text.Cutting

/-! From a catalog to its context. A catalog calls for its materials, then for its tags and then for
its blocks, so its registry is what these calls make of an empty one, and its names look as those of
the catalog do. Its queries change the store and the declarations only. -/
namespace VoxelQuery

/-- A namespace in front of an identifier makes it no less of an identifier. -/
theorem Registry.accepts_canonical {r : Registry} {text : String}
    (hnamespace : TextRule.word.accepts r.defaultNamespace = true)
    (htext : TextRule.identifier.accepts text = true) :
    TextRule.identifier.accepts (r.canonical text) = true := by
  unfold canonical
  split
  · exact htext
  · obtain ⟨-, hword⟩ := (Text.isWord_iff _).1 hnamespace
    obtain ⟨-, hparts⟩ := (Text.isIdentifier_iff _).1 htext
    refine (Text.isIdentifier_iff _).2 ⟨by simp, ?_⟩
    simp only [String.toList_append, List.mem_append]
    rintro c ((hc | hc) | hc)
    · exact Text.isIdentifierPart_of_isWordPart (hword c hc)
    · obtain rfl : c = ':' := by simpa using hc
      decide
    · exact hparts c hc

namespace Catalog

def typeTagStep (entry : TypeTagSpec) : Registry.Step := .typeTag entry.name entry.parent

/-- The calls for the entries of a catalog. -/
def steps (c : Catalog) : List Registry.Step :=
  c.materials.map .material ++ (c.typeTags.map typeTagStep ++ c.blocks.map .block)

variable {catalog : Catalog} {number : Nat} {context start : Context} {queries : List QuerySpec}

theorem addMaterials_eq_build (r : Registry) (names : List String) :
    addMaterials r names = r.build (names.map .material) := by
  rw [addMaterials, Registry.build, List.foldlM_map]
  congr 1
  funext r name
  rw [Registry.attempt]
  cases r.addMaterial name <;> rfl

theorem addTypeTags_eq_build (r : Registry) (entries : List TypeTagSpec) :
    addTypeTags r entries = r.build (entries.map typeTagStep) := by
  rw [addTypeTags, Registry.build, List.foldlM_map]
  congr 1
  funext r entry
  rw [typeTagStep, Registry.attempt]
  cases r.addTypeTag entry.name entry.parent <;> rfl

theorem addBlocks_eq_build (r : Registry) (entries : List BlockSpec) :
    addBlocks r entries = r.build (entries.map .block) := by
  rw [addBlocks, Registry.build, List.foldlM_map]
  congr 1
  funext r entry
  rw [Registry.attempt]
  cases r.addBlock entry <;> rfl

theorem define_eq_build (c : Catalog) (number : Nat) :
    c.define number = (Registry.empty number c.tagPrefixes c.defaultNamespace).build c.steps := by
  rw [define, steps, Registry.build_append, ← addMaterials_eq_build]
  congr 1
  funext r
  rw [Registry.build_append, ← addTypeTags_eq_build]
  congr 1
  funext r
  exact addBlocks_eq_build r c.blocks

/-- Declarations leave all of a context as it was but its store and its declarations. -/
theorem frame_of_declareAll (h : declareAll start queries = .ok context) :
    ∃ store declared, context = { start with store := store, declared := declared } := by
  obtain ⟨history, -, -, hhistory⟩ := exists_history .blank h
  obtain ⟨store, declared, hcontext⟩ := Library.context_foldl_record ⟨start, .blank⟩ history
  rw [hhistory] at hcontext
  exact ⟨store, declared, hcontext⟩

theorem stable_declareAll {P : Context → Prop} (hP : Context.Stable P) (hstart : P start)
    (h : declareAll start queries = .ok context) : P context := by
  induction queries generalizing start with
  | nil =>
    cases h
    exact hstart
  | cons q rest ih =>
    obtain ⟨next, p, hdeclare, hrest⟩ := declareAll_cons_eq_ok_iff.1 h
    exact ih (hP.declare hstart hdeclare) hrest

/-- The three things that have to succeed for a context: all calls, the search for the fill block, and
all declarations. -/
structure Builds (catalog : Catalog) (number : Nat) (context : Context) : Prop where
  build : (Registry.empty number catalog.tagPrefixes catalog.defaultNamespace).build catalog.steps =
    .ok context.registry
  fill : (context.registry.block? catalog.fillBlock).isSome = true
  declare : declareAll (.create context.registry catalog.defaultProperty catalog.fillBlock)
    catalog.queries = .ok context

theorem context_eq_ok_iff : catalog.context number = .ok context ↔ catalog.Builds number context := by
  constructor
  · intro h
    obtain ⟨r, hr, hdeclare⟩ := bind_eq_ok_iff.1 h
    have hregistry : context.registry = r := by
      obtain ⟨store, declared, rfl⟩ := frame_of_declareAll hdeclare
      rfl
    subst hregistry
    unfold registry at hr
    split at hr
    · cases hr
    · next hdefine =>
      split at hr
      · next hfill =>
        cases hr
        exact ⟨(define_eq_build catalog number).symm.trans hdefine, hfill, hdeclare⟩
      · cases hr
  · intro h
    refine bind_eq_ok_iff.2 ⟨context.registry, ?_, h.declare⟩
    rw [registry, define_eq_build, h.build]
    exact if_pos h.fill

namespace Builds

variable (h : catalog.Builds number context)

include h

theorem run : (Registry.empty number catalog.tagPrefixes catalog.defaultNamespace).run catalog.steps =
    context.registry := Registry.run_of_build h.build

theorem closed : context.registry.Closed := by
  rw [← h.run]
  exact (Registry.Closed.empty number catalog.tagPrefixes catalog.defaultNamespace).run _

theorem calledFor : context.registry.CalledFor catalog.steps := by
  rw [← h.run]
  exact Registry.calledFor_run number catalog.tagPrefixes catalog.defaultNamespace _

theorem frozen : context.registry.frozen = false := by
  rw [← h.run, Registry.frozen_run]
  · rfl
  · simp [steps, typeTagStep]

theorem tagPrefixes : context.registry.tagPrefixes = catalog.tagPrefixes := by
  rw [← h.run]
  exact (Registry.extends_run _ _).tagPrefixes

theorem defaultNamespace : context.registry.defaultNamespace = catalog.defaultNamespace := by
  rw [← h.run]
  exact (Registry.extends_run _ _).defaultNamespace

theorem defaultProperty : context.defaultProperty = catalog.defaultProperty := by
  obtain ⟨store, declared, heq⟩ := frame_of_declareAll h.declare
  rw [heq]
  rfl

theorem fillBlock : context.fillBlock = catalog.fillBlock := by
  obtain ⟨store, declared, heq⟩ := frame_of_declareAll h.declare
  rw [heq]
  rfl

/-- The predicates that a catalog leads to are grounded in its registry. -/
theorem sound : context.Sound :=
  stable_declareAll Context.Sound.stable (Context.sound_create h.closed.toSound _ _) h.declare

theorem material_mem {name : String} (hname : name ∈ context.registry.materials.keys) :
    name ∈ catalog.materials := by
  simpa [steps, typeTagStep] using h.calledFor.material name hname

theorem exists_typeTag {name : String} (hname : name ∈ context.registry.typeTags.keys) :
    ∃ entry ∈ catalog.typeTags, entry.name = name := by
  obtain ⟨parent, hmem⟩ := h.calledFor.typeTag name hname
  simp only [steps, typeTagStep, List.mem_append, List.mem_map] at hmem
  rcases hmem with ⟨m, -, heq⟩ | ⟨entry, hentry, heq⟩ | ⟨entry, -, heq⟩
  · cases heq
  · cases heq
    exact ⟨entry, hentry, rfl⟩
  · cases heq

theorem exists_block {identifier : String} (hname : identifier ∈ context.registry.blocks.keys) :
    ∃ entry ∈ catalog.blocks, context.registry.canonical entry.identifier = identifier := by
  obtain ⟨entry, hmem, hcanonical⟩ := h.calledFor.block identifier hname
  refine ⟨entry, ?_, hcanonical⟩
  simpa [steps, typeTagStep] using hmem

theorem accepts_material (hc : catalog.Conforms) {m : Material}
    (hm : m ∈ context.registry.materials.values) : TextRule.word.accepts m.name = true := by
  have hget := Table.get?_of_mem_values h.closed.material hm
  exact hc.material m.name (h.material_mem ((Table.mem_keys_iff _ _).2 ⟨m, hget⟩))

theorem accepts_block (hc : catalog.Conforms) {b : Block}
    (hb : b ∈ context.registry.blocks.values) : TextRule.identifier.accepts b.identifier = true := by
  have hget := Table.get?_of_mem_values h.closed.block_named hb
  obtain ⟨entry, hentry, hname⟩ := h.exists_block ((Table.mem_keys_iff _ _).2 ⟨b, hget⟩)
  rw [← hname]
  refine Registry.accepts_canonical ?_ (hc.block entry hentry).1
  rw [h.defaultNamespace]
  exact hc.defaultNamespace

end Builds

end Catalog

end VoxelQuery
