import VoxelQuery.Proofs.Catalog.Building
import VoxelQuery.Proofs.Library.Listing
import VoxelQuery.Proofs.World.Placement

/-! Names of a catalog as query texts. Every name that the schema accepts is scanned as one name, and
definitions, placements and queries complete identifiers by the same rule. So all that a catalog
defines can be asked for, and each text means one entry and no other. -/
namespace VoxelQuery

/-- The text compiles, and holds wherever the block has the property, in any world. -/
def Context.Addresses (c : Context) (text : String) (P : Block → Prop) : Prop :=
  ∃ p, c.compile text = .ok p ∧
    ∀ (w : World) (here : Position), p.holds w.scene here = true ↔ P (w.stateAt here).block

/-- Blocks, materials and queries answer to their names. However a block was spelled, it is known by
the full form of its identifier, both in the registry and in a world. -/
structure Catalog.Addressable (catalog : Catalog) (c : Context) : Prop where
  block : ∀ b ∈ c.registry.blocks.values,
    c.Addresses b.identifier fun found => found.identifier = b.identifier
  short : ∀ b ∈ c.registry.blocks.values, ∀ name, name ≠ "" → ':' ∉ name.toList →
    b.identifier = c.registry.defaultNamespace ++ ":" ++ name →
      c.Addresses name fun found => found.identifier = b.identifier
  defined : ∀ entry ∈ catalog.blocks, ∃ b ∈ c.registry.blocks.values,
    b.identifier = c.registry.canonical entry.identifier
  placed : ∀ fillBlock placements w, World.ofPlacements c.registry fillBlock placements = .ok w →
    (∀ p, IsLast Placement.position placements p →
      (w.stateAt p.position).block.identifier = c.registry.canonical p.block) ∧
    ∀ here, (∀ p ∈ placements, p.position ≠ here) →
      (w.stateAt here).block.identifier = c.registry.canonical fillBlock
  material : ∀ m ∈ c.registry.materials.values,
    c.Addresses ("~" ++ m.name) fun found => found.material = m
  query : ∀ name ∈ c.declared.keys, ∃ before q behind mid p,
    catalog.queries = before ++ q :: behind ∧ q.name = name ∧
      (∀ other ∈ behind, other.name ≠ name) ∧
      declareAll (.create c.registry catalog.defaultProperty catalog.fillBlock) before = .ok mid ∧
      mid.compile q.text = .ok p ∧ c.compile ("@" ++ name) = .ok p

namespace Context

variable {c : Context} {text : String}

theorem addresses_identifier (hname : TextRule.identifier.accepts text = true) {identifier : String}
    (hid : c.registry.identifier? text = some identifier) :
    c.Addresses text fun found => found.identifier = identifier := by
  refine ⟨.block identifier, Environment.compile_bare hname hid, fun w here => ?_⟩
  exact decide_eq_true_iff

theorem addresses_material {name : String} (hname : TextRule.word.accepts name = true) {m : Material}
    (hm : c.registry.material? name = some m) :
    c.Addresses ("~" ++ name) fun found => found.material = m := by
  have hatom : c.environment.atomPredicate? (.marked .material name) = some (.material m) := by
    rw [Environment.atomPredicate?]
    exact congrArg (Option.map Predicate.material) hm
  refine ⟨.material m, Environment.compile_marked .material hname ?_ hatom, fun w here => ?_⟩
  · rw [String.toList_append]
    rfl
  · exact decide_eq_true_iff

end Context

namespace Catalog

variable {start context : Context} {queries : List QuerySpec} {name : String}

/-- Declarations leave alone what is stored under other names. -/
theorem lookup?_of_declareAll (h : declareAll start queries = .ok context)
    (hother : ∀ q ∈ queries, q.name ≠ name) :
    context.store.lookup? name = start.store.lookup? name := by
  induction queries generalizing start with
  | nil =>
    cases h
    rfl
  | cons q rest ih =>
    obtain ⟨hq, hrest⟩ := List.forall_mem_cons.1 hother
    obtain ⟨next, p, hdeclare, htail⟩ := declareAll_cons_eq_ok_iff.1 h
    obtain ⟨-, -, rfl⟩ := Context.declare_eq_ok_iff.1 hdeclare
    rw [ih htail hrest, QueryStore.lookup?_put, if_neg hq]

/-- Under a name stands what its last declaration was compiled to. -/
theorem exists_last_declaration (h : declareAll start queries = .ok context) {q : QuerySpec}
    (hq : IsLast QuerySpec.name queries q) :
    ∃ before behind mid p, queries = before ++ q :: behind ∧
      (∀ other ∈ behind, other.name ≠ q.name) ∧ declareAll start before = .ok mid ∧
      mid.compile q.text = .ok p ∧ context.store.lookup? q.name = some p := by
  obtain ⟨before, behind, rfl, hbehind⟩ := hq
  rw [declareAll, List.foldlM_append] at h
  obtain ⟨mid, hmid, hrest⟩ := bind_eq_ok_iff.1 h
  obtain ⟨next, p, hdeclare, htail⟩ := declareAll_cons_eq_ok_iff.1 hrest
  obtain ⟨hp, -, rfl⟩ := Context.declare_eq_ok_iff.1 hdeclare
  refine ⟨before, behind, mid, p, rfl, hbehind, hmid, hp, ?_⟩
  rw [lookup?_of_declareAll htail hbehind, QueryStore.lookup?_put, if_pos rfl]

namespace Builds

variable {catalog : Catalog} {number : Nat} (h : catalog.Builds number context)

include h

theorem identifier?_eq {b : Block} (hb : b ∈ context.registry.blocks.values) {text : String}
    (htext : context.registry.canonical text = b.identifier) :
    context.registry.identifier? text = some b.identifier := by
  have hget := Table.get?_of_mem_values h.closed.block_named hb
  rw [Registry.identifier?, Registry.block?, htext, hget, Option.map_some]

theorem canonical_identifier {b : Block} (hb : b ∈ context.registry.blocks.values) :
    context.registry.canonical b.identifier = b.identifier := by
  have hget := Table.get?_of_mem_values h.closed.block_named hb
  have hcolon := h.closed.namespaced _ ((Table.mem_keys_iff _ _).2 ⟨b, hget⟩)
  rw [Registry.canonical, if_pos hcolon]

/-- A position that shows the block of a text is known by the full form of the text. -/
theorem identifier_of_showsAt {w : World} {here : Position} {text : String} {block : Block}
    {properties : List (String × String)} (hblock : context.registry.block? text = some block)
    (hshows : w.scene.ShowsAt here block properties) :
    (w.stateAt here).block.identifier = context.registry.canonical text :=
  (congrArg CellView.identifier hshows.state).trans (h.closed.block_named _ block hblock)

theorem addressable (hc : catalog.Conforms) : catalog.Addressable context where
  block b hb := Context.addresses_identifier (h.accepts_block hc hb)
    (h.identifier?_eq hb (h.canonical_identifier hb))
  short b hb name hne hcolon hidentifier := by
    have hcanonical : context.registry.canonical name = b.identifier := by
      rw [Registry.canonical, if_neg hcolon, hidentifier]
    refine Context.addresses_identifier ?_ (h.identifier?_eq hb hcanonical)
    obtain ⟨-, hparts⟩ := (Text.isIdentifier_iff _).1 (h.accepts_block hc hb)
    refine (Text.isIdentifier_iff _).2 ⟨by simpa using hne, fun c hmem => hparts c ?_⟩
    rw [hidentifier, String.toList_append]
    exact List.mem_append_right _ hmem
  defined entry hentry := by
    have hstep : .block entry ∈ catalog.steps := by simpa [steps, typeTagStep] using hentry
    obtain ⟨b, hb, hname⟩ := Registry.hasBlock_of_build h.build hstep
    exact ⟨b, Table.mem_values_iff.2 ⟨_, hb⟩, hname⟩
  placed fillBlock placements w hw := by
    have hshows := World.shows_of_ofPlacements hw
    refine ⟨fun p hp => ?_, fun here hnone => ?_⟩
    · obtain ⟨block, hblock, hat⟩ := hshows.placed p hp
      exact h.identifier_of_showsAt hblock hat
    · obtain ⟨block, hblock, hat⟩ := hshows.filled here hnone
      exact h.identifier_of_showsAt hblock hat
  material m hm := Context.addresses_material (h.accepts_material hc hm)
    (Table.get?_of_mem_values h.closed.material hm)
  query name hname := by
    obtain ⟨-, hdeclared⟩ := Library.covered_context (context_eq_ok_iff.2 h) .empty
    rw [hdeclared] at hname
    obtain ⟨q, hq⟩ := (Table.mem_keys_iff _ _).1 hname
    obtain ⟨hlast, rfl⟩ := Library.isLast_of_declaredTable hq
    obtain ⟨before, behind, mid, p, hqueries, hbehind, hmid, hp, hlookup⟩ :=
      exists_last_declaration h.declare hlast
    refine ⟨before, q, behind, mid, p, hqueries, rfl, hbehind, hmid, hp, ?_⟩
    exact Environment.compile_reference (hc.query q hlast.mem).1 hlookup

end Builds

/-- Whatever document a catalog is read from, all its entries can be addressed in its context. -/
theorem addressable_of_parse {value : Json} {catalog : Catalog} (hparse : parse value = .ok catalog)
    {number : Nat} (hcontext : catalog.context number = .ok context) : catalog.Addressable context :=
  (context_eq_ok_iff.1 hcontext).addressable (conforms_of_parse hparse)

/-- Identifiers with colons at their ends and in a row, a block that is spelled in two ways, and a
query that is declared twice. -/
def colons : Catalog where
  defaultNamespace := "core"
  tagPrefixes := ["", "core."]
  defaultProperty := "variant"
  fillBlock := "::"
  materials := ["rock"]
  typeTags := [⟨"core.Stone", none⟩, ⟨"Ore", some "core.Stone"⟩]
  blocks := [⟨"::", "core.Stone", "rock", none⟩, ⟨":a", "Ore", "rock", some true⟩,
    ⟨"a", "Ore", "rock", none⟩, ⟨"core:a", "core.Stone", "rock", none⟩]
  queries := [⟨"odd", none, ":a, ::"⟩, ⟨"odd", some "twice", "!@odd ~rock"⟩]

theorem addressable_of_parse_colons :
    ∃ context, parse colons.toJson = .ok colons ∧ colons.context 3 = .ok context ∧
      colons.Addressable context := by
  have hcontext : ∃ context, colons.context 3 = .ok context := ⟨_, by cbv⟩
  obtain ⟨context, hcontext⟩ := hcontext
  have hparse : parse colons.toJson = .ok colons := by cbv
  exact ⟨context, hparse, hcontext, addressable_of_parse hparse hcontext⟩

end Catalog

end VoxelQuery
