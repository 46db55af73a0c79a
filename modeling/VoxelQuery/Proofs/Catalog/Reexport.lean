import VoxelQuery.Proofs.Catalog.Addressing
import VoxelQuery.Proofs.Registry.Renumbering
import VoxelQuery.Service.Resource

/-! Catalogs that are written out and read again. The document of a context lists what its registry
holds, so with the fill block and the queries of the catalog it is a catalog again. That catalog
leads to a context that differs in the number of its registry only. -/
namespace VoxelQuery

namespace Predicate

mutual

/-- The same tests, of the entries with another number. -/
def renumber (n : Nat) : Predicate → Predicate
  | combination connective children => combination connective (renumberAll n children)
  | negation child => negation (renumber n child)
  | typeTag tag strict => typeTag (tag.renumber n) strict
  | material m => material (m.renumber n)
  | adjacent m => adjacent (m.renumber n)
  | p => p

def renumberAll (n : Nat) : List Predicate → List Predicate
  | [] => []
  | child :: rest => renumber n child :: renumberAll n rest

end

theorem renumberAll_eq_map (n : Nat) (children : List Predicate) :
    renumberAll n children = children.map (renumber n) := by
  induction children with
  | nil => rfl
  | cons child rest ih => rw [renumberAll, ih, List.map_cons]

theorem renumber_combine (n : Nat) (connective : Connective) (children : List Predicate) :
    (combine connective children).renumber n = combine connective (children.map (renumber n)) := by
  match children with
  | [] => cases connective <;> rfl
  | [child] => rfl
  | first :: second :: rest =>
    have hall := renumberAll_eq_map n (first :: second :: rest)
    exact congrArg (combination connective) hall

theorem congruence_renumber (n : Nat) : Congruence fun p q => q = p.renumber n where
  negation h := by rw [h, renumber]
  combine connective l m h := by
    rw [forall₂_eq_map_iff] at h
    rw [h, renumber_combine]

end Predicate

namespace Context

def renumber (n : Nat) (c : Context) : Context :=
  { c with
    registry := c.registry.renumber n
    store := { c.store with predicates := c.store.predicates.mapValues (.renumber n) } }

variable {c next : Context} {text : String} {p : Predicate} (n : Nat)

theorem lookup?_renumber (c : Context) (name : String) :
    (c.renumber n).store.lookup? name = (c.store.lookup? name).map (.renumber n) :=
  Table.get?_mapValues _ _ _

theorem atomPredicate?_renumber (c : Context) (atom : Atom) :
    (c.renumber n).environment.atomPredicate? atom =
      (c.environment.atomPredicate? atom).map (.renumber n) := by
  have hidentifier := Registry.identifier?_renumber n c.registry
  have htag := Registry.typeTag?_renumber n c.registry
  have hmaterial := Registry.material?_renumber n c.registry
  cases atom with
  | bare name =>
    simp only [Environment.atomPredicate?, environment, renumber, hidentifier, Option.map_map]
    rfl
  | group items =>
    simp only [Environment.atomPredicate?, Option.map_some, Predicate.allOf,
      Predicate.renumber_combine, List.map_map]
    rfl
  | marked sigil name =>
    cases sigil with
    | reference => exact lookup?_renumber n c name
    | typeTag =>
      simp only [Environment.atomPredicate?, environment, renumber, htag, Option.map_map]
      rfl
    | strictTypeTag =>
      simp only [Environment.atomPredicate?, environment, renumber, htag, Option.map_map]
      rfl
    | material =>
      simp only [Environment.atomPredicate?, environment, renumber, hmaterial, Option.map_map]
      rfl

theorem compile_renumber (hp : c.compile text = .ok p) :
    (c.renumber n).compile text = .ok (p.renumber n) := by
  have hatom : ∀ atom, Mentions text atom → ∀ q, c.environment.atomPredicate? atom = some q →
      ∃ q', (c.renumber n).environment.atomPredicate? atom = some q' ∧ q' = q.renumber n := by
    intro atom _ q hq
    exact ⟨_, by rw [atomPredicate?_renumber, hq, Option.map_some], rfl⟩
  obtain ⟨_, hp', rfl⟩ := Environment.compile_congr (Predicate.congruence_renumber n) hatom hp
  exact hp'

theorem declare_renumber {q : QuerySpec} (h : c.declare q = .ok (next, p)) :
    (c.renumber n).declare q = .ok (next.renumber n, p.renumber n) := by
  obtain ⟨hp, hopen, rfl⟩ := declare_eq_ok_iff.1 h
  refine declare_eq_ok_iff.2 ⟨compile_renumber n hp, hopen, ?_⟩
  simp only [renumber, QueryStore.put, Table.mapValues_put]

/-- The presets of a registry do not depend on its number. -/
theorem create_renumber (r : Registry) (defaultProperty fillBlock : String) :
    create (r.renumber n) defaultProperty fillBlock =
      (create r defaultProperty fillBlock).renumber n := by
  have hsupported : Preset.supported (r.renumber n) =
      (Preset.supported r).map fun e => (e.1, e.2.renumber n) := by
    rw [Preset.supported, Preset.supported, List.map_filterMap]
    refine List.filterMap_congr fun preset _ => ?_
    cases preset with
    | hasWater =>
      rw [Preset.predicate?, Preset.predicate?, Registry.material?_renumber]
      cases r.material? "water" <;> rfl
    | _ => rfl
  rw [create, hsupported, ← Table.mapValues_ofPairs]
  rfl

end Context

namespace Catalog

theorem declareAll_renumber (n : Nat) {start context : Context} {queries : List QuerySpec}
    (h : declareAll start queries = .ok context) :
    declareAll (start.renumber n) queries = .ok (context.renumber n) := by
  induction queries generalizing start with
  | nil =>
    cases h
    rfl
  | cons q rest ih =>
    obtain ⟨next, p, hdeclare, hrest⟩ := declareAll_cons_eq_ok_iff.1 h
    exact declareAll_cons_eq_ok_iff.2 ⟨_, _, Context.declare_renumber n hdeclare, ih hrest⟩

/-- What the document of a context says, with the fill block and the queries of its catalog. -/
def relisted (catalog : Catalog) (c : Context) : Catalog where
  defaultNamespace := c.registry.defaultNamespace
  tagPrefixes := c.registry.tagPrefixes
  defaultProperty := c.defaultProperty
  fillBlock := catalog.fillBlock
  materials := c.registry.materials.values.map Material.name
  typeTags := c.registry.typeTags.values.map fun tag => ⟨tag.name, tag.parent?.map TypeTag.name⟩
  blocks := c.registry.blocks.values.map fun b =>
    ⟨b.identifier, b.typeTag.name, b.material.name, some b.isEmpty⟩
  queries := catalog.queries

theorem steps_relisted (catalog : Catalog) (c : Context) :
    (catalog.relisted c).steps = c.registry.calls := by
  simp only [steps, relisted, List.map_map]
  rfl

namespace Builds

variable {catalog : Catalog} {number : Nat} {context : Context} (h : catalog.Builds number context)

include h

theorem relisted (n : Nat) : (catalog.relisted context).Builds n (context.renumber n) where
  build := by
    rw [steps_relisted]
    exact Registry.build_calls h.closed n h.frozen
  fill := by
    have hblock := Registry.block?_renumber n context.registry catalog.fillBlock
    have hsome := (congrArg Option.isSome hblock).trans Option.isSome_map
    exact hsome.trans h.fill
  declare := by
    have hdeclare := declareAll_renumber n h.declare
    rw [← Context.create_renumber, ← h.defaultProperty] at hdeclare
    exact hdeclare

end Builds

end Catalog

end VoxelQuery
