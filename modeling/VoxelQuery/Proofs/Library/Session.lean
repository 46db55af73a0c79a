import VoxelQuery.Proofs.Library.Atomicity
import VoxelQuery.Proofs.Query.Grounding

/-! Sessions. Over a registry that is filled from nothing, queries are declared, defined and loaded,
while the registry may go on to grow. At every moment, all predicates that are stored or can be
compiled are well formed and speak of entries that the registry has at that moment. -/
namespace VoxelQuery

/-- What every step keeps: a registry whose entries are in order, a store that is open, and stored
predicates that are grounded in the registry. -/
structure Context.Sound (c : Context) : Prop where
  registry : c.registry.Sound
  frozen : c.store.frozen = false
  store : ∀ name p, c.store.lookup? name = some p → p.Grounded c.registry

/-- Every predicate that is stored or compiled is grounded in the registry, and is evaluated in the
worlds of the registry as if entries were compared by name. -/
structure Context.Grounded (c : Context) : Prop where
  stored : ∀ name p, c.store.lookup? name = some p → p.Grounded c.registry
  compiled : ∀ text p, c.compile text = .ok p → p.Grounded c.registry
  byName : ∀ p : Predicate, p.Grounded c.registry → ∀ scene : Scene, scene.DrawnFrom c.registry →
    ∀ here, p.holds scene here = p.holdsByName scene here
  worlds : ∀ placements w, c.world placements = .ok w → w.scene.DrawnFrom c.registry

/-- What holds of a context goes on to hold when a text is registered, whatever is declared. -/
structure Context.Stable (P : Context → Prop) : Prop where
  register : ∀ {c next : Context} {name text : String} {p : Predicate}, P c →
    c.register name text = .ok (next, p) → P next
  declared : ∀ {c : Context}, P c → ∀ declared, P { c with declared := declared }

namespace Context

variable {c : Context}

namespace Stable

variable {P : Context → Prop} (hP : Stable P)

include hP

theorem declare (h : P c) {q : QuerySpec} {next : Context} {p : Predicate}
    (hnext : c.declare q = .ok (next, p)) : P next := by
  obtain ⟨⟨mid, found⟩, hregister, heq⟩ := map_eq_ok_iff.1 hnext
  cases heq
  exact hP.declared (hP.register h hregister) _

theorem loadOnce (h : P c) {pending : List SavedQuery} {pass : LoadPass}
    (hpass : Library.loadOnce c pending = .ok pass) : P pass.context := by
  induction pending generalizing c pass with
  | nil =>
    cases hpass
    exact h
  | cons saved rest ih =>
    rw [Library.loadOnce] at hpass
    split at hpass
    · next hnext =>
      obtain ⟨found, hrest, rfl⟩ := map_eq_ok_iff.1 hpass
      have hlast : P found.context := ih (hP.register h hnext) hrest
      exact hlast
    · obtain ⟨found, hrest, rfl⟩ := map_eq_ok_iff.1 hpass
      have hlast : P found.context := ih h hrest
      exact hlast
    · cases hpass

theorem loadPending (h : P c) {pending : List SavedQuery} {last : Context} {report : LoadReport}
    (hload : Library.loadPending c pending = .ok (last, report)) : P last := by
  induction hn : pending.length using Nat.strongRecOn generalizing c pending last report with
  | ind n ih =>
    rw [Library.loadPending] at hload
    obtain ⟨pass, hpass, hrest⟩ := bind_eq_ok_iff.1 hload
    have hnext := hP.loadOnce h hpass
    split at hrest
    · next hlt =>
      obtain ⟨⟨found, later⟩, hlast, heq⟩ := bind_eq_ok_iff.1 hrest
      cases heq
      exact ih _ (by rw [List.length_map]; omega) hnext hlast rfl
    · cases hrest
      exact hnext

end Stable

namespace Sound

theorem compile (h : c.Sound) {text : String} {p : Predicate} (hp : c.compile text = .ok p) :
    p.Grounded c.registry := by
  have henvironment : c.environment.Grounded c.registry :=
    ⟨fun _ _ => h.registry.hasBlock_of_identifier?, fun _ _ => h.registry.hasTypeTag_of_typeTag?,
      fun _ _ => h.registry.hasMaterial_of_material?, h.store⟩
  exact henvironment.compile hp

theorem grounded (h : c.Sound) : c.Grounded where
  stored := h.store
  compiled _ _ hp := h.compile hp
  byName _ hp _ hscene here := hp.holds_eq_holdsByName hscene here
  worlds _ _ hw := World.drawnFrom_ofPlacements h.registry hw

theorem put (h : c.Sound) (name : String) {p : Predicate} (hp : p.Grounded c.registry) :
    (c.withStore (c.store.put name p)).Sound where
  registry := h.registry
  frozen := h.frozen
  store other q hq := by
    rcases Table.get?_put_cases hq with ⟨rfl, rfl⟩ | hold
    · exact hp
    · exact h.store other q hold

/-- Growth of the registry takes no ground from under a predicate. -/
theorem grow (h : c.Sound) (s : Registry.Step) :
    Sound { c with registry := c.registry.step s } where
  registry := h.registry.grows (c.registry.grows_step s)
  frozen := h.frozen
  store name p hp := (h.store name p hp).mono (c.registry.grows_step s).within

theorem stable : Stable Sound where
  register h hnext := by
    obtain ⟨hp, -, rfl⟩ := register_eq_ok_iff.1 hnext
    exact h.put _ (h.compile hp)
  declared h _ := ⟨h.registry, h.frozen, h.store⟩

end Sound

theorem grounded_of_predicate? {r : Registry} (h : r.Sound) {preset : Preset} {p : Predicate}
    (hp : preset.predicate? r = some p) : p.Grounded r := by
  cases preset with
  | anything =>
    cases hp
    exact .always
  | nothing =>
    cases hp
    exact .never
  | airAbove =>
    cases hp
    exact .emptyAbove
  | hasWater =>
    obtain ⟨m, hm, rfl⟩ := Option.map_eq_some_iff.1 hp
    exact .adjacent (h.hasMaterial_of_material? hm)

theorem sound_create {r : Registry} (h : r.Sound) (defaultProperty fillBlock : String) :
    (create r defaultProperty fillBlock).Sound where
  registry := h
  frozen := rfl
  store name p hp := by
    obtain ⟨preset, -, hpreset⟩ := List.mem_filterMap.1 (Table.mem_of_get?_ofPairs hp)
    obtain ⟨q, hq, heq⟩ := Option.map_eq_some_iff.1 hpreset
    cases heq
    exact grounded_of_predicate? h hq

end Context

namespace Library

/-- What can be done with a library whose registry may still grow. Its database can be exchanged for
another one at any time. -/
inductive Step where
  | registry (s : Registry.Step)
  | database (db : Database)
  | declare (q : QuerySpec)
  | define (stamp : Stamp) (q : QuerySpec)
  | load

/-- A declaration or a loading that fails leaves the library as it is. -/
def step (l : Library) : Step → Library
  | .registry s => { l with context := { l.context with registry := l.context.registry.step s } }
  | .database db => { l with database := db }
  | .declare q =>
    match l.context.declare q with
    | .ok (next, _) => { l with context := next }
    | .error _ => l
  | .define stamp q => (l.define stamp q).2
  | .load =>
    match l.load with
    | .ok (next, _) => next
    | .error _ => l

def run (l : Library) (steps : List Step) : Library := steps.foldl step l

/-- A registry is filled, a context is made of it, and both are used from then on. -/
def session (start : Registry) (definitions : List Registry.Step)
    (defaultProperty fillBlock : String) (db : Database) (steps : List Step) : Library :=
  run ⟨.create (start.run definitions) defaultProperty fillBlock, db⟩ steps

variable {l : Library}

section Stable

variable {P : Context → Prop} (hP : Context.Stable P)

include hP

theorem stable_define (h : P l.context) (stamp : Stamp) (q : QuerySpec) :
    P (l.define stamp q).2.context := by
  cases hp : l.context.compile q.text with
  | error e =>
    rw [define_of_compile_error hp]
    exact h
  | ok p =>
    cases hrow : l.database.save stamp q with
    | error e =>
      rw [define_of_save_error hp hrow]
      exact h
    | ok result =>
      obtain ⟨saved, row⟩ := result
      rw [define]
      cases hstore : l.context.store.register row.name p with
      | error e =>
        simp only [hp, hrow, hstore]
        exact h
      | ok store =>
        have hregister : l.context.register row.name q.text =
            .ok ({ l.context with store := store }, p) := by
          simp only [Context.register, hp, hstore, Except.map]
        simp only [hp, hrow, hstore]
        exact hP.register h hregister

theorem stable_load (h : P l.context) : P (l.step .load).context := by
  rw [step]
  split
  · next next report hload =>
    obtain ⟨pending, -, hrest⟩ := bind_eq_ok_iff.1 hload
    obtain ⟨⟨last, found⟩, hlast, heq⟩ := bind_eq_ok_iff.1 hrest
    cases heq
    exact hP.loadPending h hlast
  · exact h

/-- Only changes of the registry do more than register texts. -/
theorem stable_step (h : P l.context) {s : Step} (hs : ∀ change, s ≠ .registry change) :
    P (l.step s).context := by
  cases s with
  | registry change => exact absurd rfl (hs change)
  | database db => exact h
  | declare q =>
    rw [step]
    split
    · next hnext => exact hP.declare h hnext
    · exact h
  | define stamp q => exact stable_define hP h stamp q
  | load => exact stable_load hP h

theorem stable_run (h : P l.context) {steps : List Step}
    (hsteps : ∀ change, .registry change ∉ steps) : P (l.run steps).context := by
  induction steps generalizing l with
  | nil => exact h
  | cons s rest ih =>
    refine ih (stable_step hP h fun change heq => hsteps change ?_) fun change hmem => ?_
    · rw [heq]
      exact List.mem_cons_self
    · exact hsteps change (List.mem_cons_of_mem _ hmem)

end Stable

theorem sound_step (h : l.context.Sound) (s : Step) : (l.step s).context.Sound := by
  by_cases hs : ∃ change, s = .registry change
  · obtain ⟨change, rfl⟩ := hs
    exact h.grow change
  · exact stable_step Context.Sound.stable h fun change heq => hs ⟨change, heq⟩

theorem sound_run (h : l.context.Sound) (steps : List Step) : (l.run steps).context.Sound := by
  induction steps generalizing l with
  | nil => exact h
  | cons s rest ih => exact ih (sound_step h s)

/-- Whatever is done in a session, no predicate comes of it that is malformed, or that speaks of
something which the registry does not have. -/
theorem grounded_session (number : Nat) (tagPrefixes : List String) (defaultNamespace : String)
    (definitions : List Registry.Step) (defaultProperty fillBlock : String) (db : Database)
    (steps : List Step) :
    (session (.empty number tagPrefixes defaultNamespace) definitions defaultProperty fillBlock db
      steps).context.Grounded := by
  have hregistry := (Registry.Sound.empty number tagPrefixes defaultNamespace).run definitions
  exact (sound_run (Context.sound_create hregistry defaultProperty fillBlock) steps).grounded

end Library

end VoxelQuery
