import Mathlib
import VoxelQuery.Proofs.Library.Session
import VoxelQuery.Proofs.Query.Congruence
import VoxelQuery.Proofs.Registry.Resolution

/-! What a text means while its library is used. Names are added to registries and stores and never
taken back, so a text that compiled goes on to compile. Its predicate can change in two ways only: a
new tag stands in front of one that the text refers to, or a query that it refers to is registered
again. -/
namespace VoxelQuery

namespace QueryStore

/-- From one store to another, only some names were registered and none was taken away. -/
structure Updates (s : QueryStore) (names : List String) (t : QueryStore) : Prop where
  kept : ∀ name, s.Registered name → t.Registered name
  others : ∀ name, name ∉ names → t.lookup? name = s.lookup? name

namespace Updates

variable {s t last : QueryStore} {names more : List String}

theorem refl (s : QueryStore) (names : List String) : s.Updates names s :=
  ⟨fun _ h => h, fun _ _ => rfl⟩

theorem trans (h : s.Updates names t) (h' : t.Updates more last) :
    s.Updates (names ++ more) last where
  kept name hname := h'.kept name (h.kept name hname)
  others name hname := by
    rw [List.mem_append, not_or] at hname
    rw [h'.others name hname.2, h.others name hname.1]

theorem put (s : QueryStore) (name : String) (p : Predicate) : s.Updates [name] (s.put name p) where
  kept other hother := registered_put_iff.2 (.inr hother)
  others other hother := by
    rw [List.mem_singleton] at hother
    rw [lookup?_put, if_neg (Ne.symm hother)]

end Updates

end QueryStore

theorem Registers.updates {c : Context} {rows : List SavedQuery} {s last : QueryStore}
    {names : List String} (h : Registers c rows s names last) : s.Updates names last where
  kept name hname := (h.registered_iff name).2 (.inl hname)
  others _ hname := h.lookup?_of_notMem hname

namespace Library

/-- The names that a step registers. -/
def registeredBy (l : Library) : Step → List String
  | .declare q =>
    match l.context.declare q with
    | .ok _ => [q.name]
    | .error _ => []
  | .define stamp q =>
    match (l.define stamp q).1 with
    | .ok row => [row.name]
    | .error _ => []
  | .load =>
    match l.load with
    | .ok (_, report) => report.loaded
    | .error _ => []
  | _ => []

/-- The names that are registered in a run, in their order and with repetitions. -/
def registeredIn (l : Library) : List Step → List String
  | [] => []
  | s :: rest => l.registeredBy s ++ registeredIn (l.step s) rest

/-- A library later on, when some names have been registered. -/
structure Continues (l : Library) (names : List String) (next : Library) : Prop where
  registry : l.context.registry.Extends next.context.registry
  defaultProperty : next.context.defaultProperty = l.context.defaultProperty
  store : l.context.store.Updates names next.context.store

section Steps

variable {l next last : Library} {names more : List String}

theorem Continues.refl (l : Library) (names : List String) : l.Continues names l :=
  ⟨.refl _, rfl, .refl _ _⟩

theorem Continues.trans (h : l.Continues names next) (h' : next.Continues more last) :
    l.Continues (names ++ more) last where
  registry := h.registry.trans h'.registry
  defaultProperty := h'.defaultProperty.trans h.defaultProperty
  store := h.store.trans h'.store

theorem Continues.of_context (h : next.context = l.context) (names : List String) :
    l.Continues names next := by
  refine ⟨?_, ?_, ?_⟩
  · rw [h]
    exact .refl _
  · rw [h]
  · rw [h]
    exact .refl _ _

theorem continues_declare (l : Library) (q : QuerySpec) :
    l.Continues (l.registeredBy (.declare q)) (l.step (.declare q)) := by
  cases hdeclare : l.context.declare q with
  | error e =>
    simp only [step, registeredBy, hdeclare]
    exact .refl l []
  | ok result =>
    obtain ⟨next, p⟩ := result
    simp only [step, registeredBy, hdeclare]
    obtain ⟨-, -, rfl⟩ := Context.declare_eq_ok_iff.1 hdeclare
    exact ⟨.refl _, rfl, .put _ _ _⟩

theorem continues_define (l : Library) (stamp : Stamp) (q : QuerySpec) :
    l.Continues (l.registeredBy (.define stamp q)) (l.step (.define stamp q)) := by
  simp only [step, registeredBy]
  cases hp : l.context.compile q.text with
  | error e =>
    rw [define_of_compile_error hp]
    exact .refl l _
  | ok p =>
    cases hrow : l.database.save stamp q with
    | error e =>
      rw [define_of_save_error hp hrow]
      exact .refl l _
    | ok result =>
      obtain ⟨saved, row⟩ := result
      cases hfrozen : l.context.store.frozen with
      | true =>
        have hlate : l.FailsLate stamp q saved := ⟨⟨p, hp⟩, ⟨row, hrow⟩, hfrozen⟩
        rw [hlate.define_eq]
        exact .of_context (by rfl) _
      | false =>
        rw [define_of_save_ok hp hrow hfrozen]
        exact ⟨.refl _, rfl, .put _ _ _⟩

section Frozen

variable {c context : Context} {pending : List SavedQuery} {report : LoadReport}

theorem context_of_loadOnce_frozen (hc : c.store.frozen = true) {pass : LoadPass}
    (h : loadOnce c pending = .ok pass) : pass.context = c := by
  induction pending generalizing pass with
  | nil =>
    cases h
    rfl
  | cons saved rest ih =>
    rw [loadOnce] at h
    split at h
    · next next p hregister =>
      obtain ⟨-, hopen, -⟩ := Context.register_eq_ok_iff.1 hregister
      rw [hc] at hopen
      cases hopen
    · obtain ⟨later, hlater, rfl⟩ := map_eq_ok_iff.1 h
      have hcontext := ih hlater
      exact hcontext
    · cases h

/-- A loading that a frozen store does not end has registered nothing. -/
theorem context_of_loadPending_frozen (hc : c.store.frozen = true)
    (h : loadPending c pending = .ok (context, report)) : context = c := by
  induction hn : pending.length using Nat.strongRecOn generalizing pending report with
  | ind n ih =>
    rw [loadPending] at h
    obtain ⟨pass, hpass, h⟩ := bind_eq_ok_iff.1 h
    have hcontext := context_of_loadOnce_frozen hc hpass
    split at h
    · next hlt =>
      obtain ⟨⟨final, rest⟩, hrest, heq⟩ := bind_eq_ok_iff.1 h
      cases heq
      rw [hcontext] at hrest
      exact ih (pass.failed.map Prod.fst).length (by rw [List.length_map]; omega) hrest rfl
    · cases h
      exact hcontext

end Frozen

theorem continues_load (l : Library) : l.Continues (l.registeredBy .load) (l.step .load) := by
  cases hload : l.load with
  | error e =>
    simp only [step, registeredBy, hload]
    exact .refl l []
  | ok result =>
    obtain ⟨next, report⟩ := result
    simp only [step, registeredBy, hload]
    obtain ⟨rows, hrows, h⟩ := bind_eq_ok_iff.1 hload
    obtain ⟨⟨context, found⟩, hpending, heq⟩ := bind_eq_ok_iff.1 h
    cases heq
    cases hfrozen : l.context.store.frozen with
    | true => exact .of_context (context_of_loadPending_frozen hfrozen hpending) _
    | false =>
      obtain ⟨last, report, hspec, hregisters⟩ := loadPending_spec (c := l.context) hfrozen rows
      have hstart : l.context.withStore l.context.store = l.context := rfl
      rw [hstart, hpending] at hspec
      cases hspec
      exact ⟨.refl _, rfl, hregisters.registers.updates⟩

theorem continues_step (l : Library) (s : Step) : l.Continues (l.registeredBy s) (l.step s) := by
  cases s with
  | registry s => exact ⟨.of_grows (l.context.registry.grows_step s), rfl, .refl _ _⟩
  | database db => exact .of_context (by rfl) _
  | declare q => exact continues_declare l q
  | define stamp q => exact continues_define l stamp q
  | load => exact continues_load l

theorem continues_run (l : Library) (steps : List Step) :
    l.Continues (l.registeredIn steps) (l.run steps) := by
  induction steps generalizing l with
  | nil => exact .refl l []
  | cons s rest ih => exact (continues_step l s).trans (ih (l.step s))

end Steps

/-- Some tag that the text names is shadowed. -/
def Shadowed (r next : Registry) (text : String) : Prop :=
  ∃ sigil name, (sigil = .typeTag ∨ sigil = .strictTypeTag) ∧ Mentions text (.marked sigil name) ∧
    r.ShadowedIn next name

section Meaning

variable {l next : Library} {names : List String} {text : String} {p : Predicate}
  {R : Predicate → Predicate → Prop}

/-- What tags and queries of the text stand for decides how its predicates are related. -/
theorem Continues.compile (h : l.Continues names next) (hsound : l.context.registry.Sound)
    (hR : Predicate.Congruence R) (hrefl : ∀ p, R p p)
    (htag : ∀ name tag found, l.context.registry.typeTag? name = some tag →
      next.context.registry.typeTag? name = some found →
      (¬Shadowed l.context.registry next.context.registry text → found = tag) →
        ∀ strict, R (.typeTag tag strict) (.typeTag found strict))
    (hquery : ∀ name, References text name → ∀ old new, l.context.store.lookup? name = some old →
      next.context.store.lookup? name = some new → R old new)
    (hp : l.context.compile text = .ok p) :
    ∃ p', next.context.compile text = .ok p' ∧ R p p' := by
  refine Environment.compile_congr hR (fun atom hmention q hq => ?_) hp
  cases atom with
  | bare name =>
    obtain ⟨identifier, hid, rfl⟩ := Option.map_eq_some_iff.1 hq
    have hnext := h.registry.identifier? hsound hid
    exact ⟨_, Option.map_eq_some_iff.2 ⟨identifier, hnext, rfl⟩, hrefl _⟩
  | group items =>
    cases hq
    have hitem : next.context.environment.itemTest = l.context.environment.itemTest := by
      funext item
      simp only [Environment.itemTest, Environment.propertyName, Context.environment,
        h.defaultProperty]
    exact ⟨_, by rw [Environment.atomPredicate?, hitem], hrefl _⟩
  | marked sigil name =>
    have hfound : ∀ strict tag, (sigil = .typeTag ∨ sigil = .strictTypeTag) →
        l.context.registry.typeTag? name = some tag →
          ∃ found, next.context.registry.typeTag? name = some found ∧
            R (.typeTag tag strict) (.typeTag found strict) := by
      intro strict tag hsigil hold
      obtain ⟨found, hnew, hsame⟩ := h.registry.exists_typeTag? hold
      refine ⟨found, hnew, htag name tag found hold hnew (fun hclear => hsame ?_) strict⟩
      exact fun hshadow => hclear ⟨sigil, name, hsigil, hmention, hshadow⟩
    cases sigil with
    | typeTag =>
      obtain ⟨tag, hold, rfl⟩ := Option.map_eq_some_iff.1 hq
      obtain ⟨found, hnew, hrelated⟩ := hfound false tag (.inl rfl) hold
      exact ⟨_, Option.map_eq_some_iff.2 ⟨found, hnew, rfl⟩, hrelated⟩
    | strictTypeTag =>
      obtain ⟨tag, hold, rfl⟩ := Option.map_eq_some_iff.1 hq
      obtain ⟨found, hnew, hrelated⟩ := hfound true tag (.inr rfl) hold
      exact ⟨_, Option.map_eq_some_iff.2 ⟨found, hnew, rfl⟩, hrelated⟩
    | material =>
      obtain ⟨m, hm, rfl⟩ := Option.map_eq_some_iff.1 hq
      exact ⟨_, Option.map_eq_some_iff.2 ⟨m, h.registry.material? hm, rfl⟩, hrefl _⟩
    | reference =>
      obtain ⟨new, hnew⟩ := h.store.kept name ⟨q, hq⟩
      exact ⟨new, hnew, hquery name hmention q new hq hnew⟩

/-- A text that compiles once compiles whatever is done later. Its predicate is the same as long as
none of its tags is shadowed and none of its references is registered again, and a reference can be
registered again without any change where the new predicate and the old one agree. -/
theorem compile_persists {c : Context} {number : Nat} {tagPrefixes : List String}
    {defaultNamespace : String} {definitions : List Registry.Step}
    (hregistry : c.registry = (Registry.empty number tagPrefixes defaultNamespace).run definitions)
    (db : Database) (steps : List Step) (hp : c.compile text = .ok p) :
    ∃ p', (run ⟨c, db⟩ steps).context.compile text = .ok p' ∧
      (¬Shadowed c.registry (run ⟨c, db⟩ steps).context.registry text →
        ((∀ name, References text name → name ∉ registeredIn ⟨c, db⟩ steps) → p' = p) ∧
        ∀ scene here,
          (∀ name ∈ registeredIn ⟨c, db⟩ steps, References text name → ∀ old new,
            c.store.lookup? name = some old →
            (run ⟨c, db⟩ steps).context.store.lookup? name = some new →
              new.holds scene here = old.holds scene here) →
          p'.holds scene here = p.holds scene here) := by
  have hrun := continues_run ⟨c, db⟩ steps
  have hsound : c.registry.Sound := by
    rw [hregistry]
    exact (Registry.Sound.empty number tagPrefixes defaultNamespace).run definitions
  -- What was not registered again stands for the same predicate.
  have hkept : ∀ name, name ∉ registeredIn ⟨c, db⟩ steps → ∀ old new,
      c.store.lookup? name = some old →
      (run ⟨c, db⟩ steps).context.store.lookup? name = some new → new = old := by
    intro name hname old new hold hnew
    rw [hrun.store.others name hname, hold] at hnew
    exact (Option.some.inj hnew).symm
  have hany : Predicate.Congruence fun _ _ => True := ⟨fun _ => trivial, fun _ _ _ _ => trivial⟩
  obtain ⟨p', hp', -⟩ := hrun.compile hsound hany (fun _ => trivial)
    (fun _ _ _ _ _ _ _ => trivial) (fun _ _ _ _ _ _ => trivial) hp
  refine ⟨p', hp', fun hclear => ⟨fun hfresh => ?_, fun scene here hagree => ?_⟩⟩
  · obtain ⟨same, hsame, rfl⟩ := hrun.compile hsound Predicate.congruence_eq (fun _ => rfl)
      (fun name tag found _ _ hsame strict => by rw [hsame hclear])
      (fun name href old new hold hnew => (hkept name (hfresh name href) old new hold hnew).symm) hp
    exact Except.ok.inj (hp'.symm.trans hsame)
  · obtain ⟨like, hlike, hholds⟩ := hrun.compile hsound (Predicate.congruence_holds scene here)
      (fun _ => rfl) (fun name tag found _ _ hsame strict => by rw [hsame hclear])
      (fun name href old new hold hnew => by
        by_cases hname : name ∈ registeredIn ⟨c, db⟩ steps
        · exact hagree name hname href old new hold hnew
        · rw [hkept name hname old new hold hnew]) hp
    rw [Except.ok.inj (hp'.symm.trans hlike), hholds]

end Meaning

/-- One rock, solid by a tag of the core. -/
def rockDefinitions : List Registry.Step :=
  [.material "rock", .typeTag "core.Solid" none, .block ⟨"stone", "core.Solid", "rock", none⟩]

def rockContext : Context :=
  .create ((Registry.empty 0 ["", "core."] "core").run rockDefinitions) "variant" "core:stone"

/-- Another tag, the block replaced, and a preset saved under its own name with a text that says the
same in other words. -/
def rockSteps : List Step :=
  [.registry (.typeTag "Clay" none), .registry (.block ⟨"core:stone", "Clay", "rock", some true⟩),
    .define ⟨"1", "2026"⟩ ⟨"anything", none, "@nothing, !@nothing"⟩, .load]

/-- A name that stands for a tag of the core is none of the names that tags have later. -/
theorem not_shadowed_rock :
    ¬Shadowed rockContext.registry (run ⟨rockContext, Database.blank.migrate⟩ rockSteps).context.registry
      "stone !$Solid @anything" := by
  rintro ⟨-, name, -, -, before, start, behind, hprefixes, -, ⟨old, hold⟩, q, hq, new, hnew⟩
  have hkeys : rockContext.registry.typeTags.keys = ["core.Solid"] := by cbv
  have hlater : (run ⟨rockContext, Database.blank.migrate⟩ rockSteps).context.registry.typeTags.keys =
      ["core.Solid", "Clay"] := by cbv
  have hstart := (Table.mem_keys_iff _ _).2 ⟨old, hold⟩
  have hfront := (Table.mem_keys_iff _ _).2 ⟨new, hnew⟩
  rw [hkeys] at hstart
  rw [hlater] at hfront
  change ["", "core."] = before ++ start :: behind at hprefixes
  cases before with
  | nil => cases hq
  | cons first more =>
    obtain ⟨rfl, hmore⟩ := List.cons.inj hprefixes
    cases more with
    | nil =>
      obtain ⟨rfl, -⟩ := List.cons.inj hmore
      rw [List.mem_singleton.1 hq, String.empty_append] at hfront
      rcases List.mem_pair.1 hfront with rfl | rfl
      · exact absurd hstart (by decide)
      · exact absurd hstart (by decide)
    | cons second rest => simp at hmore

theorem compile_persists_rock :
    ∃ p p', rockContext.compile "stone !$Solid @anything" = .ok p ∧
      (run ⟨rockContext, Database.blank.migrate⟩ rockSteps).context.compile
        "stone !$Solid @anything" = .ok p' ∧
      "anything" ∈ registeredIn ⟨rockContext, Database.blank.migrate⟩ rockSteps ∧
      ∀ scene here, p'.holds scene here = p.holds scene here := by
  have hp : ∃ p, rockContext.compile "stone !$Solid @anything" = .ok p := ⟨_, by cbv⟩
  obtain ⟨p, hp⟩ := hp
  obtain ⟨p', hp', hmeaning⟩ :=
    compile_persists (c := rockContext) rfl Database.blank.migrate rockSteps hp
  have hnames : registeredIn ⟨rockContext, Database.blank.migrate⟩ rockSteps =
      ["anything", "anything"] := by cbv
  have hold : rockContext.store.lookup? "anything" = some .always := by cbv
  have hnew : (run ⟨rockContext, Database.blank.migrate⟩ rockSteps).context.store.lookup? "anything" =
      some (.combination .or [.never, .negation .never]) := by cbv
  refine ⟨p, p', hp, hp', by rw [hnames]; decide, fun scene here => ?_⟩
  refine (hmeaning not_shadowed_rock).2 scene here fun name hname _ old new h h' => ?_
  rw [hnames] at hname
  have heq : name = "anything" := by simpa using hname
  rw [heq, hold] at h
  rw [heq, hnew] at h'
  cases h
  cases h'
  rfl

end Library

end VoxelQuery
