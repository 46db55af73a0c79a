import VoxelQuery.Proofs.Registry.Closure
import VoxelQuery.Proofs.Success

/-! Definitions that succeed. What a call gives is told by the tables that it finds, so every entry
of a registry that was filled from nothing was called for. -/
namespace VoxelQuery.Registry

/-- The entry that a call gives to an open registry. -/
inductive Admits (r : Registry) : Step → Entry → Prop
  | material {name : String} (hnew : name ∉ r.materials.keys) :
      Admits r (.material name) (.material ⟨r.number, name⟩)
  | root {name : String} (hnew : name ∉ r.typeTags.keys) :
      Admits r (.typeTag name none) (.typeTag (.root r.number name))
  | derived {name parentName : String} {parent : TypeTag} (hnew : name ∉ r.typeTags.keys)
      (hparent : r.typeTags.get? parentName = some parent) :
      Admits r (.typeTag name (some parentName)) (.typeTag (.derived name parent))
  | block {entry : BlockSpec} {tag : TypeTag} {m : Material}
      (htag : r.typeTags.get? entry.typeTag = some tag)
      (hmaterial : r.materials.get? entry.material = some m) :
      Admits r (.block entry)
        (.block ⟨r.canonical entry.identifier, tag, m, entry.isEmpty.getD false⟩)

variable {r next : Registry} {s : Step} {entry : Entry}

theorem Sound.typeTag_named (h : r.Sound) :
    ∀ name tag, r.typeTags.get? name = some tag → tag.name = name :=
  fun name tag htag => (h.typeTag name tag htag).1

theorem Sound.block_named (h : r.Sound) :
    ∀ identifier b, r.blocks.get? identifier = some b → b.identifier = identifier :=
  fun identifier b hb => (h.block identifier b hb).1

theorem attempt_eq_ok_iff :
    r.attempt s = .ok (next, some entry) ↔
      r.frozen = false ∧ r.Admits s entry ∧ next = r.record entry := by
  constructor
  · intro h
    cases s with
    | freeze => cases h
    | material name =>
      simp only [attempt, addMaterial] at h
      split at h
      · cases h
      · next hopen =>
        split at h
        · cases h
        · next hnew =>
          cases h
          rw [Table.contains_iff] at hnew
          exact ⟨by simpa using hopen, .material hnew, rfl⟩
    | typeTag name parent =>
      simp only [attempt, addTypeTag] at h
      split at h
      · cases h
      · next hopen =>
        have hopen : r.frozen = false := by simpa using hopen
        split at h
        · cases h
        · next hnew =>
          rw [Table.contains_iff] at hnew
          split at h
          · cases h
            exact ⟨hopen, .root hnew, rfl⟩
          · split at h
            · cases h
            · next hparent =>
              cases h
              exact ⟨hopen, .derived hnew hparent, rfl⟩
    | block entry =>
      simp only [attempt, addBlock] at h
      split at h
      · cases h
      · next hopen =>
        split at h
        · cases h
        · next htag =>
          split at h
          · cases h
          · next hmaterial =>
            cases h
            exact ⟨by simpa using hopen, .block htag hmaterial, rfl⟩
  · rintro ⟨hopen, hadmits, rfl⟩
    cases hadmits with
    | material hnew =>
      rw [← Table.contains_iff] at hnew
      simp [attempt, addMaterial, hopen, hnew, record, Except.map]
    | root hnew =>
      rw [← Table.contains_iff] at hnew
      simp [attempt, addTypeTag, hopen, hnew, record, Except.map, putTypeTag]
    | derived hnew hparent =>
      rw [← Table.contains_iff] at hnew
      simp [attempt, addTypeTag, hopen, hnew, hparent, record, Except.map, putTypeTag]
    | block htag hmaterial =>
      simp [attempt, addBlock, hopen, htag, hmaterial, record, Except.map]

/-- One call after the other, up to the first that fails. -/
def build (r : Registry) (steps : List Step) : Except DefinitionError Registry :=
  steps.foldlM (fun r s => (r.attempt s).map Prod.fst) r

theorem build_append (r : Registry) (first second : List Step) :
    r.build (first ++ second) = r.build first >>= fun next => next.build second :=
  List.foldlM_append

theorem run_of_build {steps : List Step} (h : r.build steps = .ok next) : r.run steps = next := by
  induction steps generalizing r with
  | nil => exact Except.ok.inj h
  | cons s rest ih =>
    rw [build, List.foldlM_cons] at h
    obtain ⟨mid, hmid, hrest⟩ := bind_eq_ok_iff.1 h
    obtain ⟨⟨found, entry⟩, hattempt, rfl⟩ := map_eq_ok_iff.1 hmid
    have hstep : r.step s = found := by rw [step_eq_after_attempt, hattempt, after]
    have hrun : r.run (s :: rest) = (r.step s).run rest := rfl
    rw [hrun, hstep]
    exact ih hrest

theorem canonical_of_extends (h : r.Extends next) (text : String) :
    next.canonical text = r.canonical text := by
  rw [canonical, canonical, h.defaultNamespace]

/-- A block that was called for is there, under the full form of its identifier. -/
theorem hasBlock_of_build {steps : List Step} {entry : BlockSpec} (h : r.build steps = .ok next)
    (hentry : .block entry ∈ steps) : next.HasBlock (next.canonical entry.identifier) := by
  obtain ⟨before, behind, rfl⟩ := List.append_of_mem hentry
  rw [build_append] at h
  obtain ⟨mid, -, hmid⟩ := bind_eq_ok_iff.1 h
  rw [build, List.foldlM_cons] at hmid
  obtain ⟨found, hfound, hrest⟩ := bind_eq_ok_iff.1 hmid
  obtain ⟨⟨placed, made⟩, hattempt, rfl⟩ := map_eq_ok_iff.1 hfound
  obtain ⟨b, rfl⟩ : ∃ b, made = some (.block b) := by
    obtain ⟨_, -, heq⟩ := map_eq_ok_iff.1 hattempt
    exact ⟨_, (congrArg Prod.snd heq).symm⟩
  obtain ⟨-, hadmits, rfl⟩ := attempt_eq_ok_iff.1 hattempt
  have hextends : (mid.record (.block b)).Extends next := by
    rw [← run_of_build hrest]
    exact extends_run _ _
  rw [canonical_of_extends hextends]
  have hidentifier : (mid.record (.block b)).canonical entry.identifier = b.identifier := by
    cases hadmits
    rfl
  rw [hidentifier]
  exact hextends.within.block _ ⟨b, (Table.get?_put _ _ _ _).trans (if_pos rfl), rfl⟩

theorem step_cases_admits (r : Registry) (s : Step) :
    r.step s = r ∨ s = .freeze ∧ r.step s = r.freeze ∨
      ∃ entry, r.Admits s entry ∧ r.step s = r.record entry := by
  rw [step_eq_after_attempt]
  cases h : r.attempt s with
  | error e => exact .inl rfl
  | ok made =>
    obtain ⟨next, entry⟩ := made
    right
    cases entry with
    | some entry =>
      obtain ⟨-, hadmits, rfl⟩ := attempt_eq_ok_iff.1 h
      exact .inr ⟨entry, hadmits, rfl⟩
    | none =>
      cases s with
      | freeze =>
        cases h
        exact .inl ⟨rfl, rfl⟩
      | material name => obtain ⟨made, -, heq⟩ := map_eq_ok_iff.1 h; cases heq
      | typeTag name parent => obtain ⟨made, -, heq⟩ := map_eq_ok_iff.1 h; cases heq
      | block entry => obtain ⟨made, -, heq⟩ := map_eq_ok_iff.1 h; cases heq

/-- Only freezing closes a registry. -/
theorem frozen_run {steps : List Step} (hsteps : .freeze ∉ steps) :
    (r.run steps).frozen = r.frozen := by
  induction steps generalizing r with
  | nil => rfl
  | cons s rest ih =>
    rw [List.mem_cons, not_or] at hsteps
    have hstep : (r.step s).frozen = r.frozen := by
      rcases r.step_cases_admits s with heq | ⟨rfl, -⟩ | ⟨entry, -, heq⟩
      · rw [heq]
      · exact absurd rfl hsteps.1
      · rw [heq]
        cases entry <;> rfl
    exact (ih hsteps.2).trans hstep

/-- Every key of the tables is due to one of the calls. -/
structure CalledFor (r : Registry) (steps : List Step) : Prop where
  material : ∀ name ∈ r.materials.keys, .material name ∈ steps
  typeTag : ∀ name ∈ r.typeTags.keys, ∃ parent, .typeTag name parent ∈ steps
  block : ∀ identifier ∈ r.blocks.keys,
    ∃ entry, .block entry ∈ steps ∧ r.canonical entry.identifier = identifier

theorem CalledFor.step {steps : List Step} (h : r.CalledFor steps) (hs : s ∈ steps) :
    (r.step s).CalledFor steps := by
  rcases r.step_cases_admits s with heq | ⟨-, heq⟩ | ⟨entry, hadmits, heq⟩
  · rwa [heq]
  · rw [heq]
    exact ⟨h.material, h.typeTag, h.block⟩
  · rw [heq]
    cases hadmits with
    | material hnew =>
      refine ⟨fun other hmem => ?_, h.typeTag, h.block⟩
      rcases Table.mem_keys_put_iff.1 hmem with rfl | hold
      · exact hs
      · exact h.material other hold
    | root hnew =>
      refine ⟨h.material, fun other hmem => ?_, h.block⟩
      rcases Table.mem_keys_put_iff.1 hmem with rfl | hold
      · exact ⟨_, hs⟩
      · exact h.typeTag other hold
    | derived hnew hparent =>
      refine ⟨h.material, fun other hmem => ?_, h.block⟩
      rcases Table.mem_keys_put_iff.1 hmem with rfl | hold
      · exact ⟨_, hs⟩
      · exact h.typeTag other hold
    | block htag hmaterial =>
      refine ⟨h.material, h.typeTag, fun other hmem => ?_⟩
      rcases Table.mem_keys_put_iff.1 hmem with rfl | hold
      · exact ⟨_, hs, rfl⟩
      · exact h.block other hold

theorem CalledFor.run {steps done : List Step} (h : r.CalledFor steps) (hdone : done ⊆ steps) :
    (r.run done).CalledFor steps := by
  induction done generalizing r with
  | nil => exact h
  | cons s rest ih =>
    obtain ⟨hs, hrest⟩ := List.cons_subset.1 hdone
    exact ih (h.step hs) hrest

/-- Nothing is in the tables that nobody called for. -/
theorem calledFor_run (number : Nat) (tagPrefixes : List String) (defaultNamespace : String)
    (steps : List Step) :
    ((empty number tagPrefixes defaultNamespace).run steps).CalledFor steps := by
  have hempty : (empty number tagPrefixes defaultNamespace).CalledFor steps := ⟨nofun, nofun, nofun⟩
  exact hempty.run (List.Subset.refl steps)

end VoxelQuery.Registry
