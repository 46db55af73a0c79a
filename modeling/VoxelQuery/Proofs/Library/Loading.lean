import VoxelQuery.Proofs.Library.Registration

/-! Loading in passes. A pass registers some of the pending queries and keeps the others, and a
pass that registers nothing has tried them all in the store it leaves. So the passes end where no
pending query compiles, and what they loaded is all that can be loaded. -/
namespace VoxelQuery

namespace Library

variable {c : Context} {s last : QueryStore} {pending : List SavedQuery}

/-- One try of each pending query. -/
structure PassSpec (c : Context) (s : QueryStore) (pending : List SavedQuery) (last : QueryStore)
    (loaded : List String) (failed : List (SavedQuery × QueryError)) : Prop where
  registers : Registers c pending s loaded last
  perm : (loaded ++ failed.map fun f => f.1.name).Perm (pending.map SavedQuery.name)
  kept : ∀ f ∈ failed, f.1 ∈ pending
  idle : loaded = [] → ∀ f ∈ failed, (c.withStore last).compile f.1.text = .error f.2

theorem PassSpec.load {saved : SavedQuery} {p : Predicate} {rest : List SavedQuery}
    {loaded : List String} {failed : List (SavedQuery × QueryError)}
    (hp : (c.withStore s).compile saved.text = .ok p)
    (h : PassSpec c (s.put saved.name p) rest last loaded failed) :
    PassSpec c s (saved :: rest) last (saved.name :: loaded) failed where
  registers :=
    .step List.mem_cons_self hp (h.registers.subset fun _ hrow => List.mem_cons_of_mem _ hrow)
  perm := by
    rw [List.cons_append, List.map_cons]
    exact h.perm.cons _
  kept f hf := List.mem_cons_of_mem _ (h.kept f hf)
  idle hnil := absurd hnil (List.cons_ne_nil _ _)

theorem PassSpec.keep {saved : SavedQuery} {e : QueryError} {rest : List SavedQuery}
    {loaded : List String} {failed : List (SavedQuery × QueryError)}
    (he : (c.withStore s).compile saved.text = .error e)
    (h : PassSpec c s rest last loaded failed) :
    PassSpec c s (saved :: rest) last loaded ((saved, e) :: failed) where
  registers := h.registers.subset fun _ hrow => List.mem_cons_of_mem _ hrow
  perm := by
    rw [List.map_cons, List.map_cons]
    exact List.perm_middle.trans (h.perm.cons _)
  kept := by
    refine List.forall_mem_cons.2 ⟨List.mem_cons_self, fun f hf => ?_⟩
    exact List.mem_cons_of_mem _ (h.kept f hf)
  idle hnil := by
    have hstore : last = s := by
      have hregisters := h.registers
      rw [hnil] at hregisters
      cases hregisters
      rfl
    refine List.forall_mem_cons.2 ⟨?_, h.idle hnil⟩
    rw [hstore]
    exact he

theorem loadOnce_spec (hs : s.frozen = false) (pending : List SavedQuery) :
    ∃ last loaded failed, loadOnce (c.withStore s) pending = .ok ⟨c.withStore last, loaded, failed⟩ ∧
      PassSpec c s pending last loaded failed := by
  induction pending generalizing s with
  | nil => exact ⟨s, [], [], rfl, .refl s, .refl _, by simp, by simp⟩
  | cons saved rest ih =>
    cases hp : (c.withStore s).compile saved.text with
    | ok p =>
      have hregister : (c.withStore s).register saved.name saved.text =
          .ok (c.withStore (s.put saved.name p), p) := by
        have hstore : (c.withStore s).store.register saved.name p = .ok (s.put saved.name p) :=
          QueryStore.register_of_not_frozen hs _ _
        simp only [Context.register, hp, hstore]
        rfl
      obtain ⟨last, loaded, failed, hrest, hspec⟩ := @ih (s.put saved.name p) hs
      refine ⟨last, saved.name :: loaded, failed, ?_, hspec.load hp⟩
      rw [loadOnce]
      simp only [hregister, hrest]
      rfl
    | error e =>
      have hregister : (c.withStore s).register saved.name saved.text = .error (.query e) := by
        simp only [Context.register, hp]
      obtain ⟨last, loaded, failed, hrest, hspec⟩ := ih hs
      refine ⟨last, loaded, (saved, e) :: failed, ?_, hspec.keep hp⟩
      rw [loadOnce]
      simp only [hregister, hrest]
      rfl

/-- What the passes together do. -/
structure LoadSpec (c : Context) (s : QueryStore) (pending : List SavedQuery) (last : QueryStore)
    (report : LoadReport) : Prop where
  registers : Registers c pending s report.loaded last
  perm : (report.loaded ++ report.failed.map fun f => f.1.name).Perm (pending.map SavedQuery.name)
  kept : ∀ f ∈ report.failed, f.1 ∈ pending
  failed : ∀ f ∈ report.failed, (c.withStore last).compile f.1.text = .error f.2

theorem loadPending_spec (hs : s.frozen = false) (pending : List SavedQuery) :
    ∃ last report, loadPending (c.withStore s) pending = .ok (c.withStore last, report) ∧
      LoadSpec c s pending last report := by
  induction hn : pending.length using Nat.strongRecOn generalizing s pending with
  | ind n ih =>
    obtain ⟨next, loaded, failed, hpass, hspec⟩ := loadOnce_spec (c := c) hs pending
    have hlength : loaded.length + failed.length = pending.length := by
      have hperm := hspec.perm.length_eq
      rwa [List.length_append, List.length_map, List.length_map] at hperm
    by_cases hlt : failed.length < pending.length
    · have hfrozen : next.frozen = false := hspec.registers.frozen_eq.trans hs
      obtain ⟨last, report, hload, hrest⟩ :=
        ih (failed.map Prod.fst).length (by rw [List.length_map]; omega) hfrozen
          (failed.map Prod.fst) rfl
      have hkept : ∀ saved ∈ failed.map Prod.fst, saved ∈ pending :=
        List.forall_mem_map.2 hspec.kept
      refine ⟨last, { report with loaded := loaded ++ report.loaded }, ?_, ?_, ?_, ?_, hrest.failed⟩
      · rw [loadPending, hpass]
        simp only [bind, Except.bind, hlt, if_true, hload]
      · exact hspec.registers.append (hrest.registers.subset hkept)
      · have hperm := hrest.perm
        rw [List.map_map] at hperm
        rw [List.append_assoc]
        exact (hperm.append_left loaded).trans hspec.perm
      · exact fun f hf => hkept _ (hrest.kept f hf)
    · have hnil : loaded = [] := List.length_eq_zero_iff.1 (by omega)
      refine ⟨next, ⟨loaded, failed⟩, ?_, hspec.registers, hspec.perm, hspec.kept, hspec.idle hnil⟩
      rw [loadPending, hpass]
      simp only [bind, Except.bind, if_neg hlt]

namespace LoadSpec

variable {report : LoadReport}

theorem mem_loaded_or_failed (h : LoadSpec c s pending last report) {saved : SavedQuery}
    (hsaved : saved ∈ pending) :
    saved.name ∈ report.loaded ∨ ∃ f ∈ report.failed, f.1.name = saved.name := by
  have hmem := h.perm.symm.subset (List.mem_map_of_mem hsaved)
  rcases List.mem_append.1 hmem with hloaded | hfailed
  · exact .inl hloaded
  · exact .inr (List.mem_map.1 hfailed)

theorem exists_failed (h : LoadSpec c s pending last report)
    (hnodup : (pending.map SavedQuery.name).Nodup) {saved : SavedQuery} (hsaved : saved ∈ pending)
    (hname : saved.name ∉ report.loaded) : ∃ e, (saved, e) ∈ report.failed := by
  obtain ⟨⟨row, e⟩, hf, heq⟩ := (h.mem_loaded_or_failed hsaved).resolve_left hname
  have hsame : row = saved := List.inj_on_of_nodup_map hnodup (h.kept _ hf) hsaved heq
  rw [hsame] at hf
  exact ⟨e, hf⟩

/-- In the store that is left, nothing more can be registered. -/
theorem mem_loaded_of_compile (h : LoadSpec c s pending last report)
    (hnodup : (pending.map SavedQuery.name).Nodup) {saved : SavedQuery} (hsaved : saved ∈ pending)
    {p : Predicate} (hp : (c.withStore last).compile saved.text = .ok p) :
    saved.name ∈ report.loaded := by
  by_contra hname
  obtain ⟨e, hf⟩ := h.exists_failed hnodup hsaved hname
  have herror := h.failed _ hf
  rw [hp] at herror
  cases herror

/-- The passes load all that can be loaded, in whichever order the queries are tried. -/
theorem mem_loaded_iff (h : LoadSpec c s pending last report)
    (hnodup : (pending.map SavedQuery.name).Nodup) (name : String) :
    name ∈ report.loaded ↔ Loadable c s pending name := by
  refine ⟨h.registers.loadable name, fun hname => ?_⟩
  induction hname with
  | @row saved hrow supported references ih =>
    have hall : ∀ name, References saved.text name → last.Registered name := by
      intro name href
      rw [h.registers.registered_iff]
      by_cases hs : s.Registered name
      · exact .inl hs
      · exact .inr (ih name href hs)
    obtain ⟨p, hp⟩ := Context.exists_compile_iff.2 ⟨supported, hall⟩
    exact h.mem_loaded_of_compile hnodup hrow hp

/-- No query is both loaded and reported. -/
theorem notMem_loaded (h : LoadSpec c s pending last report)
    (hnodup : (pending.map SavedQuery.name).Nodup) {f : SavedQuery × QueryError}
    (hf : f ∈ report.failed) : f.1.name ∉ report.loaded := by
  intro hloaded
  have hdisjoint := (List.nodup_append.1 (h.perm.nodup_iff.2 hnodup)).2.2
  exact hdisjoint _ hloaded _ (List.mem_map_of_mem hf) rfl

theorem failed_eq_nil_iff (h : LoadSpec c s pending last report)
    (hnodup : (pending.map SavedQuery.name).Nodup) :
    report.failed = [] ↔ ∀ saved ∈ pending, Loadable c s pending saved.name := by
  constructor
  · intro hnil saved hsaved
    refine (h.mem_loaded_iff hnodup saved.name).1 ((h.mem_loaded_or_failed hsaved).resolve_right ?_)
    simp [hnil]
  · intro hall
    apply List.eq_nil_iff_forall_not_mem.2
    intro f hf
    exact h.notMem_loaded hnodup hf ((h.mem_loaded_iff hnodup f.1.name).2 (hall f.1 (h.kept f hf)))

end LoadSpec

/-- Loading tries the rows of the table in the order of their creation. -/
theorem load_spec {c : Context} (hs : c.store.frozen = false) (version : Int)
    (table : Table String SavedQuery) :
    ∃ rows last report, Database.all ⟨version, some table⟩ = .ok rows ∧ rows.Perm table.values ∧
      load ⟨c, ⟨version, some table⟩⟩ =
        .ok (⟨c.withStore last, ⟨version, some table⟩⟩, report) ∧
      LoadSpec c c.store rows last report := by
  have hall : Database.all ⟨version, some table⟩ =
      .ok (table.values.mergeSort fun a b => decide (¬b.createdAt < a.createdAt)) := rfl
  obtain ⟨last, report, hload, hspec⟩ := loadPending_spec (c := c) hs
    (table.values.mergeSort fun a b => decide (¬b.createdAt < a.createdAt))
  refine ⟨_, last, report, hall, List.mergeSort_perm _ _, ?_, hspec⟩
  have hstart : c.withStore c.store = c := rfl
  rw [hstart] at hload
  rw [load, hall]
  simp only [bind, Except.bind, hload]

theorem load_migrate_spec {c : Context} (hs : c.store.frozen = false) (db : Database) :
    ∃ rows last report, rows.Perm (db.table?.getD .empty).values ∧
      load ⟨c, db.migrate⟩ = .ok (⟨c.withStore last, db.migrate⟩, report) ∧
      LoadSpec c c.store rows last report := by
  obtain ⟨rows, last, report, -, hperm, hload, hspec⟩ :=
    load_spec hs (max db.version Database.schemaVersion) (db.table?.getD .empty)
  exact ⟨rows, last, report, hperm, hload, hspec⟩

end Library

end VoxelQuery
