import VoxelQuery.Proofs.Library.Loading

/-! Where loading comes to rest. The report is true of the store that loading leaves: what failed
still fails there with the error that is reported, what was loaded compiles there, and if no saved
name was registered before, then the names that were loaded solve their own texts. -/
namespace VoxelQuery.Library

/-- The state in which the loading of some rows ends, and what is reported of it. -/
structure Settled (l : Library) (rows : List SavedQuery) (next : Library) (report : LoadReport) :
    Prop where
  /-- Nothing but the store changes. -/
  untouched : next = { l with context := l.context.withStore next.context.store }
  nodup : (report.loaded ++ report.failed.map fun f => f.1.name).Nodup
  perm : (report.loaded ++ report.failed.map fun f => f.1.name).Perm (rows.map SavedQuery.name)
  failed : ∀ f ∈ report.failed, f.1 ∈ rows ∧ next.context.compile f.1.text = .error f.2 ∧
    next.context.store.lookup? f.1.name = l.context.store.lookup? f.1.name
  loaded : ∀ row ∈ rows, row.name ∈ report.loaded → ∃ p, next.context.compile row.text = .ok p
  /-- A solution of the equations that the texts are. -/
  solved : (∀ row ∈ rows, l.context.store.lookup? row.name = none) →
    ∀ row ∈ rows, row.name ∈ report.loaded →
      ∃ p, next.context.compile row.text = .ok p ∧ next.context.store.lookup? row.name = some p

variable {c : Context} {last : QueryStore} {pending : List SavedQuery} {report : LoadReport}

namespace LoadSpec

theorem exists_compile {s : QueryStore} (h : LoadSpec c s pending last report)
    (hnodup : (pending.map SavedQuery.name).Nodup) {saved : SavedQuery} (hsaved : saved ∈ pending)
    (hname : saved.name ∈ report.loaded) : ∃ p, (c.withStore last).compile saved.text = .ok p := by
  obtain ⟨row, hrow, heq, hcompile⟩ := h.registers.exists_compile _ hname
  rwa [List.inj_on_of_nodup_map hnodup hrow hsaved heq] at hcompile

/-- Without saved names in the store before, loading solves the texts of what it loads. -/
theorem solved {s : QueryStore} (h : LoadSpec c s pending last report)
    (hnodup : (pending.map SavedQuery.name).Nodup)
    (hfresh : ∀ saved ∈ pending, s.lookup? saved.name = none) :
    s.Within last ∧ ∀ saved ∈ pending, saved.name ∈ report.loaded →
      ∃ p, (c.withStore last).compile saved.text = .ok p ∧ last.lookup? saved.name = some p := by
  have hnew : ∀ name ∈ report.loaded, ¬s.Registered name := by
    rintro name hname ⟨p, hp⟩
    obtain ⟨saved, hsaved, rfl⟩ := List.mem_map.1 (h.perm.subset (List.mem_append_left _ hname))
    rw [hfresh saved hsaved] at hp
    cases hp
  obtain ⟨hwithin, hsolved⟩ :=
    h.registers.solved (List.nodup_append.1 (h.perm.nodup_iff.2 hnodup)).1 hnew
  refine ⟨hwithin, fun saved hsaved hname => ?_⟩
  obtain ⟨row, hrow, heq, hcompile⟩ := hsolved _ hname
  rwa [List.inj_on_of_nodup_map hnodup hrow hsaved heq] at hcompile

end LoadSpec

theorem settled_of_loadSpec {db : Database} (h : LoadSpec c c.store pending last report)
    (hnodup : (pending.map SavedQuery.name).Nodup) :
    Settled ⟨c, db⟩ pending ⟨c.withStore last, db⟩ report where
  untouched := rfl
  nodup := h.perm.nodup_iff.2 hnodup
  perm := h.perm
  failed f hf := by
    refine ⟨h.kept f hf, h.failed f hf, ?_⟩
    exact h.registers.lookup?_of_notMem (h.notMem_loaded hnodup hf)
  loaded _ hrow hname := h.exists_compile hnodup hrow hname
  solved hfresh := (h.solved hnodup hfresh).2

theorem Settled.of_perm {l next : Library} {rows others : List SavedQuery}
    (h : Settled l rows next report) (hperm : rows.Perm others) :
    Settled l others next report where
  untouched := h.untouched
  nodup := h.nodup
  perm := h.perm.trans (hperm.map _)
  failed f hf := ⟨hperm.subset (h.failed f hf).1, (h.failed f hf).2⟩
  loaded row hrow := h.loaded row (hperm.symm.subset hrow)
  solved hfresh row hrow :=
    h.solved (fun row hrow => hfresh row (hperm.subset hrow)) row (hperm.symm.subset hrow)

/-- Loading into a store that is not frozen ends, and the report is true of where it ends. -/
theorem load_settled {l : Library} {table : Table String SavedQuery}
    (hstore : l.context.store.frozen = false) (htable : l.database.table? = some table)
    (hnodup : (table.values.map SavedQuery.name).Nodup) :
    ∃ next report, l.load = .ok (next, report) ∧ Settled l table.values next report := by
  obtain ⟨c, version, table?⟩ := l
  cases htable
  obtain ⟨rows, last, report, -, hperm, hload, hspec⟩ := load_spec hstore version table
  have hrows : (rows.map SavedQuery.name).Nodup := (hperm.map _).nodup_iff.2 hnodup
  exact ⟨_, report, hload, (settled_of_loadSpec hspec hrows).of_perm hperm⟩

/-- Two queries in the wrong order and one that refers to nothing. -/
def tangled : Table String SavedQuery :=
  .ofPairs [("low", ⟨"1", "low", none, "!@high", "2026", "2026"⟩),
    ("lost", ⟨"2", "lost", none, "@low, @gone", "2027", "2027"⟩),
    ("high", ⟨"3", "high", none, "@airAbove", "2028", "2028"⟩)]

theorem load_settled_tangled :
    (tangled.values.map SavedQuery.name).Nodup ∧
      ∃ next report, load ⟨Context.bare, ⟨1, some tangled⟩⟩ = .ok (next, report) ∧
        Settled ⟨Context.bare, ⟨1, some tangled⟩⟩ tangled.values next report := by
  have hnodup : (tangled.values.map SavedQuery.name).Nodup := by decide
  exact ⟨hnodup, load_settled rfl rfl hnodup⟩

end VoxelQuery.Library
