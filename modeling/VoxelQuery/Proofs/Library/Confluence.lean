import Mathlib.Order.Bounds.Basic
import VoxelQuery.Proofs.Library.Dependence
import VoxelQuery.Proofs.Library.Fixpoint

/-! Loading does not depend on the order of the rows. What is loaded is the least set of saved names
that is closed under loading, so it can be told from the names and the texts alone, and then so can
the errors of the others and the store that is left. -/
namespace VoxelQuery

open Relation

/-- A set of saved names, among them each saved query that compiles when the names of the context
and of the set are registered and no others. -/
structure LoadClosed (c : Context) (rows : List SavedQuery) (L : Set String) : Prop where
  saved : ∀ name ∈ L, name ∈ rows.map SavedQuery.name
  closed : ∀ row ∈ rows, ∀ t : QueryStore,
    (∀ name, t.Registered name ↔ c.store.Registered name ∨ name ∈ L) →
      ∀ p, (c.withStore t).compile row.text = .ok p → row.name ∈ L

theorem Loadable.mem_names {c : Context} {s : QueryStore} {rows : List SavedQuery} {name : String}
    (h : Loadable c s rows name) : name ∈ rows.map SavedQuery.name := by
  cases h with
  | row hrow supported references => exact List.mem_map_of_mem hrow

theorem loadClosed_loadable (c : Context) (rows : List SavedQuery) :
    LoadClosed c rows {name | Loadable c c.store rows name} where
  saved _ hname := Loadable.mem_names hname
  closed row hrow t ht p hp := by
    obtain ⟨supported, references⟩ := Context.exists_compile_iff.1 ⟨p, hp⟩
    refine .row hrow supported fun name href hnot => ?_
    exact ((ht name).1 (references name href)).resolve_left hnot

/-- A closed set has only saved names, so some store has its names and those of the context. -/
theorem LoadClosed.exists_store {c : Context} {rows : List SavedQuery} {L : Set String}
    (h : LoadClosed c rows L) :
    ∃ t : QueryStore, ∀ name, t.Registered name ↔ c.store.Registered name ∨ name ∈ L := by
  classical
  obtain ⟨t, ht⟩ := c.store.exists_registered_iff
    ((rows.map SavedQuery.name).filter fun name => decide (name ∈ L))
  refine ⟨t, fun name => ?_⟩
  rw [ht, List.mem_filter, decide_eq_true_eq]
  exact or_congr_right ⟨And.right, fun hname => ⟨h.saved name hname, hname⟩⟩

theorem Loadable.mem_of_loadClosed {c : Context} {rows : List SavedQuery} {L : Set String}
    {name : String} (h : Loadable c c.store rows name) (hL : LoadClosed c rows L) : name ∈ L := by
  obtain ⟨t, ht⟩ := hL.exists_store
  induction h with
  | @row saved hrow supported references ih =>
    have hall : ∀ name, References saved.text name → t.Registered name := by
      intro name href
      rw [ht]
      by_cases hs : c.store.Registered name
      · exact .inl hs
      · exact .inr (ih name href hs)
    obtain ⟨p, hp⟩ := Context.exists_compile_iff.2 ⟨supported, hall⟩
    exact hL.closed saved hrow t ht p hp

/-- What can be loaded is the least closed set. -/
theorem isLeast_loadable (c : Context) (rows : List SavedQuery) :
    IsLeast {L | LoadClosed c rows L} {name | Loadable c c.store rows name} :=
  ⟨loadClosed_loadable c rows, fun _ hL _ hname => Loadable.mem_of_loadClosed hname hL⟩

/-- What is reported of the queries that failed. -/
def LoadReport.messages (report : LoadReport) : List (String × String) :=
  report.failed.map fun f => (f.1.name, f.2.message)

namespace Library

/-- Two loadings in one context, of rows with the same names and texts. -/
structure TwinLoads (c : Context) (rows rows' : List SavedQuery) (last last' : QueryStore)
    (report report' : LoadReport) : Prop where
  loads : LoadSpec c c.store rows last report
  loads' : LoadSpec c c.store rows' last' report'
  nodup : (rows.map SavedQuery.name).Nodup
  nodup' : (rows'.map SavedQuery.name).Nodup
  perm : (rows.map fun q => (q.name, q.text)).Perm (rows'.map fun q => (q.name, q.text))

namespace TwinLoads

variable {c : Context} {rows rows' : List SavedQuery} {last last' : QueryStore}
  {report report' : LoadReport}

theorem symm (h : TwinLoads c rows rows' last last' report report') :
    TwinLoads c rows' rows last' last report' report :=
  ⟨h.loads', h.loads, h.nodup', h.nodup, h.perm.symm⟩

theorem exists_twin (h : TwinLoads c rows rows' last last' report report') :
    ∀ row ∈ rows, ∃ twin ∈ rows', twin.name = row.name ∧ twin.text = row.text := by
  intro row hrow
  obtain ⟨twin, htwin, heq⟩ := List.mem_map.1
    (h.perm.subset (List.mem_map_of_mem (f := fun q : SavedQuery => (q.name, q.text)) hrow))
  exact ⟨twin, htwin, Prod.mk.inj heq⟩

theorem mem_loaded (h : TwinLoads c rows rows' last last' report report') {name : String}
    (hname : name ∈ report.loaded) : name ∈ report'.loaded := by
  rw [h.loads'.mem_loaded_iff h.nodup']
  exact ((h.loads.mem_loaded_iff h.nodup name).1 hname).transfer h.exists_twin

theorem mem_loaded_iff (h : TwinLoads c rows rows' last last' report report') (name : String) :
    name ∈ report.loaded ↔ name ∈ report'.loaded :=
  ⟨h.mem_loaded, h.symm.mem_loaded⟩

theorem registered_iff (h : TwinLoads c rows rows' last last' report report') (name : String) :
    last.Registered name ↔ last'.Registered name := by
  rw [h.loads.registers.registered_iff, h.loads'.registers.registered_iff, h.mem_loaded_iff]

/-- What fails once fails the other time, and for the same reason, as the stores that are left have
the same names. -/
theorem mem_messages (h : TwinLoads c rows rows' last last' report report') {m : String × String}
    (hm : m ∈ report.messages) : m ∈ report'.messages := by
  obtain ⟨f, hf, rfl⟩ := List.mem_map.1 hm
  obtain ⟨twin, htwin, hname, htext⟩ := h.exists_twin f.1 (h.loads.kept f hf)
  have hnot : twin.name ∉ report'.loaded := by
    rw [hname, ← h.mem_loaded_iff]
    exact h.loads.notMem_loaded h.nodup hf
  obtain ⟨e, hf'⟩ := h.loads'.exists_failed h.nodup' htwin hnot
  have herror : e = f.2 := by
    have hfirst := (Context.compile_eq_error_iff h.registered_iff f.2).1 (h.loads.failed f hf)
    have hsecond := h.loads'.failed _ hf'
    rw [htext, hfirst] at hsecond
    exact (Except.error.inj hsecond).symm
  refine List.mem_map.2 ⟨_, hf', ?_⟩
  rw [hname, herror]

/-- The second store solves all texts that the first loading can register. -/
theorem within (h : TwinLoads c rows rows' last last' report report')
    (hfresh : ∀ row ∈ rows, c.store.lookup? row.name = none) : last.Within last' := by
  have hfresh' : ∀ row ∈ rows', c.store.lookup? row.name = none := by
    intro row hrow
    obtain ⟨twin, htwin, hname, -⟩ := h.symm.exists_twin row hrow
    rw [← hname]
    exact hfresh twin htwin
  obtain ⟨hwithin, hsolved⟩ := h.loads'.solved h.nodup' hfresh'
  refine h.loads.registers.within hwithin fun row hrow p hp => ?_
  obtain ⟨twin, htwin, hname, htext⟩ := h.exists_twin row hrow
  rw [← htext] at hp
  obtain ⟨q, hq, hlookup⟩ :=
    hsolved twin htwin (h.loads'.mem_loaded_of_compile h.nodup' htwin hp)
  rw [hq] at hp
  cases hp
  rw [← hname]
  exact hlookup

theorem lookup?_eq (h : TwinLoads c rows rows' last last' report report')
    (hfresh : ∀ row ∈ rows, c.store.lookup? row.name = none) (name : String) :
    last.lookup? name = last'.lookup? name := by
  by_cases hname : name ∈ report.loaded
  · obtain ⟨p, hp⟩ := (h.loads.registers.registered_iff name).2 (.inr hname)
    rw [hp, h.within hfresh name p hp]
  · rw [h.loads.registers.lookup?_of_notMem hname, h.loads'.registers.lookup?_of_notMem]
    rwa [← h.mem_loaded_iff]

end TwinLoads

/-- Two tables with the same names and texts load alike, whatever the order of their rows. -/
theorem load_confluent {c : Context} {db db' : Database} {table table' : Table String SavedQuery}
    (hstore : c.store.frozen = false) (htable : db.table? = some table)
    (htable' : db'.table? = some table') (hnodup : (table.values.map SavedQuery.name).Nodup)
    (hperm : (table.values.map fun q => (q.name, q.text)).Perm
      (table'.values.map fun q => (q.name, q.text))) :
    ∃ next report next' report',
      load ⟨c, db⟩ = .ok (next, report) ∧ load ⟨c, db'⟩ = .ok (next', report') ∧
      (∀ name, name ∈ report.loaded ↔ name ∈ report'.loaded) ∧
      (∀ m, m ∈ report.messages ↔ m ∈ report'.messages) ∧
      IsLeast {L | LoadClosed c table.values L} {name | name ∈ report.loaded} ∧
      (∀ name, TransGen (DependsOn c.store table.values) name name → name ∉ report.loaded) ∧
      ((∀ row ∈ table.values, c.store.lookup? row.name = none) →
        ∀ name, next.context.store.lookup? name = next'.context.store.lookup? name) := by
  obtain ⟨version, table?⟩ := db
  obtain ⟨version', table'?⟩ := db'
  cases htable
  cases htable'
  obtain ⟨rows, last, report, -, hrows, hload, hspec⟩ := load_spec hstore version table
  obtain ⟨rows', last', report', -, hrows', hload', hspec'⟩ := load_spec hstore version' table'
  have hnames : (rows.map SavedQuery.name).Nodup := (hrows.map _).nodup_iff.2 hnodup
  have hpairs : (rows.map fun q => (q.name, q.text)).Perm
      (rows'.map fun q => (q.name, q.text)) :=
    ((hrows.map _).trans hperm).trans (hrows'.map _).symm
  have hnames' : (rows'.map SavedQuery.name).Nodup := by
    have hfst := hpairs.map Prod.fst
    rw [List.map_map, List.map_map] at hfst
    exact hfst.nodup_iff.1 hnames
  have htwin : TwinLoads c rows rows' last last' report report' :=
    ⟨hspec, hspec', hnames, hnames', hpairs⟩
  have hloaded : ∀ name, name ∈ report.loaded ↔ Loadable c c.store table.values name := by
    intro name
    rw [hspec.mem_loaded_iff hnames]
    exact ⟨fun h => h.subset fun row hrow => hrows.subset hrow,
      fun h => h.subset fun row hrow => hrows.symm.subset hrow⟩
  refine ⟨_, report, _, report', hload, hload', htwin.mem_loaded_iff,
    fun m => ⟨htwin.mem_messages, htwin.symm.mem_messages⟩, ?_, fun name hcycle hname => ?_,
    fun hfresh => htwin.lookup?_eq fun row hrow => hfresh row (hrows.subset hrow)⟩
  · simp only [hloaded]
    exact isLeast_loadable c table.values
  · exact ((hloaded name).1 hname).not_transGen hnodup hcycle

/-- The queries of the tangled table, saved in the order in which they refer to one another. -/
def straight : Table String SavedQuery :=
  .ofPairs [("high", ⟨"1", "high", none, "@airAbove", "2026", "2026"⟩),
    ("low", ⟨"2", "low", some "not high", "!@high", "2027", "2029"⟩),
    ("lost", ⟨"3", "lost", none, "@low, @gone", "2028", "2028"⟩)]

theorem load_confluent_tangled :
    (tangled.values.map SavedQuery.name).Nodup ∧
      (tangled.values.map fun q => (q.name, q.text)).Perm
        (straight.values.map fun q => (q.name, q.text)) ∧
      ∃ next report next' report',
        load ⟨Context.bare, ⟨1, some tangled⟩⟩ = .ok (next, report) ∧
        load ⟨Context.bare, ⟨1, some straight⟩⟩ = .ok (next', report') ∧
        (∀ name, name ∈ report.loaded ↔ name ∈ report'.loaded) ∧
        (∀ m, m ∈ report.messages ↔ m ∈ report'.messages) ∧
        IsLeast {L | LoadClosed Context.bare tangled.values L} {name | name ∈ report.loaded} ∧
        (∀ name, TransGen (DependsOn Context.bare.store tangled.values) name name →
          name ∉ report.loaded) ∧
        ((∀ row ∈ tangled.values, Context.bare.store.lookup? row.name = none) →
          ∀ name, next.context.store.lookup? name = next'.context.store.lookup? name) := by
  have hnodup : (tangled.values.map SavedQuery.name).Nodup := by decide
  have hperm : (tangled.values.map fun q => (q.name, q.text)).Perm
      (straight.values.map fun q => (q.name, q.text)) := by decide
  exact ⟨hnodup, hperm, load_confluent rfl rfl rfl hnodup hperm⟩

end Library

end VoxelQuery
