import Mathlib
import VoxelQuery.Catalog.Assembly
import VoxelQuery.Proofs.Library.Run

/-! Restarts. A restart builds the context of the catalog anew, with numbers that start over, and
loads the table that the live session left, of which it knows the texts only. Queries that were
defined once come back as they were. Queries that were defined again come back unless they depend
on themselves. -/
namespace VoxelQuery

open Relation

theorem Catalog.frozen_of_declareAll {start c : Context} {queries : List QuerySpec}
    (h : declareAll start queries = .ok c) : c.store.frozen = start.store.frozen := by
  induction queries generalizing start with
  | nil =>
    cases h
    rfl
  | cons q rest ih =>
    obtain ⟨next, p, hdeclare, hrest⟩ := declareAll_cons_eq_ok_iff.1 h
    obtain ⟨-, -, rfl⟩ := Context.declare_eq_ok_iff.1 hdeclare
    rw [ih hrest]
    rfl

/-- The store of a catalog takes more names. -/
theorem Catalog.frozen_of_context {catalog : Catalog} {number : Nat} {c : Context}
    (h : catalog.context number = .ok c) : c.store.frozen = false := by
  obtain ⟨r, -, hdeclare⟩ := bind_eq_ok_iff.1 h
  exact frozen_of_declareAll hdeclare

/-- One material and one tag, two blocks, and a query of the catalog itself. -/
def Catalog.quarry : Catalog where
  defaultNamespace := "core"
  tagPrefixes := ["", "core."]
  defaultProperty := "variant"
  fillBlock := "stone"
  materials := ["rock"]
  typeTags := [⟨"core.Stone", none⟩]
  blocks := [⟨"stone", "core.Stone", "rock", none⟩, ⟨"dirt", "core.Stone", "rock", none⟩]
  queries := [⟨"soil", none, "dirt"⟩]

namespace Library

/-- A session that starts with an empty table, and the restart behind it. -/
structure RestartSpec (c : Context) (names : List String) (live : QueryStore)
    (table : Table String SavedQuery) (rows : List SavedQuery) (last : QueryStore)
    (report : LoadReport) : Prop where
  accepts : Accepts c c.store .empty names live table
  perm : rows.Perm table.values
  loads : LoadSpec c c.store rows last report

theorem restart_spec {c : Context} (hs : c.store.frozen = false) (version : Int)
    (definitions : List (Stamp × QuerySpec)) :
    ∃ names live table rows last report,
      defineAll ⟨c, ⟨version, some .empty⟩⟩ definitions =
        (names, ⟨c.withStore live, ⟨version, some table⟩⟩) ∧
      Database.all ⟨version, some table⟩ = .ok rows ∧
      load ⟨c, ⟨version, some table⟩⟩ =
        .ok (⟨c.withStore last, ⟨version, some table⟩⟩, report) ∧
      RestartSpec c names live table rows last report := by
  obtain ⟨names, live, table, hrun, haccepts⟩ :=
    @defineAll_spec c c.store .empty version hs .empty definitions
  obtain ⟨rows, last, report, hall, hperm, hload, hspec⟩ := load_spec hs version table
  exact ⟨names, live, table, rows, last, report, hrun, hall, hload, haccepts, hperm, hspec⟩

namespace RestartSpec

variable {c : Context} {names : List String} {live last : QueryStore}
  {table : Table String SavedQuery} {rows : List SavedQuery} {report : LoadReport}

theorem perm_keys (h : RestartSpec c names live table rows last report)
    (hs : c.store.frozen = false) : (rows.map SavedQuery.name).Perm table.keys := by
  have hlive := h.accepts.live (.empty hs)
  rw [← hlive.keyed.names_eq_keys]
  exact h.perm.map _

theorem nodup_rows (h : RestartSpec c names live table rows last report)
    (hs : c.store.frozen = false) : (rows.map SavedQuery.name).Nodup :=
  (h.perm_keys hs).nodup_iff.2 table.nodup_keys

/-- If nothing failed, then everything that was defined is loaded. -/
theorem perm_loaded (h : RestartSpec c names live table rows last report)
    (hs : c.store.frozen = false) (hfailed : report.failed = []) :
    report.loaded.Perm table.keys := by
  have hall := h.loads.perm
  rw [hfailed, List.map_nil, List.append_nil] at hall
  exact hall.trans (h.perm_keys hs)

theorem failed_eq_nil_iff (h : RestartSpec c names live table rows last report)
    (hs : c.store.frozen = false) :
    report.failed = [] ↔ ∀ name, ¬TransGen (DependsOn c.store rows) name name := by
  have hlive := h.accepts.live (.empty hs)
  rw [h.loads.failed_eq_nil_iff (h.nodup_rows hs)]
  refine loadable_iff_acyclic (h.nodup_rows hs) ?_ ?_
  · exact fun saved hsaved => hlive.supported saved (h.perm.subset hsaved)
  · intro saved hsaved name href
    have hname := hlive.references saved (h.perm.subset hsaved) name href
    rw [hlive.registered] at hname
    exact hname.imp id fun hkey => (h.perm_keys hs).symm.subset hkey

/-- As long as no name is defined again, the texts alone determine the live store. -/
theorem lookup?_eq (h : RestartSpec c names live table rows last report)
    (hs : c.store.frozen = false) (hsteady : Steady c live table) (hfailed : report.failed = [])
    (name : String) : last.lookup? name = live.lookup? name := by
  have hloaded := h.perm_loaded hs hfailed
  have hwithin : last.Within live := by
    refine h.loads.registers.within ?_ ?_
    · intro name p hp
      rw [hsteady.others name fun hkey => hsteady.fresh name hkey ⟨p, hp⟩, hp]
    · intro saved hsaved p hp
      obtain ⟨q, hq, hlookup⟩ := hsteady.solved saved (h.perm.subset hsaved)
      rw [hq] at hp
      cases hp
      exact hlookup
  by_cases hname : name ∈ table.keys
  · obtain ⟨p, hp⟩ :=
      (h.loads.registers.registered_iff name).2 (.inr (hloaded.symm.subset hname))
    rw [hp, hwithin name p hp]
  · rw [hsteady.others name hname]
    exact h.loads.registers.lookup?_of_notMem fun hmem => hname (hloaded.subset hmem)

end RestartSpec

section Restart

variable {catalog : Catalog} {number : Nat} {context : Context} {db : Database}

/-- If every name is new when it is defined, then loading what a session saved gives the store that
the session had, whatever the clock read when it saved. -/
theorem load_defineAll (hcontext : catalog.context number = .ok context)
    (hdb : db.table? = some .empty) (definitions : List (Stamp × QuerySpec))
    (hnodup : (defineAll ⟨context, db⟩ definitions).1.Nodup)
    (hnew : ∀ name ∈ (defineAll ⟨context, db⟩ definitions).1, context.store.lookup? name = none) :
    ∃ loaded report,
      load ⟨context, (defineAll ⟨context, db⟩ definitions).2.database⟩ = .ok (loaded, report) ∧
      report.failed = [] ∧ report.loaded.Perm (defineAll ⟨context, db⟩ definitions).1 ∧
      ∀ name, loaded.context.store.lookup? name =
        (defineAll ⟨context, db⟩ definitions).2.context.store.lookup? name := by
  obtain ⟨version, table?⟩ := db
  cases hdb
  have hs := Catalog.frozen_of_context hcontext
  obtain ⟨names, live, table, rows, last, report, hrun, -, hload, hspec⟩ :=
    restart_spec hs version definitions
  rw [hrun] at hnodup hnew ⊢
  have hfresh : ∀ name ∈ names,
      name ∉ (Table.empty : Table String SavedQuery).keys ∧ ¬context.store.Registered name := by
    intro name hname
    refine ⟨by simp, ?_⟩
    rintro ⟨p, hp⟩
    rw [hnew name hname] at hp
    cases hp
  obtain ⟨hsteady, hkeys⟩ := hspec.accepts.steady (.empty hs) hnodup hfresh
  rw [Table.keys_empty, List.nil_append] at hkeys
  have hfailed : report.failed = [] := by
    apply (hspec.loads.failed_eq_nil_iff (hspec.nodup_rows hs)).2
    intro saved hsaved
    have hname := (hspec.perm_keys hs).subset (List.mem_map_of_mem hsaved)
    exact (hsteady.loadable _ hname).subset fun row hrow => hspec.perm.symm.subset hrow
  refine ⟨_, report, hload, hfailed, ?_, hspec.lookup?_eq hs hsteady hfailed⟩
  rw [← hkeys]
  exact hspec.perm_loaded hs hfailed

/-- The clock goes back from one definition to the next, and one of them fails. -/
def backwards : List (Stamp × QuerySpec) :=
  [(⟨"1", "2026"⟩, ⟨"rough", none, "stone, @soil"⟩), (⟨"2", "2025"⟩, ⟨"lost", none, "@gone"⟩),
    (⟨"3", "2024"⟩, ⟨"smooth", none, "!@rough"⟩)]

theorem load_defineAll_backwards :
    ∃ context, Catalog.quarry.context 0 = .ok context ∧
      (defineAll ⟨context, Database.blank.migrate⟩ backwards).1 = ["rough", "smooth"] ∧
      ∃ loaded report,
        load ⟨context, (defineAll ⟨context, Database.blank.migrate⟩ backwards).2.database⟩ =
          .ok (loaded, report) ∧
        report.failed = [] ∧
        report.loaded.Perm (defineAll ⟨context, Database.blank.migrate⟩ backwards).1 ∧
        ∀ name, loaded.context.store.lookup? name =
          (defineAll ⟨context, Database.blank.migrate⟩ backwards).2.context.store.lookup? name := by
  have hrun : ∃ context, Catalog.quarry.context 0 = .ok context ∧
      (defineAll ⟨context, Database.blank.migrate⟩ backwards).1 = ["rough", "smooth"] ∧
      context.store.lookup? "rough" = none ∧ context.store.lookup? "smooth" = none := by
    exact ⟨_, by cbv, by cbv, by cbv, by cbv⟩
  obtain ⟨context, hcontext, hnames, hrough, hsmooth⟩ := hrun
  refine ⟨context, hcontext, hnames, load_defineAll hcontext rfl backwards ?_ ?_⟩
  · rw [hnames]
    decide
  · rw [hnames]
    simp [hrough, hsmooth]

/-- With names that are defined again, all saved queries come back if and only if no name depends on
itself by what the table says in the end, and then every name that was defined can be used. -/
theorem failed_eq_nil_iff_acyclic (hcontext : catalog.context number = .ok context)
    (hdb : db.table? = some .empty) (definitions : List (Stamp × QuerySpec)) :
    ∃ rows loaded report,
      (defineAll ⟨context, db⟩ definitions).2.database.all = .ok rows ∧
      load ⟨context, (defineAll ⟨context, db⟩ definitions).2.database⟩ = .ok (loaded, report) ∧
      (report.failed = [] ↔ ∀ name, ¬TransGen (DependsOn context.store rows) name name) ∧
      (report.failed = [] → ∀ name ∈ (defineAll ⟨context, db⟩ definitions).1,
        ∃ p, loaded.context.store.lookup? name = some p) := by
  obtain ⟨version, table?⟩ := db
  cases hdb
  have hs := Catalog.frozen_of_context hcontext
  obtain ⟨names, live, table, rows, last, report, hrun, hall, hload, hspec⟩ :=
    restart_spec hs version definitions
  rw [hrun]
  refine ⟨rows, _, report, hall, hload, hspec.failed_eq_nil_iff hs, fun hfailed name hname => ?_⟩
  have hkey : name ∈ table.keys := (hspec.accepts.mem_keys_iff name).2 (.inl hname)
  have hloaded := (hspec.perm_loaded hs hfailed).symm.subset hkey
  exact (hspec.loads.registers.registered_iff name).2 (.inr hloaded)

/-- A name is defined again and refers to one that was defined after it. -/
def crossed : List (Stamp × QuerySpec) :=
  [(⟨"1", "2026"⟩, ⟨"b", none, "stone"⟩), (⟨"2", "2027"⟩, ⟨"c", none, "dirt"⟩),
    (⟨"3", "2028"⟩, ⟨"b", none, "!@c"⟩)]

theorem failed_eq_nil_iff_acyclic_crossed :
    ∃ context, Catalog.quarry.context 0 = .ok context ∧
      ∃ rows loaded report,
        (defineAll ⟨context, Database.blank.migrate⟩ crossed).2.database.all = .ok rows ∧
        load ⟨context, (defineAll ⟨context, Database.blank.migrate⟩ crossed).2.database⟩ =
          .ok (loaded, report) ∧
        (report.failed = [] ↔ ∀ name, ¬TransGen (DependsOn context.store rows) name name) ∧
        (report.failed = [] →
          ∀ name ∈ (defineAll ⟨context, Database.blank.migrate⟩ crossed).1,
            ∃ p, loaded.context.store.lookup? name = some p) := by
  have hcontext : ∃ context, Catalog.quarry.context 0 = .ok context := ⟨_, by cbv⟩
  obtain ⟨context, hcontext⟩ := hcontext
  exact ⟨context, hcontext, failed_eq_nil_iff_acyclic hcontext rfl crossed⟩

/-- A name is defined again and refers to what it stood for. -/
def inItself : List (Stamp × QuerySpec) :=
  [(⟨"1", "2026"⟩, ⟨"a", none, "stone"⟩), (⟨"2", "2027"⟩, ⟨"a", none, "@a"⟩)]

/-- Both definitions succeed, and the name is lost with the restart. -/
theorem load_inItself :
    ∃ context, Catalog.quarry.context 0 = .ok context ∧
      (defineAll ⟨context, Database.blank.migrate⟩ inItself).1 = ["a", "a"] ∧
      ∃ loaded report,
        load ⟨context, (defineAll ⟨context, Database.blank.migrate⟩ inItself).2.database⟩ =
          .ok (loaded, report) ∧
        report.failed.map (fun f => f.1.name) = ["a"] ∧ loaded.context.store.lookup? "a" = none := by
  exact ⟨_, by cbv, by cbv, _, _, by cbv, by cbv, by cbv⟩

end Restart

end Library

end VoxelQuery
