import Mathlib.Data.String.Basic
import VoxelQuery.Proofs.Library.Atomicity
import VoxelQuery.Proofs.Library.Requests
import VoxelQuery.Proofs.Library.Restart

/-! Listings. Every name that can be used is listed, and a name that is listed can be used unless it
was saved and could not be loaded. Declared queries are listed in the order of their first
declaration and saved ones in the order of their creation, each of them as it was given last. -/
namespace VoxelQuery

section Stability

variable {α : Type} {l : List α} {a b : α}

theorem pair_sublist_or (ha : a ∈ l) (hb : b ∈ l) (hne : a ≠ b) :
    [a, b].Sublist l ∨ [b, a].Sublist l := by
  obtain ⟨before, behind, rfl⟩ := List.append_of_mem ha
  rcases List.mem_append.1 hb with hbefore | hbehind
  · right
    exact (List.singleton_sublist.2 hbefore).append (List.singleton_sublist.2 List.mem_cons_self)
  · left
    have hrest := (List.mem_cons.1 hbehind).resolve_left (Ne.symm hne)
    exact ((List.singleton_sublist.2 hrest).cons_cons a).trans (List.sublist_append_right before _)

theorem not_pair_sublist (hnodup : l.Nodup) (h : [a, b].Sublist l) : ¬[b, a].Sublist l := by
  induction l with
  | nil => cases h
  | cons c rest ih =>
    obtain ⟨hc, hrest⟩ := List.nodup_cons.1 hnodup
    intro hback
    cases h with
    | cons _ h =>
      cases hback with
      | cons _ hback => exact ih hrest h hback
      | cons_cons _ hback => exact hc (h.subset (by simp))
    | cons_cons _ h =>
      cases hback with
      | cons _ hback => exact hc (hback.subset (by simp))
      | cons_cons _ hback => exact hc (List.singleton_sublist.1 h)

/-- Of two members that compare alike, the one that stood in front stays in front. -/
theorem pairwise_mergeSort_stable {le : α → α → Bool}
    (htrans : ∀ a b c, le a b = true → le b c = true → le a c = true)
    (htotal : ∀ a b, (le a b || le b a) = true) (hnodup : l.Nodup) :
    (l.mergeSort le).Pairwise fun a b =>
      le a b = true ∧ (le b a = true → [a, b].Sublist l) := by
  have hsorted := List.pairwise_mergeSort htrans htotal l
  have hnodup' : (l.mergeSort le).Nodup := (List.mergeSort_perm l le).nodup_iff.2 hnodup
  rw [List.pairwise_iff_forall_sublist] at hsorted ⊢
  intro a b hpair
  refine ⟨hsorted hpair, fun hback => ?_⟩
  have ha : a ∈ l := List.mem_mergeSort.1 (hpair.subset (by simp))
  have hb : b ∈ l := List.mem_mergeSort.1 (hpair.subset (by simp))
  have hne : a ≠ b := by
    rintro rfl
    exact List.nodup_iff_sublist.1 hnodup' a hpair
  -- Had they stood the other way round, the sort would have left them so.
  refine (pair_sublist_or ha hb hne).resolve_right fun hflipped => ?_
  exact not_pair_sublist hnodup' hpair (List.pair_sublist_mergeSort htrans htotal hback hflipped)

end Stability

namespace Listing

def ofPreset (p : Preset) : Listing := ⟨p.name, some p.description, .preset, none⟩

def ofSpec (source : Source) (q : QuerySpec) : Listing :=
  ⟨q.name, q.description, source, some q.text⟩

/-- The entries of one source, in the order of the listing. -/
def part (source : Source) (listings : List Listing) : List Listing :=
  listings.filter fun e => decide (e.source = source)

end Listing

def SavedQuery.spec (row : SavedQuery) : QuerySpec := ⟨row.name, row.description, row.text⟩

namespace Library

open Database (saveRow)

/-- The name under which a query is defined. -/
def definedName (d : Stamp × QuerySpec) : String := d.2.name

section Saved

variable {table : Table String SavedQuery} {definitions rest : List (Stamp × QuerySpec)}
  {d : Stamp × QuerySpec} {name time : String} {q : QuerySpec} {row : SavedQuery}

/-- The time at which a name got its row: that of a row that was there before, else that of the
first definition. -/
def CreatedAt (table : Table String SavedQuery) (definitions : List (Stamp × QuerySpec))
    (name time : String) : Prop :=
  (∃ row, table.get? name = some row ∧ row.createdAt = time) ∨
    table.get? name = none ∧
      ∃ d, IsFirst definedName definitions d ∧ definedName d = name ∧ d.1.time = time

/-- What a name was given last: by a definition, else by a row that was there before. -/
def GivenLast (table : Table String SavedQuery) (definitions : List (Stamp × QuerySpec))
    (name : String) (q : QuerySpec) : Prop :=
  (∃ d, IsLast definedName definitions d ∧ definedName d = name ∧ d.2 = q) ∨
    (∀ d ∈ definitions, definedName d ≠ name) ∧ ∃ row, table.get? name = some row ∧ row.spec = q

theorem spec_savedRow (h : Keyed table) (stamp : Stamp) (q : QuerySpec) :
    (Database.savedRow table stamp q).spec = q := by
  unfold Database.savedRow
  split
  · next old hold => rw [SavedQuery.spec, h q.name old hold]
  · rfl

theorem createdAt_savedRow (table : Table String SavedQuery) (d : Stamp × QuerySpec) :
    CreatedAt table (d :: rest) (definedName d) (Database.savedRow table d.1 d.2).createdAt := by
  unfold Database.savedRow
  split
  · next old hold => exact .inl ⟨old, hold, rfl⟩
  · next hnone => exact .inr ⟨hnone, d, isFirst_cons_iff.2 (.inl rfl), rfl, rfl⟩

theorem get?_saveRow (table : Table String SavedQuery) (d : Stamp × QuerySpec) (name : String) :
    (saveRow table d).get? name =
      if definedName d = name then some (Database.savedRow table d.1 d.2) else table.get? name :=
  Table.get?_put _ _ _ _

theorem CreatedAt.of_saveRow (h : CreatedAt (saveRow table d) rest name time) :
    CreatedAt table (d :: rest) name time := by
  rw [CreatedAt, get?_saveRow] at h
  by_cases hname : definedName d = name
  · rw [if_pos hname] at h
    rcases h with ⟨row, hrow, rfl⟩ | ⟨hnone, -⟩
    · cases hrow
      exact hname ▸ createdAt_savedRow table d
    · cases hnone
  · rw [if_neg hname] at h
    rcases h with hold | ⟨hnone, first, hfirst, rfl, htime⟩
    · exact .inl hold
    · exact .inr ⟨hnone, first, isFirst_cons_iff.2 (.inr ⟨hfirst, hname⟩), rfl, htime⟩

theorem GivenLast.of_saveRow (hkeyed : Keyed table) (h : GivenLast (saveRow table d) rest name q) :
    GivenLast table (d :: rest) name q := by
  rcases h with ⟨last, hlast, hname, hq⟩ | ⟨hnone, row, hrow, hq⟩
  · exact .inl ⟨last, isLast_cons_iff.2 (.inl hlast), hname, hq⟩
  · rw [get?_saveRow] at hrow
    split at hrow
    · next hname =>
      cases hrow
      rw [spec_savedRow hkeyed] at hq
      exact .inl ⟨d, isLast_cons_iff.2 (.inr ⟨rfl, hname ▸ hnone⟩), hname, hq⟩
    · next hname => exact .inr ⟨List.forall_mem_cons.2 ⟨hname, hnone⟩, row, hrow, hq⟩

/-- Where the rows of a table come from that definitions were saved in. -/
theorem saved_foldl (hkeyed : Keyed table) (definitions : List (Stamp × QuerySpec))
    (hrow : (definitions.foldl saveRow table).get? name = some row) :
    GivenLast table definitions name row.spec ∧ CreatedAt table definitions name row.createdAt := by
  -- From the front, since a definition changes the table that all later ones find.
  induction definitions generalizing table with
  | nil => exact ⟨.inr ⟨by simp, row, hrow, rfl⟩, .inl ⟨row, hrow, rfl⟩⟩
  | cons d rest ih =>
    obtain ⟨hgiven, hcreated⟩ := ih (hkeyed.saveRow d) hrow
    exact ⟨hgiven.of_saveRow hkeyed, hcreated.of_saveRow⟩

theorem keyed_foldl (hkeyed : Keyed table) (definitions : List (Stamp × QuerySpec)) :
    Keyed (definitions.foldl saveRow table) := by
  induction definitions generalizing table with
  | nil => exact hkeyed
  | cons d rest ih => exact ih (hkeyed.saveRow d)

theorem keys_foldl_saveRow (table : Table String SavedQuery)
    (definitions : List (Stamp × QuerySpec)) :
    (definitions.foldl saveRow table).keys =
      Predicate.distinct (table.keys ++ definitions.map definedName) :=
  Table.keys_foldl_put definedName (fun t d => Database.savedRow t d.1 d.2) table definitions

/-- By time of creation, and among equal times in the order of some names. -/
def InOrder (names : List String) (a b : SavedQuery) : Prop :=
  a.createdAt < b.createdAt ∨ a.createdAt = b.createdAt ∧ [a.name, b.name].Sublist names

theorem all_eq {db : Database} (hdb : db.table? = some table) :
    db.all = .ok (table.values.mergeSort fun a b => decide (¬b.createdAt < a.createdAt)) := by
  rw [Database.all, Database.rows, hdb]
  rfl

/-- The rows of a keyed table as they are read. -/
theorem exists_rows {db : Database} (hdb : db.table? = some table) (hkeyed : Keyed table) :
    ∃ rows, db.all = .ok rows ∧ rows.Perm table.values ∧ rows.Pairwise (InOrder table.keys) := by
  refine ⟨_, all_eq hdb, List.mergeSort_perm _ _, ?_⟩
  have hnodup : table.values.Nodup := by
    apply List.Nodup.of_map SavedQuery.name
    rw [hkeyed.names_eq_keys]
    exact table.nodup_keys
  refine (pairwise_mergeSort_stable ?_ ?_ hnodup).imp ?_
  · intro a b c hab hbc
    simp only [decide_eq_true_eq, not_lt] at hab hbc ⊢
    exact hab.trans hbc
  · intro a b
    simp only [Bool.or_eq_true, decide_eq_true_eq, not_lt]
    exact le_total _ _
  · rintro a b ⟨hle, hties⟩
    simp only [decide_eq_true_eq, not_lt] at hle hties
    rcases hle.lt_or_eq with hlt | heq
    · exact .inl hlt
    · have hnames := (hties heq.ge).map SavedQuery.name
      rw [hkeyed.names_eq_keys] at hnames
      exact .inr ⟨heq, hnames⟩

/-- The saved part of a listing: rows under different names, in the order of their creation, with
what each name was given last. -/
structure SavedPart (table : Table String SavedQuery) (definitions : List (Stamp × QuerySpec))
    (rows : List SavedQuery) : Prop where
  names : ∀ name, name ∈ rows.map SavedQuery.name ↔
    name ∈ table.keys ∨ ∃ d ∈ definitions, definedName d = name
  nodup : (rows.map SavedQuery.name).Nodup
  given : ∀ row ∈ rows, GivenLast table definitions row.name row.spec
  created : ∀ row ∈ rows, CreatedAt table definitions row.name row.createdAt
  order : rows.Pairwise
    (InOrder (Predicate.distinct (table.keys ++ definitions.map definedName)))

theorem SavedPart.mem_names_iff {rows : List SavedQuery} (h : SavedPart table definitions rows) :
    name ∈ rows.map SavedQuery.name ↔ name ∈ (definitions.foldl saveRow table).keys := by
  rw [h.names, keys_foldl_saveRow, Predicate.mem_distinct, List.mem_append, List.mem_map]

theorem exists_savedPart {db : Database} (hkeyed : Keyed table)
    (hdb : db.table? = some (definitions.foldl saveRow table)) :
    ∃ rows, db.all = .ok rows ∧ SavedPart table definitions rows := by
  have hfinal := keyed_foldl hkeyed definitions
  obtain ⟨rows, hall, hperm, horder⟩ := exists_rows hdb hfinal
  have hkeys := keys_foldl_saveRow table definitions
  have hnames : (rows.map SavedQuery.name).Perm (definitions.foldl saveRow table).keys := by
    rw [← hfinal.names_eq_keys]
    exact hperm.map _
  have hsaved : ∀ row ∈ rows, GivenLast table definitions row.name row.spec ∧
      CreatedAt table definitions row.name row.createdAt := by
    intro row hrow
    obtain ⟨key, hkey⟩ := Table.mem_values_iff.1 (hperm.subset hrow)
    rw [← hfinal key row hkey] at hkey
    exact saved_foldl hkeyed definitions hkey
  refine ⟨rows, hall, fun name => ?_, ?_, fun row hrow => (hsaved row hrow).1,
    fun row hrow => (hsaved row hrow).2, hkeys ▸ horder⟩
  · rw [hnames.mem_iff, hkeys, Predicate.mem_distinct, List.mem_append, List.mem_map]
  · exact hnames.nodup_iff.2 (Table.nodup_keys _)

end Saved

section Declared

/-- The declared part of a listing: different names, in the order of their first declaration, with
what each of them was given last. -/
structure DeclaredPart (declarations specs : List QuerySpec) : Prop where
  names : specs.map QuerySpec.name = Predicate.distinct (declarations.map QuerySpec.name)
  nodup : (specs.map QuerySpec.name).Nodup
  given : ∀ q ∈ specs, IsLast QuerySpec.name declarations q

/-- A table into which declarations are put. -/
def declaredTable (declarations : List QuerySpec) : Table String QuerySpec :=
  declarations.foldl (fun t q => t.put q.name q) .empty

theorem keys_declaredTable (declarations : List QuerySpec) :
    (declaredTable declarations).keys = Predicate.distinct (declarations.map QuerySpec.name) :=
  Table.keys_foldl_put QuerySpec.name (fun _ q => q) .empty declarations

theorem declaredTable_append (declarations more : List QuerySpec) :
    declaredTable (declarations ++ more) =
      more.foldl (fun t q => t.put q.name q) (declaredTable declarations) :=
  List.foldl_append

theorem isLast_of_declaredTable {declarations : List QuerySpec} {name : String} {q : QuerySpec}
    (h : (declaredTable declarations).get? name = some q) :
    IsLast QuerySpec.name declarations q ∧ q.name = name := by
  rcases (Table.get?_foldl_put_iff (fun q : QuerySpec => q)).1 h with
    ⟨last, hlast, hname, rfl⟩ | ⟨-, hempty⟩
  · exact ⟨hlast, hname⟩
  · cases hempty

theorem map_name_declaredTable (declarations : List QuerySpec) :
    (declaredTable declarations).values.map QuerySpec.name = (declaredTable declarations).keys :=
  Table.map_values_eq_keys fun _ _ hq => (isLast_of_declaredTable hq).2

theorem declaredPart_declaredTable (declarations : List QuerySpec) :
    DeclaredPart declarations (declaredTable declarations).values where
  names := (map_name_declaredTable declarations).trans (keys_declaredTable declarations)
  nodup := map_name_declaredTable declarations ▸ Table.nodup_keys _
  given q hq := by
    obtain ⟨name, hname⟩ := Table.mem_values_iff.1 hq
    exact (isLast_of_declaredTable hname).1

end Declared

/-- The names that can be used are those of presets, declared queries and saved rows. Of these only
saved rows may be out of use. -/
structure Covered (c : Context) (table : Table String SavedQuery) (failed : List String) : Prop where
  known : ∀ name, c.store.Registered name →
    (∃ preset : Preset, preset.name = name) ∨ name ∈ c.declared.keys ∨ name ∈ table.keys
  declared : ∀ name ∈ c.declared.keys, c.store.Registered name
  saved : ∀ name ∈ table.keys, c.store.Registered name ∨ name ∈ failed

section Covered

variable {c : Context} {table : Table String SavedQuery} {failed : List String}

/-- At the start none of the rows is in use. -/
theorem covered_create (r : Registry) (defaultProperty fillBlock : String)
    (table : Table String SavedQuery) :
    Covered (.create r defaultProperty fillBlock) table table.keys where
  known := by
    rintro name ⟨p, hp⟩
    obtain ⟨preset, -, hpreset⟩ := List.mem_filterMap.1 (Table.mem_of_get?_ofPairs hp)
    obtain ⟨q, -, heq⟩ := Option.map_eq_some_iff.1 hpreset
    exact .inl ⟨preset, congrArg Prod.fst heq⟩
  declared name hname := by cases hname
  saved name hname := .inr hname

theorem Covered.record {l : Library} (h : Covered l.context table failed) (g : Registration) :
    Covered (l.record g).context (g.definition?.elim table (saveRow table)) failed := by
  have hstore : ∀ name, (l.record g).context.store.Registered name ↔
      g.name = name ∨ l.context.store.Registered name := by
    intro name
    cases g <;> exact QueryStore.registered_put_iff
  cases g with
  | declared q p =>
    refine ⟨fun name hname => ?_, fun name hname => ?_, fun name hname => ?_⟩
    · rcases (hstore name).1 hname with heq | hold
      · exact .inr (.inl (Table.mem_keys_put_iff.2 (.inl heq)))
      · exact (h.known name hold).imp_right
          (.imp_left fun hkey => Table.mem_keys_put_iff.2 (.inr hkey))
    · exact (hstore name).2 ((Table.mem_keys_put_iff.1 hname).imp_right (h.declared name))
    · exact (h.saved name hname).imp_left fun hold => (hstore name).2 (.inr hold)
  | saved stamp q p =>
    refine ⟨fun name hname => ?_, fun name hname => ?_, fun name hname => ?_⟩
    · rcases (hstore name).1 hname with heq | hold
      · exact .inr (.inr (Table.mem_keys_put_iff.2 (.inl heq)))
      · exact (h.known name hold).imp_right
          (.imp_right fun hkey => Table.mem_keys_put_iff.2 (.inr hkey))
    · exact (hstore name).2 (.inr (h.declared name hname))
    · rcases Table.mem_keys_put_iff.1 hname with heq | hold
      · exact .inl ((hstore name).2 (.inl heq))
      · exact (h.saved name hold).imp_left fun hold => (hstore name).2 (.inr hold)

theorem Covered.foldl_record {l : Library} (h : Covered l.context table failed)
    (history : List Registration) :
    Covered (history.foldl Library.record l).context
      ((history.filterMap Registration.definition?).foldl saveRow table) failed := by
  induction history generalizing l table with
  | nil => exact h
  | cons g rest ih =>
    have hnext := h.record g
    cases g with
    | declared q p => exact ih hnext
    | saved stamp q p => exact ih hnext

/-- What was loaded is in use, and what was not is reported. -/
theorem Covered.load (h : Covered c table table.keys) (hkeyed : Keyed table)
    {rows : List SavedQuery} {last : QueryStore} {report : LoadReport}
    (hperm : rows.Perm table.values) (hspec : LoadSpec c c.store rows last report) :
    Covered (c.withStore last) table (report.failed.map fun f => f.1.name) where
  known name hname := by
    rcases (hspec.registers.registered_iff name).1 hname with hold | hloaded
    · exact h.known name hold
    · have hrow := hspec.perm.subset (List.mem_append_left _ hloaded)
      rw [(hperm.map SavedQuery.name).mem_iff, hkeyed.names_eq_keys] at hrow
      exact .inr (.inr hrow)
  declared name hname := (hspec.registers.registered_iff name).2 (.inl (h.declared name hname))
  saved name hname := by
    rw [← hkeyed.names_eq_keys, ← (hperm.map SavedQuery.name).mem_iff] at hname
    obtain ⟨row, hrow, rfl⟩ := List.mem_map.1 hname
    rcases hspec.mem_loaded_or_failed hrow with hloaded | hfailed
    · exact .inl ((hspec.registers.registered_iff _).2 (.inr hloaded))
    · exact .inr (List.mem_map.2 hfailed)

end Covered

/-- A listing that accounts for the names of a library: the declared queries are those of the given
declarations, the saved ones those of a table and of the definitions made over it. -/
structure Accounted (declarations : List QuerySpec) (table : Table String SavedQuery)
    (definitions : List (Stamp × QuerySpec)) (report : LoadReport) (l : Library)
    (listings : List Listing) : Prop where
  complete : ∀ name, l.context.store.Registered name → name ∈ listings.map Listing.name
  explained : ∀ e ∈ listings, l.context.store.Registered e.name ∨
    e.source = .saved ∧ e.name ∈ report.failed.map fun f => f.1.name
  declared : ∃ specs, Listing.part .declared listings = specs.map (.ofSpec .declared) ∧
    DeclaredPart declarations specs
  saved : ∃ rows, Listing.part .saved listings = rows.map (fun row => .ofSpec .saved row.spec) ∧
    SavedPart table definitions rows

theorem list_eq {l : Library} {rows : List SavedQuery} (hrows : l.database.all = .ok rows) :
    l.list = .ok
      ((Preset.all.filter fun p => l.context.store.contains p.name).map Listing.ofPreset ++
        l.context.declared.values.map (.ofSpec .declared) ++
        rows.map fun row => .ofSpec .saved row.spec) := by
  rw [list, hrows]
  rfl

theorem Covered.accounted {l : Library} {declarations : List QuerySpec}
    {table : Table String SavedQuery} {definitions : List (Stamp × QuerySpec)} {report : LoadReport}
    (h : Covered l.context (definitions.foldl saveRow table) (report.failed.map fun f => f.1.name))
    (hkeyed : Keyed table) (htable : l.database.table? = some (definitions.foldl saveRow table))
    (hdeclared : l.context.declared = declaredTable declarations) :
    ∃ listings, l.list = .ok listings ∧
      Accounted declarations table definitions report l listings := by
  obtain ⟨rows, hrows, hsaved⟩ := exists_savedPart hkeyed htable
  have hcontains : ∀ name, l.context.store.contains name = true ↔ l.context.store.Registered name :=
    fun name => Option.isSome_iff_exists
  refine ⟨_, list_eq hrows, ?_, ?_, ⟨_, ?_, hdeclared ▸ declaredPart_declaredTable declarations⟩,
    ⟨rows, ?_, hsaved⟩⟩
  · intro name hname
    have hnames : name ∈ (Preset.all.filter fun p => l.context.store.contains p.name).map Preset.name ∨
        name ∈ l.context.declared.values.map QuerySpec.name ∨ name ∈ rows.map SavedQuery.name := by
      rcases h.known name hname with ⟨preset, rfl⟩ | hkey | hkey
      · refine .inl (List.mem_map_of_mem (List.mem_filter.2 ⟨?_, (hcontains _).2 hname⟩))
        cases preset <;> decide
      · rw [hdeclared, map_name_declaredTable, ← hdeclared]
        exact .inr (.inl hkey)
      · exact .inr (.inr (hsaved.mem_names_iff.2 hkey))
    rw [List.map_append, List.map_append, List.map_map, List.map_map, List.map_map, List.mem_append,
      List.mem_append, or_assoc]
    exact hnames
  · intro e he
    rcases List.mem_append.1 he with hfront | hrow
    · rcases List.mem_append.1 hfront with hpreset | hspec
      · obtain ⟨preset, hmem, rfl⟩ := List.mem_map.1 hpreset
        exact .inl ((hcontains _).1 (List.mem_filter.1 hmem).2)
      · obtain ⟨q, hq, rfl⟩ := List.mem_map.1 hspec
        have hkey := List.mem_map_of_mem (f := QuerySpec.name) hq
        rw [hdeclared, map_name_declaredTable, ← hdeclared] at hkey
        exact .inl (h.declared _ hkey)
    · obtain ⟨row, hmem, rfl⟩ := List.mem_map.1 hrow
      have hkey := hsaved.mem_names_iff.1 (List.mem_map_of_mem hmem)
      exact (h.saved _ hkey).imp_right fun hfailed => ⟨rfl, hfailed⟩
  · simp [Listing.part, List.filter_map, Function.comp_def, Listing.ofPreset, Listing.ofSpec]
  · simp [Listing.part, List.filter_map, Function.comp_def, Listing.ofPreset, Listing.ofSpec]

/-- What a catalog declares is covered, while none of the rows is in use. -/
theorem covered_context {catalog : Catalog} {number : Nat} {context : Context}
    (hcontext : catalog.context number = .ok context) (table : Table String SavedQuery) :
    Covered context table table.keys ∧ context.declared = declaredTable catalog.queries := by
  obtain ⟨r, -, hdeclare⟩ := bind_eq_ok_iff.1 hcontext
  let start : Library :=
    ⟨.create r catalog.defaultProperty catalog.fillBlock, ⟨0, some table⟩⟩
  obtain ⟨history, hqueries, hnone, hhistory⟩ := Catalog.exists_history start.database hdeclare
  have hcovered : Covered start.context table table.keys := covered_create _ _ _ table
  have hcontext := hcovered.foldl_record history
  have hdeclared := declared_foldl_record start history
  rw [hnone] at hcontext
  rw [hqueries] at hdeclared
  rw [hhistory] at hcontext hdeclared
  exact ⟨hcontext, hdeclared⟩

/-- Behind the start from a catalog and a migrated table, and after any requests, the listing can be
read and accounts for the names of the library. -/
theorem accounted_performAll {catalog : Catalog} {number : Nat} {context : Context} {db : Database}
    (hcontext : catalog.context number = .ok context)
    (hkeyed : ∀ table, db.table? = some table → Keyed table) :
    ∃ l report, load ⟨context, db.migrate⟩ = .ok (l, report) ∧
      ∀ requests, ∃ listings, (l.performAll requests).list = .ok listings ∧
        Accounted
          (catalog.queries ++ (l.registrations requests).filterMap Registration.declaration?)
          (db.table?.getD .empty) ((l.registrations requests).filterMap Registration.definition?)
          report (l.performAll requests) listings := by
  have hfrozen := Catalog.frozen_of_context hcontext
  have htable : Keyed (db.table?.getD .empty) := keyed_getD hkeyed
  obtain ⟨hstart, hdeclared⟩ := covered_context hcontext (db.table?.getD .empty)
  obtain ⟨rows, last, report, hperm, hload, hspec⟩ := load_migrate_spec hfrozen db
  refine ⟨_, report, hload, fun requests => ?_⟩
  have hopen : Open ⟨context.withStore last, db.migrate⟩ := by
    refine ⟨hspec.registers.frozen_eq.trans hfrozen, fun table heq => ?_⟩
    cases heq
    exact htable
  rw [hopen.performAll_eq]
  refine ((hstart.load htable hperm hspec).foldl_record _).accounted htable
    (table?_foldl_record _ _ rfl) ?_
  rw [declared_foldl_record, declaredTable_append, ← hdeclared]
  rfl

theorem accounted_performAll_quarry :
    ∃ context, Catalog.quarry.context 0 = .ok context ∧
      (∀ table, oneRow.table? = some table → Keyed table) ∧
      ∃ l report, load ⟨context, oneRow.migrate⟩ = .ok (l, report) ∧
        ∀ requests, ∃ listings, (l.performAll requests).list = .ok listings ∧
          Accounted (Catalog.quarry.queries ++
              (l.registrations requests).filterMap Registration.declaration?)
            (oneRow.table?.getD .empty)
            ((l.registrations requests).filterMap Registration.definition?)
            report (l.performAll requests) listings := by
  have hcontext : ∃ context, Catalog.quarry.context 0 = .ok context := ⟨_, by cbv⟩
  obtain ⟨context, hcontext⟩ := hcontext
  exact ⟨context, hcontext, keyed_oneRow, accounted_performAll hcontext keyed_oneRow⟩

end Library

end VoxelQuery
