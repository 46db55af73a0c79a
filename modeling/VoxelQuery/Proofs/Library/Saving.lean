import VoxelQuery.Proofs.Library.Listing

/-! The table of saved queries over whole runs. Whatever is saved, and however often the database is
migrated in between, each name has one row, with the identity and the time of its first saving and
all else from its last. Rows are read by time and then by first saving, and no row moves later. -/
namespace VoxelQuery

namespace Database

inductive Step where
  | save (stamp : Stamp) (q : QuerySpec)
  | migrate

/-- A saving that fails leaves the database as it is. -/
def step (db : Database) : Step → Database
  | .save stamp q =>
    match db.save stamp q with
    | .ok (next, _) => next
    | .error _ => db
  | .migrate => db.migrate

def run (db : Database) (steps : List Step) : Database := steps.foldl step db

def Step.saving? : Step → Option (Stamp × QuerySpec)
  | .save stamp q => some (stamp, q)
  | .migrate => none

/-- What the steps of a run save, in their order. -/
def savings (steps : List Step) : List (Stamp × QuerySpec) := steps.filterMap Step.saving?

/-- There is no table, or one without rows. -/
def Vacant (db : Database) : Prop := ∀ table, db.table? = some table → table = .empty

end Database

namespace Library

open Database (saveRow savedRow savings)

/-- The first saving that bears a name. -/
def firstOf (saved : List (Stamp × QuerySpec)) (name : String) : Option (Stamp × QuerySpec) :=
  saved.find? fun d => decide (definedName d = name)

/-- The last saving that bears a name. -/
def lastOf (saved : List (Stamp × QuerySpec)) (name : String) : Option (Stamp × QuerySpec) :=
  saved.reverse.find? fun d => decide (definedName d = name)

/-- The row of a name that was saved first and last in this way. -/
def joinedRow (first last : Stamp × QuerySpec) : SavedQuery :=
  ⟨first.1.id, first.2.name, last.2.description, last.2.text, first.1.time, last.1.time⟩

/-- The row that some savings leave of a name. -/
def rowOf (saved : List (Stamp × QuerySpec)) (name : String) : Option SavedQuery :=
  match firstOf saved name, lastOf saved name with
  | some first, some last => some (joinedRow first last)
  | _, _ => none

/-- The names of some savings, in the order of their first saving. -/
def namesOf (saved : List (Stamp × QuerySpec)) : List String :=
  Predicate.distinct (saved.map definedName)

section Rows

variable {saved : List (Stamp × QuerySpec)} {d first last : Stamp × QuerySpec} {name : String}
  {row : SavedQuery}

theorem firstOf_eq_none_iff : firstOf saved name = none ↔ ∀ d ∈ saved, definedName d ≠ name := by
  simp [firstOf]

theorem lastOf_eq_none_iff : lastOf saved name = none ↔ ∀ d ∈ saved, definedName d ≠ name := by
  simp [lastOf]

theorem mem_of_firstOf (h : firstOf saved name = some first) :
    first ∈ saved ∧ definedName first = name :=
  have hfound := List.find?_some h
  ⟨List.mem_of_find?_eq_some h, of_decide_eq_true hfound⟩

theorem firstOf_concat : firstOf (saved ++ [d]) name =
    (firstOf saved name).or (if definedName d = name then some d else none) := by
  rw [firstOf, List.find?_append, firstOf]
  split <;> simp_all

theorem lastOf_concat :
    lastOf (saved ++ [d]) name = if definedName d = name then some d else lastOf saved name := by
  rw [lastOf, List.reverse_concat, List.find?_cons, lastOf]
  split <;> simp_all

theorem rowOf_cases (saved : List (Stamp × QuerySpec)) (name : String) :
    (firstOf saved name = none ∧ lastOf saved name = none ∧ rowOf saved name = none) ∨
      ∃ first last, firstOf saved name = some first ∧ lastOf saved name = some last ∧
        rowOf saved name = some (joinedRow first last) := by
  cases hfirst : firstOf saved name with
  | none =>
    have hlast := lastOf_eq_none_iff.2 (firstOf_eq_none_iff.1 hfirst)
    exact .inl ⟨rfl, hlast, by rw [rowOf, hfirst]⟩
  | some first =>
    cases hlast : lastOf saved name with
    | none =>
      have hnone := firstOf_eq_none_iff.2 (lastOf_eq_none_iff.1 hlast)
      cases hfirst.symm.trans hnone
    | some last => exact .inr ⟨first, last, rfl, rfl, by rw [rowOf, hfirst, hlast]⟩

/-- Table and savings agree on every name. -/
theorem get?_foldl_saveRow (saved : List (Stamp × QuerySpec)) (name : String) :
    (saved.foldl saveRow .empty).get? name = rowOf saved name := by
  -- From the back, since what is found of a name is told by the savings so far.
  induction saved using List.reverseRecOn generalizing name with
  | nil => rfl
  | append_singleton saved d ih =>
    rw [List.foldl_append, List.foldl_cons, List.foldl_nil, get?_saveRow]
    by_cases hname : definedName d = name
    · subst hname
      rw [if_pos rfl, savedRow]
      have hrow := ih (definedName d)
      rw [definedName] at hrow
      rcases rowOf_cases saved (definedName d) with
        ⟨hfirst, -, hnone⟩ | ⟨first, last, hfirst, -, hsome⟩
      · rw [hrow, ← definedName, hnone, rowOf, firstOf_concat, lastOf_concat, hfirst, if_pos rfl,
          if_pos rfl]
        rfl
      · rw [hrow, ← definedName, hsome, rowOf, firstOf_concat, lastOf_concat, hfirst, if_pos rfl,
          if_pos rfl]
        rfl
    · rw [if_neg hname, ih, rowOf, rowOf, firstOf_concat, lastOf_concat, if_neg hname, if_neg hname,
        Option.or_none]

example : rowOf [(⟨"1", "b"⟩, ⟨"ore", some "all ores", "gold"⟩), (⟨"2", "a"⟩, ⟨"ore", none, "coal"⟩)]
    "ore" = some ⟨"1", "ore", none, "coal", "b", "a"⟩ := by decide

theorem keys_saved (saved : List (Stamp × QuerySpec)) :
    (saved.foldl saveRow .empty).keys = namesOf saved :=
  keys_foldl_saveRow .empty saved

theorem keyed_saved (saved : List (Stamp × QuerySpec)) : Keyed (saved.foldl saveRow .empty) :=
  keyed_foldl .empty saved

/-- A row in the place of the one that bears its name. -/
def supersede (row old : SavedQuery) : SavedQuery := if old.name = row.name then row else old

section Resaving

variable {table : Table String SavedQuery}

theorem savedRow_of_new (hkey : d.2.name ∉ table.keys) :
    savedRow table d.1 d.2 = joinedRow d d := by
  have hnone : table.get? d.2.name = none :=
    Option.eq_none_iff_forall_ne_some.2 fun row hrow => hkey ((Table.mem_keys_iff _ _).2 ⟨row, hrow⟩)
  rw [savedRow, hnone]
  rfl

theorem values_saveRow (hkeyed : Keyed table) (hkey : d.2.name ∈ table.keys) :
    (saveRow table d).values = table.values.map (supersede (savedRow table d.1 d.2)) := by
  rw [saveRow, Table.values_put_of_mem hkey hkeyed]
  refine List.map_congr_left fun old _ => ?_
  rw [supersede, hkeyed.name_savedRow]

theorem createdAt_supersede (hkeyed : Keyed table) {old : SavedQuery} (hold : old ∈ table.values) :
    (supersede (savedRow table d.1 d.2) old).createdAt = old.createdAt := by
  rw [supersede, hkeyed.name_savedRow]
  split
  · next hname =>
    have hfound := Table.get?_of_mem_values hkeyed hold
    rw [hname] at hfound
    rw [savedRow, hfound]
  · rfl

/-- A row that is saved again stays where it is read. -/
theorem all_saveRow {db next : Database} {rows : List SavedQuery} (hdb : db.table? = some table)
    (hnext : next.table? = some (saveRow table d)) (hkeyed : Keyed table)
    (hkey : d.2.name ∈ table.keys) (hrows : db.all = .ok rows) :
    next.all = .ok (rows.map (supersede (savedRow table d.1 d.2))) := by
  rw [all_eq hdb] at hrows
  cases hrows
  rw [all_eq hnext, values_saveRow hkeyed hkey, List.map_mergeSort]
  intro a ha b hb
  rw [createdAt_supersede hkeyed ha, createdAt_supersede hkeyed hb]

end Resaving

/-- A clock that never goes back creates the rows in the order of the table. -/
theorem values_pairwise (htimes : saved.Pairwise fun a b => a.1.time ≤ b.1.time) :
    (saved.foldl saveRow .empty).values.Pairwise fun a b => a.createdAt ≤ b.createdAt := by
  induction saved using List.reverseRecOn with
  | nil => exact .nil
  | append_singleton saved d ih =>
    obtain ⟨hsaved, -, hlatest⟩ := List.pairwise_append.1 htimes
    have hbefore := ih hsaved
    rw [List.foldl_append, List.foldl_cons, List.foldl_nil]
    -- A name that is there keeps its time, and a new one is created at the latest time of all.
    by_cases hkey : d.2.name ∈ (saved.foldl saveRow .empty).keys
    · rw [values_saveRow (keyed_saved saved) hkey, List.pairwise_map]
      refine hbefore.imp_of_mem fun ha hb hle => ?_
      rwa [createdAt_supersede (keyed_saved saved) ha, createdAt_supersede (keyed_saved saved) hb]
    · rw [saveRow, Table.values_put_of_new hkey, savedRow_of_new hkey, List.pairwise_append]
      refine ⟨hbefore, List.pairwise_singleton _ _, fun row hrow new hnew => ?_⟩
      obtain ⟨name, hname⟩ := Table.mem_values_iff.1 hrow
      rw [get?_foldl_saveRow] at hname
      obtain ⟨-, -, hnone⟩ | ⟨first, last, hfirst, -, hjoined⟩ := rowOf_cases saved name
      · cases hnone.symm.trans hname
      · cases hjoined.symm.trans hname
        rw [List.mem_singleton.1 hnew]
        exact hlatest first (mem_of_firstOf hfirst).1 d (List.mem_singleton_self d)

/-- The rows that are read behind some savings: one for each name, by time of creation and then by
first saving. -/
structure RowsOf (saved : List (Stamp × QuerySpec)) (rows : List SavedQuery) : Prop where
  names : (rows.map SavedQuery.name).Perm (namesOf saved)
  row : ∀ row ∈ rows, rowOf saved row.name = some row
  order : rows.Pairwise (InOrder (namesOf saved))
  timely : (saved.Pairwise fun a b => a.1.time ≤ b.1.time) →
    rows.map SavedQuery.name = namesOf saved

theorem exists_rowsOf {db : Database} (hdb : db.table? = some (saved.foldl saveRow .empty)) :
    ∃ rows, db.all = .ok rows ∧ RowsOf saved rows := by
  have hkeyed := keyed_saved saved
  obtain ⟨rows, hrows, hperm, horder⟩ := exists_rows hdb hkeyed
  have hnames := hkeyed.names_eq_keys
  rw [keys_saved] at hnames horder
  refine ⟨rows, hrows, hnames ▸ hperm.map _, fun row hrow => ?_, horder, fun htimes => ?_⟩
  · rw [← get?_foldl_saveRow]
    exact Table.get?_of_mem_values hkeyed (hperm.subset hrow)
  · have hsorted : (saved.foldl saveRow .empty).values.mergeSort
        (fun a b => decide (¬b.createdAt < a.createdAt)) = (saved.foldl saveRow .empty).values := by
      apply List.mergeSort_of_pairwise
      simpa only [decide_eq_true_eq, not_lt] using values_pairwise htimes
    rw [all_eq hdb, hsorted] at hrows
    cases hrows
    exact hnames

end Rows

end Library

namespace Database

open Library (RowsOf namesOf rowOf supersede)

/-- A database that tells of some savings, and what one more of them does to it. -/
structure Tells (saved : List (Stamp × QuerySpec)) (db : Database) : Prop where
  find : ∀ name, db.find? name = .ok (rowOf saved name)
  rows : ∃ rows, db.all = .ok rows ∧ RowsOf saved rows
  settled : db.migrate = db
  saves : ∀ stamp q, ∃ row, db.save stamp q = .ok (db.step (.save stamp q), row) ∧
    (db.step (.save stamp q)).find? q.name = .ok (some row) ∧
    (q.name ∈ namesOf saved → ∀ rows, db.all = .ok rows →
      (db.step (.save stamp q)).all = .ok (rows.map (supersede row)))

theorem step_eq {db : Database} {table : Table String SavedQuery} (hdb : db.table? = some table)
    (hversion : schemaVersion ≤ db.version) (s : Step) :
    db.step s = ⟨db.version, some (s.saving?.elim table (saveRow table))⟩ := by
  cases s with
  | save stamp q =>
    have hsave : db.save stamp q =
        .ok (⟨db.version, some (saveRow table (stamp, q))⟩, savedRow table stamp q) :=
      save_eq_ok_iff.2 ⟨table, hdb, rfl, rfl⟩
    rw [step, hsave]
    rfl
  | migrate =>
    rw [step, migrate, hdb, max_eq_left hversion]
    rfl

/-- A run saves what its steps save, and keeps the version. -/
theorem run_eq {db : Database} {table : Table String SavedQuery} (hdb : db.table? = some table)
    (hversion : schemaVersion ≤ db.version) (steps : List Step) :
    db.run steps = ⟨db.version, some ((savings steps).foldl saveRow table)⟩ := by
  induction steps generalizing db table with
  | nil =>
    cases db
    cases hdb
    rfl
  | cons s rest ih =>
    have hrest : db.run (s :: rest) =
        run ⟨db.version, some (s.saving?.elim table (saveRow table))⟩ rest := by
      rw [← step_eq hdb hversion]
      rfl
    rw [hrest, @ih ⟨db.version, _⟩ _ rfl hversion, savings, savings, List.filterMap_cons]
    cases s <;> rfl

theorem tells_of_table {saved : List (Stamp × QuerySpec)} {db : Database}
    (hdb : db.table? = some (saved.foldl saveRow .empty)) (hversion : schemaVersion ≤ db.version) :
    Tells saved db where
  find name := by
    rw [find?, rows, hdb, ← Library.get?_foldl_saveRow]
    rfl
  rows := Library.exists_rowsOf hdb
  settled := by
    have hstep := step_eq hdb hversion .migrate
    rw [step] at hstep
    rw [hstep]
    cases db
    cases hdb
    rfl
  saves stamp q := by
    have hstep := step_eq hdb hversion (.save stamp q)
    have hkeyed := Library.keyed_saved saved
    rw [hstep]
    refine ⟨_, save_eq_ok_iff.2 ⟨_, hdb, rfl, rfl⟩, ?_, fun hname rows hrows => ?_⟩
    · exact (find?_put q.name q.name _ hdb).trans (if_pos rfl)
    · rw [← Library.keys_saved] at hname
      exact Library.all_saveRow (d := (stamp, q)) hdb rfl hkeyed hname hrows

/-- Whatever is saved from a first migration on, with further migrations in between, the database
tells of exactly these savings. -/
theorem tells_run {start : Database} (hstart : start.Vacant) (steps : List Step) :
    (start.migrate.run steps).version = max start.version 1 ∧
      Tells (savings steps) (start.migrate.run steps) := by
  have htable : start.migrate.table? = some .empty := by
    rw [migrate]
    cases hold : start.table? with
    | none => rfl
    | some table => rw [hstart table hold]; rfl
  have hversion : schemaVersion ≤ start.migrate.version := le_max_right _ _
  have hrun := run_eq htable hversion steps
  rw [hrun]
  exact ⟨rfl, tells_of_table rfl hversion⟩

/-- Saved again under a clock that went back, and migrated in between. -/
theorem tells_run_newer :
    Database.Vacant ⟨7, none⟩ ∧
      ((migrate ⟨7, none⟩).run [.save ⟨"1", "b"⟩ ⟨"ore", some "all ores", "gold"⟩, .migrate,
          .save ⟨"2", "b"⟩ ⟨"soil", none, "dirt"⟩, .save ⟨"3", "a"⟩ ⟨"ore", none, "coal"⟩]).version =
        max 7 1 ∧
      Tells [(⟨"1", "b"⟩, ⟨"ore", some "all ores", "gold"⟩), (⟨"2", "b"⟩, ⟨"soil", none, "dirt"⟩),
          (⟨"3", "a"⟩, ⟨"ore", none, "coal"⟩)]
        ((migrate ⟨7, none⟩).run [.save ⟨"1", "b"⟩ ⟨"ore", some "all ores", "gold"⟩, .migrate,
          .save ⟨"2", "b"⟩ ⟨"soil", none, "dirt"⟩, .save ⟨"3", "a"⟩ ⟨"ore", none, "coal"⟩]) := by
  have hvacant : Database.Vacant ⟨7, none⟩ := by
    intro table htable
    cases htable
  exact ⟨hvacant, tells_run hvacant _⟩

end Database

end VoxelQuery
