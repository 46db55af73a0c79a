import VoxelQuery.Proofs.Library.Dependence
import VoxelQuery.Proofs.Table

/-! Runs of definitions. A definition that fails leaves the library as it was, so a run is told by
the rows that were accepted, each of them with a text that compiled at its turn. -/
namespace VoxelQuery

namespace Library

/-- Definitions made one after the other, with the names of those that succeed. -/
def defineAll (l : Library) : List (Stamp × QuerySpec) → List String × Library
  | [] => ([], l)
  | (stamp, q) :: rest =>
    match l.define stamp q with
    | (.ok row, next) => (row.name :: (defineAll next rest).1, (defineAll next rest).2)
    | (.error _, next) => defineAll next rest

end Library

/-- Every row stands under its own name. -/
def Keyed (table : Table String SavedQuery) : Prop :=
  ∀ name row, table.get? name = some row → row.name = name

/-- From one store and table to another by accepting rows whose texts compile. -/
inductive Accepts (c : Context) : QueryStore → Table String SavedQuery → List String →
    QueryStore → Table String SavedQuery → Prop
  | refl (s : QueryStore) (table : Table String SavedQuery) : Accepts c s table [] s table
  | step {s last : QueryStore} {table final : Table String SavedQuery} {row : SavedQuery}
      {p : Predicate} {names : List String} (hp : (c.withStore s).compile row.text = .ok p)
      (tail : Accepts c (s.put row.name p) (table.put row.name row) names last final) :
      Accepts c s table (row.name :: names) last final

section Table

variable {table : Table String SavedQuery}

theorem Keyed.empty : Keyed .empty := by
  intro name row hrow
  cases hrow

theorem Keyed.put (h : Keyed table) (row : SavedQuery) : Keyed (table.put row.name row) := by
  intro name found hfound
  rcases Table.get?_put_cases hfound with ⟨rfl, rfl⟩ | hold
  · rfl
  · exact h name found hold

/-- A table that is missing is as good as an empty one. -/
theorem keyed_getD {table? : Option (Table String SavedQuery)}
    (h : ∀ table, table? = some table → Keyed table) : Keyed (table?.getD .empty) := by
  cases table? with
  | none => exact .empty
  | some table => exact h table rfl

theorem Keyed.name_savedRow (h : Keyed table) (stamp : Stamp) (q : QuerySpec) :
    (Database.savedRow table stamp q).name = q.name := by
  unfold Database.savedRow
  split
  · next old hold => exact h q.name old hold
  · rfl

theorem text_savedRow (table : Table String SavedQuery) (stamp : Stamp) (q : QuerySpec) :
    (Database.savedRow table stamp q).text = q.text := by
  unfold Database.savedRow
  split <;> rfl

theorem Keyed.names_eq_keys (h : Keyed table) : table.values.map SavedQuery.name = table.keys :=
  Table.map_values_eq_keys h

end Table

namespace Database

variable {stamp : Stamp} {q : QuerySpec}

theorem save_eq_ok_iff {db saved : Database} {row : SavedQuery} :
    db.save stamp q = .ok (saved, row) ↔
      ∃ table, db.table? = some table ∧ row = savedRow table stamp q ∧
        saved = { db with table? := some (table.put q.name row) } := by
  rw [Database.save, bind_eq_ok_iff, Database.rows]
  cases db.table? with
  | none => simp
  | some table =>
    constructor
    · rintro ⟨found, hfound, h⟩
      cases hfound
      cases h
      exact ⟨table, rfl, rfl, rfl⟩
    · rintro ⟨found, hfound, rfl, rfl⟩
      cases hfound
      exact ⟨table, rfl, rfl⟩

theorem find?_put {db : Database} {table : Table String SavedQuery} (name other : String)
    (row : SavedQuery) (htable : db.table? = some table) :
    Database.find? { db with table? := some (table.put name row) } other =
      if name = other then .ok (some row) else db.find? other := by
  have hfind : db.find? other = .ok (table.get? other) := by
    rw [Database.find?, Database.rows, htable]
    rfl
  have hput : Database.find? { db with table? := some (table.put name row) } other =
      .ok ((table.put name row).get? other) := rfl
  rw [hput, hfind, Table.get?_put]
  split <;> rfl

end Database

namespace Library

section Definition

variable {l : Library} {stamp : Stamp} {q : QuerySpec}

theorem define_of_compile_error {e : QueryError} (he : l.context.compile q.text = .error e) :
    l.define stamp q = (.error (.query e), l) := by
  rw [define]
  simp only [he]

theorem define_of_save_error {p : Predicate} {e : Failure}
    (hp : l.context.compile q.text = .ok p) (he : l.database.save stamp q = .error e) :
    l.define stamp q = (.error e, l) := by
  rw [define]
  simp only [hp, he]

theorem define_of_save_ok {p : Predicate} {saved : Database} {row : SavedQuery}
    (hp : l.context.compile q.text = .ok p) (hrow : l.database.save stamp q = .ok (saved, row))
    (hstore : l.context.store.frozen = false) :
    l.define stamp q = (.ok row, ⟨l.context.withStore (l.context.store.put row.name p), saved⟩) := by
  have hregister := QueryStore.register_of_not_frozen hstore row.name p
  rw [define]
  simp only [hp, hrow, hregister]
  rfl

end Definition

variable {c : Context} {s : QueryStore} {table : Table String SavedQuery} {version : Int}

theorem define_of_ok (hs : s.frozen = false) (htable : Keyed table) {stamp : Stamp} {q : QuerySpec}
    {p : Predicate} (hp : (c.withStore s).compile q.text = .ok p) :
    define ⟨c.withStore s, ⟨version, some table⟩⟩ stamp q =
      (.ok (Database.savedRow table stamp q),
        ⟨c.withStore (s.put q.name p),
          ⟨version, some (table.put q.name (Database.savedRow table stamp q))⟩⟩) := by
  have hsave : Database.save ⟨version, some table⟩ stamp q =
      .ok (⟨version, some (table.put q.name (Database.savedRow table stamp q))⟩,
        Database.savedRow table stamp q) := rfl
  have hdefine := @define_of_save_ok ⟨c.withStore s, ⟨version, some table⟩⟩ stamp q p _ _ hp hsave hs
  rw [htable.name_savedRow] at hdefine
  exact hdefine

theorem defineAll_spec (hs : s.frozen = false) (htable : Keyed table)
    (definitions : List (Stamp × QuerySpec)) :
    ∃ names last final, defineAll ⟨c.withStore s, ⟨version, some table⟩⟩ definitions =
        (names, ⟨c.withStore last, ⟨version, some final⟩⟩) ∧
      Accepts c s table names last final := by
  induction definitions generalizing s table with
  | nil => exact ⟨[], s, table, rfl, .refl s table⟩
  | cons definition rest ih =>
    obtain ⟨stamp, q⟩ := definition
    cases hp : (c.withStore s).compile q.text with
    | error e =>
      obtain ⟨names, last, final, hrest, haccepts⟩ := ih hs htable
      refine ⟨names, last, final, ?_, haccepts⟩
      have hdefine := @define_of_compile_error ⟨c.withStore s, ⟨version, some table⟩⟩ stamp q e hp
      rw [defineAll, hdefine]
      exact hrest
    | ok p =>
      have hname := htable.name_savedRow stamp q
      have htext : (c.withStore s).compile (Database.savedRow table stamp q).text = .ok p := by
        rw [text_savedRow, hp]
      have hput := htable.put (Database.savedRow table stamp q)
      rw [hname] at hput
      obtain ⟨names, last, final, hrest, haccepts⟩ := @ih (s.put q.name p) _ hs hput
      rw [← hname] at haccepts
      refine ⟨_, last, final, ?_, .step htext haccepts⟩
      rw [defineAll, define_of_ok hs htable hp]
      simp only [hrest]

end Library

/-- What holds of a live store and its table behind every definition. -/
structure Live (c : Context) (s : QueryStore) (table : Table String SavedQuery) : Prop where
  frozen : s.frozen = false
  keyed : Keyed table
  others : ∀ name, name ∉ table.keys → s.lookup? name = c.store.lookup? name
  registered : ∀ name, s.Registered name ↔ c.store.Registered name ∨ name ∈ table.keys
  supported : ∀ row ∈ table.values, c.Supports row.text
  references : ∀ row ∈ table.values, ∀ name, References row.text name → s.Registered name

section Live

variable {c : Context} {s last : QueryStore} {table final : Table String SavedQuery}
  {names : List String}

theorem Live.empty (h : c.store.frozen = false) : Live c c.store .empty where
  frozen := h
  keyed := .empty
  others _ _ := rfl
  registered name := by simp
  supported row hrow := by cases hrow
  references row hrow := by cases hrow

theorem Live.step (h : Live c s table) {row : SavedQuery} {p : Predicate}
    (hp : (c.withStore s).compile row.text = .ok p) :
    Live c (s.put row.name p) (table.put row.name row) where
  frozen := h.frozen
  keyed := h.keyed.put row
  others := by
    intro name hname
    rw [Table.mem_keys_put_iff, not_or] at hname
    rw [QueryStore.lookup?_put, if_neg hname.1, h.others name hname.2]
  registered := by
    intro name
    rw [QueryStore.registered_put_iff, h.registered, Table.mem_keys_put_iff]
    exact or_left_comm
  supported := by
    intro saved hsaved
    rcases Table.mem_values_of_put hsaved with rfl | hold
    · exact (Context.exists_compile_iff.1 ⟨p, hp⟩).1
    · exact h.supported saved hold
  references := by
    intro saved hsaved name href
    rw [QueryStore.registered_put_iff]
    rcases Table.mem_values_of_put hsaved with rfl | hold
    · exact .inr ((Context.exists_compile_iff.1 ⟨p, hp⟩).2 name href)
    · exact .inr (h.references saved hold name href)

theorem Accepts.live (h : Accepts c s table names last final) (hlive : Live c s table) :
    Live c last final := by
  induction h with
  | refl s table => exact hlive
  | step hp tail ih => exact ih (hlive.step hp)

theorem Accepts.mem_keys_iff (h : Accepts c s table names last final) (name : String) :
    name ∈ final.keys ↔ name ∈ names ∨ name ∈ table.keys := by
  induction h with
  | refl s table => simp
  | step hp tail ih =>
    rw [ih, Table.mem_keys_put_iff, List.mem_cons, or_left_comm, or_assoc, eq_comm (a := name)]

end Live

/-- What holds in addition as long as no name is defined again. -/
structure Steady (c : Context) (s : QueryStore) (table : Table String SavedQuery) : Prop
    extends Live c s table where
  fresh : ∀ name ∈ table.keys, ¬c.store.Registered name
  solved : ∀ row ∈ table.values, ∃ p, (c.withStore s).compile row.text = .ok p ∧
    s.lookup? row.name = some p
  loadable : ∀ name ∈ table.keys, Loadable c c.store table.values name

section Steady

variable {c : Context} {s last : QueryStore} {table final : Table String SavedQuery}
  {names : List String}

theorem Steady.empty (h : c.store.frozen = false) : Steady c c.store .empty where
  toLive := .empty h
  fresh name hname := by cases hname
  solved row hrow := by cases hrow
  loadable name hname := by cases hname

theorem Steady.step (h : Steady c s table) {row : SavedQuery} {p : Predicate}
    (hp : (c.withStore s).compile row.text = .ok p) (hnew : row.name ∉ table.keys)
    (hfresh : ¬c.store.Registered row.name) :
    Steady c (s.put row.name p) (table.put row.name row) := by
  have hvalues : ∀ saved, saved ∈ (table.put row.name row).values ↔
      saved = row ∨ saved ∈ table.values := fun _ => Table.mem_values_put_iff hnew
  have hwithin : s.Within (s.put row.name p) := by
    apply QueryStore.within_put
    intro hs
    rcases (h.registered row.name).1 hs with hstore | hkey
    · exact hfresh hstore
    · exact hnew hkey
  have hloadable : ∀ name ∈ table.keys, Loadable c c.store (table.put row.name row).values name :=
    fun name hname => (h.loadable name hname).subset fun saved hsaved => (hvalues saved).2 (.inr hsaved)
  refine ⟨h.toLive.step hp, ?_, ?_, ?_⟩
  · intro name hname
    rcases Table.mem_keys_put_iff.1 hname with rfl | hold
    · exact hfresh
    · exact h.fresh name hold
  · intro saved hsaved
    rcases (hvalues saved).1 hsaved with rfl | hold
    · exact ⟨p, Context.compile_mono hwithin hp, by rw [QueryStore.lookup?_put, if_pos rfl]⟩
    · obtain ⟨q, hq, hlookup⟩ := h.solved saved hold
      exact ⟨q, Context.compile_mono hwithin hq, hwithin _ _ hlookup⟩
  · intro name hname
    rcases Table.mem_keys_put_iff.1 hname with rfl | hold
    · obtain ⟨supported, references⟩ := Context.exists_compile_iff.1 ⟨p, hp⟩
      apply Loadable.row ((hvalues row).2 (.inl rfl)) supported
      intro name href hnot
      have hkey := ((h.registered name).1 (references name href)).resolve_left hnot
      exact hloadable name hkey
    · exact hloadable name hold

theorem Accepts.steady (h : Accepts c s table names last final) (hsteady : Steady c s table)
    (hnodup : names.Nodup) (hnew : ∀ name ∈ names, name ∉ table.keys ∧ ¬c.store.Registered name) :
    Steady c last final ∧ final.keys = table.keys ++ names := by
  induction h with
  | refl s table => exact ⟨hsteady, (List.append_nil _).symm⟩
  | @step s last table final row p names hp tail ih =>
    obtain ⟨hrow, hnames⟩ := List.forall_mem_cons.1 hnew
    obtain ⟨hnotMem, hrest⟩ := List.nodup_cons.1 hnodup
    have hkeys : (table.put row.name row).keys = table.keys ++ [row.name] := by
      rw [Table.keys_put, if_neg hrow.1]
    have hnext : ∀ name ∈ names,
        name ∉ (table.put row.name row).keys ∧ ¬c.store.Registered name := by
      intro name hname
      refine ⟨fun hmem => ?_, (hnames name hname).2⟩
      rcases Table.mem_keys_put_iff.1 hmem with rfl | hold
      · exact hnotMem hname
      · exact (hnames name hname).1 hold
    obtain ⟨hlast, hfinal⟩ := ih (hsteady.step hp hrow.1 hrow.2) hrest hnext
    refine ⟨hlast, ?_⟩
    rw [hfinal, hkeys, List.append_assoc, List.singleton_append]

end Steady

end VoxelQuery
