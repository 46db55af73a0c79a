/-! Tables that keep their keys in the order of first writing. Writing a key again changes its
value and leaves its place, so a table is a finite map together with the history of its keys. -/
namespace VoxelQuery

universe u v

structure Table (κ : Type u) (α : Type v) where
  entries : List (κ × α)
  nodup : (entries.map Prod.fst).Nodup
  deriving DecidableEq

namespace Table

variable {κ : Type u} {α : Type v}

def empty : Table κ α := ⟨[], by simp⟩

instance : Inhabited (Table κ α) := ⟨empty⟩

def keys (t : Table κ α) : List κ := t.entries.map Prod.fst

def values (t : Table κ α) : List α := t.entries.map Prod.snd

def size (t : Table κ α) : Nat := t.entries.length

@[ext] theorem ext {s t : Table κ α} (h : s.entries = t.entries) : s = t := by
  cases s; cases t; simp_all

@[simp] theorem entries_empty : (empty : Table κ α).entries = [] := rfl

@[simp] theorem keys_empty : (empty : Table κ α).keys = [] := rfl

theorem nodup_keys (t : Table κ α) : t.keys.Nodup := t.nodup

@[simp] theorem length_keys (t : Table κ α) : t.keys.length = t.size := by simp [keys, size]

variable [DecidableEq κ]

/-- The value of a key is replaced where the key stands, or added after all others. -/
def putEntry (key : κ) (value : α) : List (κ × α) → List (κ × α)
  | [] => [(key, value)]
  | e :: rest => if e.1 = key then (key, value) :: rest else e :: putEntry key value rest

theorem map_fst_putEntry (key : κ) (value : α) (l : List (κ × α)) :
    (putEntry key value l).map Prod.fst =
      if key ∈ l.map Prod.fst then l.map Prod.fst else l.map Prod.fst ++ [key] := by
  induction l with
  | nil => simp [putEntry]
  | cons e rest ih =>
    by_cases h : e.1 = key
    · simp [putEntry, h]
    · have h' : key ≠ e.1 := fun hk => h hk.symm
      by_cases hm : key ∈ rest.map Prod.fst
      · simp only [putEntry, h, if_false, List.map_cons, ih, if_pos hm]
        rw [if_pos (List.mem_cons_of_mem _ hm)]
      · simp only [putEntry, h, if_false, List.map_cons, ih, if_neg hm]
        rw [if_neg (by simpa [h'] using hm), List.cons_append]

def put (t : Table κ α) (key : κ) (value : α) : Table κ α where
  entries := putEntry key value t.entries
  nodup := by
    rw [map_fst_putEntry]
    split
    · exact t.nodup
    · rename_i h
      rw [List.nodup_append]
      refine ⟨t.nodup, by simp, fun a ha b hb hab => ?_⟩
      rw [List.mem_singleton.1 hb] at hab
      exact h (hab ▸ ha)

def get? (t : Table κ α) (key : κ) : Option α :=
  (t.entries.find? (fun e => decide (e.1 = key))).map Prod.snd

def contains (t : Table κ α) (key : κ) : Bool := (t.get? key).isSome

/-- Later pairs overwrite earlier ones with an equal key. -/
def ofPairs (pairs : List (κ × α)) : Table κ α :=
  pairs.foldl (fun t e => t.put e.1 e.2) empty

@[simp] theorem get?_empty (key : κ) : (empty : Table κ α).get? key = none := rfl

/-- The last value written under a key is the one read back. -/
@[simp] theorem get?_put (t : Table κ α) (key other : κ) (value : α) :
    (t.put key value).get? other = if key = other then some value else t.get? other := by
  obtain ⟨l, nodup⟩ := t
  simp only [get?, put]
  clear nodup
  induction l with
  | nil => by_cases h : key = other <;> simp [putEntry, h]
  | cons e rest ih =>
    rw [putEntry]
    by_cases he : e.1 = key
    · rw [if_pos he]
      by_cases h : key = other <;> simp [h, he]
    · rw [if_neg he]
      by_cases ho : e.1 = other
      · have h : ¬key = other := fun hk => he (ho.trans hk.symm)
        simp [ho, h]
      · simpa [ho] using ih

/-- A key keeps the place of its first writing. -/
theorem keys_put (t : Table κ α) (key : κ) (value : α) :
    (t.put key value).keys = if key ∈ t.keys then t.keys else t.keys ++ [key] :=
  map_fst_putEntry key value t.entries

theorem get?_eq_some_iff (t : Table κ α) (key : κ) (value : α) :
    t.get? key = some value ↔ (key, value) ∈ t.entries := by
  obtain ⟨l, nodup⟩ := t
  simp only [get?]
  induction l with
  | nil => simp
  | cons e rest ih =>
    obtain ⟨k, v⟩ := e
    simp only [List.map_cons, List.nodup_cons] at nodup
    by_cases h : k = key
    · subst h
      have hn : (k, value) ∉ rest := fun hm => nodup.1 (List.mem_map.2 ⟨_, hm, rfl⟩)
      simp [hn, eq_comm]
    · have h' : ¬key = k := fun hk => h hk.symm
      simpa [h, h'] using ih nodup.2

theorem mem_keys_iff (t : Table κ α) (key : κ) :
    key ∈ t.keys ↔ ∃ value, t.get? key = some value := by
  simp [keys, get?_eq_some_iff]

theorem contains_iff (t : Table κ α) (key : κ) : t.contains key = true ↔ key ∈ t.keys := by
  rw [mem_keys_iff, contains, Option.isSome_iff_exists]

end Table

example : (Table.ofPairs [(1, 'a'), (2, 'b'), (1, 'c')]).entries = [(1, 'c'), (2, 'b')] := rfl

end VoxelQuery
