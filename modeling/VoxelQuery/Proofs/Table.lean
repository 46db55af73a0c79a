import Mathlib.Data.Finset.Card
import Mathlib.Data.List.Induction
import VoxelQuery.Table

/-! What a write does to the keys and to the values of a table, and what becomes of a table when all
of its values are changed alike. -/
namespace VoxelQuery.Table

variable {κ α β : Type} [DecidableEq κ] {t : Table κ α} {key other : κ} {value found : α}

theorem mem_values_iff : value ∈ t.values ↔ ∃ key, t.get? key = some value := by
  simp only [values, List.mem_map, get?_eq_some_iff]
  constructor
  · rintro ⟨⟨key, found⟩, hmem, rfl⟩
    exact ⟨key, hmem⟩
  · rintro ⟨key, hmem⟩
    exact ⟨_, hmem, rfl⟩

theorem mem_keys_put_iff : other ∈ (t.put key value).keys ↔ key = other ∨ other ∈ t.keys := by
  rw [keys_put]
  by_cases h : key ∈ t.keys
  · rw [if_pos h]
    constructor
    · exact .inr
    · rintro (rfl | hother)
      · exact h
      · exact hother
  · rw [if_neg h, List.mem_append, List.mem_singleton, or_comm, eq_comm]

theorem get?_put_cases (h : (t.put key value).get? other = some found) :
    key = other ∧ value = found ∨ t.get? other = some found := by
  rw [get?_put] at h
  split at h
  · next heq => exact .inl ⟨heq, Option.some.inj h⟩
  · exact .inr h

theorem mem_values_of_put (h : found ∈ (t.put key value).values) :
    found = value ∨ found ∈ t.values := by
  obtain ⟨other, hother⟩ := mem_values_iff.1 h
  rcases get?_put_cases hother with ⟨-, heq⟩ | hold
  · exact .inl heq.symm
  · exact .inr (mem_values_iff.2 ⟨other, hold⟩)

/-- Under a new key nothing is overwritten. -/
theorem mem_values_put_iff (hkey : key ∉ t.keys) :
    found ∈ (t.put key value).values ↔ found = value ∨ found ∈ t.values := by
  refine ⟨mem_values_of_put, ?_⟩
  rintro (rfl | hold)
  · exact mem_values_iff.2 ⟨key, by rw [get?_put, if_pos rfl]⟩
  · obtain ⟨other, hother⟩ := mem_values_iff.1 hold
    have hne : key ≠ other := by
      rintro rfl
      exact hkey ((mem_keys_iff _ _).2 ⟨found, hother⟩)
    exact mem_values_iff.2 ⟨other, by rw [get?_put, if_neg hne, hother]⟩

/-- A new key takes no other key's value away. -/
theorem get?_put_of_new (hkey : t.get? key = none) (h : t.get? other = some found) :
    (t.put key value).get? other = some found := by
  have hne : key ≠ other := by
    rintro rfl
    rw [hkey] at h
    cases h
  rw [get?_put, if_neg hne, h]

theorem putEntry_of_notMem {l : List (κ × α)} (h : key ∉ l.map Prod.fst) :
    putEntry key value l = l ++ [(key, value)] := by
  induction l with
  | nil => rfl
  | cons e rest ih =>
    rw [List.map_cons, List.mem_cons, not_or] at h
    rw [putEntry, if_neg (Ne.symm h.1), ih h.2, List.cons_append]

/-- A new key stands behind all others. -/
theorem entries_put_of_new (hkey : key ∉ t.keys) :
    (t.put key value).entries = t.entries ++ [(key, value)] := putEntry_of_notMem hkey

theorem values_put_of_new (hkey : key ∉ t.keys) :
    (t.put key value).values = t.values ++ [value] := by
  rw [values, entries_put_of_new hkey, List.map_append, values, List.map_singleton]

theorem putEntry_of_mem {l : List (κ × α)} (h : key ∈ l.map Prod.fst) (hnodup : (l.map Prod.fst).Nodup) :
    putEntry key value l = l.map fun e => if e.1 = key then (key, value) else e := by
  induction l with
  | nil => cases h
  | cons e rest ih =>
    obtain ⟨hfirst, hrest⟩ := List.nodup_cons.1 hnodup
    rw [putEntry, List.map_cons]
    by_cases he : e.1 = key
    · have hother : ∀ other ∈ rest, ¬other.1 = key := by
        intro other hmem heq
        exact hfirst (he ▸ heq ▸ List.mem_map_of_mem hmem)
      rw [if_pos he, if_pos he]
      have hsame : (rest.map fun e => if e.1 = key then (key, value) else e) = rest :=
        (List.map_congr_left fun other hmem => if_neg (hother other hmem)).trans (List.map_id _)
      rw [hsame]
    · have hmem : key ∈ rest.map Prod.fst := (List.mem_cons.1 h).resolve_left (Ne.symm he)
      rw [if_neg he, if_neg he, ih hmem hrest]

/-- Under a key that is there, its value is exchanged in its place. -/
theorem values_put_of_mem (hkey : key ∈ t.keys) {name : α → κ}
    (h : ∀ key value, t.get? key = some value → name value = key) :
    (t.put key value).values = t.values.map fun old => if name old = key then value else old := by
  have hentries : (t.put key value).entries =
      t.entries.map fun e => if e.1 = key then (key, value) else e :=
    putEntry_of_mem hkey t.nodup
  rw [values, hentries, values, List.map_map, List.map_map]
  refine List.map_congr_left fun e he => ?_
  have hname : name e.2 = e.1 := h e.1 e.2 ((get?_eq_some_iff _ _ _).2 he)
  simp only [Function.comp_apply, hname]
  split <;> rfl

/-- If the values bear the names of their keys, they are listed in the order of the keys. -/
theorem map_values_eq_keys {name : α → κ}
    (h : ∀ key value, t.get? key = some value → name value = key) :
    t.values.map name = t.keys := by
  rw [values, keys, List.map_map]
  exact List.map_congr_left fun e he => h e.1 e.2 ((get?_eq_some_iff _ _ _).2 he)

theorem get?_of_mem_values {name : α → κ}
    (h : ∀ key value, t.get? key = some value → name value = key) (hmem : value ∈ t.values) :
    t.get? (name value) = some value := by
  obtain ⟨key, hkey⟩ := mem_values_iff.1 hmem
  rw [h key value hkey, hkey]

theorem get?_foldl_put_cases {pairs : List (κ × α)}
    (h : (pairs.foldl (fun t e => t.put e.1 e.2) t).get? key = some value) :
    t.get? key = some value ∨ (key, value) ∈ pairs := by
  induction pairs generalizing t with
  | nil => exact .inl h
  | cons e rest ih =>
    rcases ih h with hput | hmem
    · rcases get?_put_cases hput with ⟨rfl, rfl⟩ | hold
      · exact .inr List.mem_cons_self
      · exact .inl hold
    · exact .inr (List.mem_cons_of_mem _ hmem)

theorem mem_of_get?_ofPairs {pairs : List (κ × α)} (h : (ofPairs pairs).get? key = some value) :
    (key, value) ∈ pairs :=
  (get?_foldl_put_cases h).resolve_left (by simp)

section Pairs

variable {pairs : List (κ × α)}

theorem ofPairs_concat (pairs : List (κ × α)) (e : κ × α) :
    ofPairs (pairs ++ [e]) = (ofPairs pairs).put e.1 e.2 := by
  rw [ofPairs, List.foldl_append]
  rfl

/-- With different keys, nothing is overwritten and each pair becomes an entry. -/
theorem entries_ofPairs (h : (pairs.map Prod.fst).Nodup) : (ofPairs pairs).entries = pairs := by
  induction pairs using List.reverseRecOn with
  | nil => rfl
  | append_singleton pairs e ih =>
    rw [List.map_append, List.nodup_append] at h
    obtain ⟨hpairs, -, hnew⟩ := h
    have hkey : e.1 ∉ (ofPairs pairs).entries.map Prod.fst := by
      rw [ih hpairs]
      exact fun hmem => hnew e.1 hmem e.1 (List.mem_singleton_self e.1) rfl
    rw [ofPairs_concat]
    exact (putEntry_of_notMem hkey).trans (by rw [ih hpairs])

theorem mem_keys_ofPairs_iff : key ∈ (ofPairs pairs).keys ↔ key ∈ pairs.map Prod.fst := by
  induction pairs using List.reverseRecOn with
  | nil => simp [ofPairs]
  | append_singleton pairs e ih =>
    rw [ofPairs_concat, mem_keys_put_iff, ih]
    simp [or_comm, eq_comm]

theorem size_ofPairs (pairs : List (κ × α)) :
    (ofPairs pairs).size = (pairs.map Prod.fst).toFinset.card := by
  rw [← length_keys, ← List.toFinset_card_of_nodup (ofPairs pairs).nodup_keys]
  congr 1
  ext key
  rw [List.mem_toFinset, List.mem_toFinset, mem_keys_ofPairs_iff]

section Renamed

variable {κ' : Type} [DecidableEq κ'] {f : κ → κ'} {P : κ → Prop}

/-- Under names that tell the keys apart, the same is found. -/
theorem get?_ofPairs_renamed (hinj : ∀ k m, P k → P m → (f k = f m ↔ k = m))
    (hpairs : ∀ e ∈ pairs, P e.1) (hkey : P key) :
    (ofPairs (pairs.map fun e => (f e.1, e.2))).get? (f key) = (ofPairs pairs).get? key := by
  induction pairs using List.reverseRecOn with
  | nil => rfl
  | append_singleton pairs e ih =>
    have he : P e.1 := hpairs e (by simp)
    have hrest := ih fun e' he' => hpairs e' (List.mem_append_left _ he')
    rw [List.map_append, List.map_singleton, ofPairs_concat, ofPairs_concat, get?_put, get?_put,
      hrest]
    simp only [hinj e.1 key he hkey]

theorem size_ofPairs_renamed (hinj : ∀ k m, P k → P m → (f k = f m ↔ k = m))
    (hpairs : ∀ e ∈ pairs, P e.1) :
    (ofPairs (pairs.map fun e => (f e.1, e.2))).size = (ofPairs pairs).size := by
  have hkeys : ((pairs.map fun e => (f e.1, e.2)).map Prod.fst).toFinset =
      (pairs.map Prod.fst).toFinset.image f := by
    ext name
    simp
  have hmem : ∀ k ∈ (pairs.map Prod.fst).toFinset, P k := by
    intro k hk
    obtain ⟨e, he, rfl⟩ := List.mem_map.1 (List.mem_toFinset.1 hk)
    exact hpairs e he
  rw [size_ofPairs, size_ofPairs, hkeys]
  exact Finset.card_image_of_injOn fun k hk m hm h => (hinj k m (hmem k hk) (hmem m hm)).1 h

end Renamed

/-- Tables in which the same is found have the same number of entries. -/
theorem size_congr {t' : Table κ α} (h : ∀ key, t.get? key = t'.get? key) : t.size = t'.size := by
  have hperm : t.keys.Perm t'.keys := by
    rw [List.perm_ext_iff_of_nodup t.nodup_keys t'.nodup_keys]
    intro key
    rw [mem_keys_iff, mem_keys_iff, h]
  rw [← length_keys, ← length_keys, hperm.length_eq]

end Pairs

/-- The same keys in the same order, with values that are changed alike. -/
def mapValues (f : α → β) (t : Table κ α) : Table κ β where
  entries := t.entries.map fun e => (e.1, f e.2)
  nodup := by
    rw [List.map_map]
    exact t.nodup

section MapValues

variable (f : α → β) (t : Table κ α)

theorem get?_mapValues (key : κ) : (t.mapValues f).get? key = (t.get? key).map f := by
  rw [get?, get?, mapValues, List.find?_map, Option.map_map, Option.map_map]
  rfl

theorem mapValues_put (key : κ) (value : α) :
    (t.put key value).mapValues f = (t.mapValues f).put key (f value) := by
  have hput : ∀ l : List (κ × α), (putEntry key value l).map (fun e => (e.1, f e.2)) =
      putEntry key (f value) (l.map fun e => (e.1, f e.2)) := by
    intro l
    induction l with
    | nil => rfl
    | cons e rest ih =>
      rw [putEntry, List.map_cons, putEntry]
      split
      · rfl
      · rw [List.map_cons, ih]
  exact Table.ext (hput t.entries)

theorem mapValues_ofPairs (pairs : List (κ × α)) :
    (ofPairs pairs).mapValues f = ofPairs (pairs.map fun e => (e.1, f e.2)) := by
  rw [ofPairs, ofPairs, List.foldl_map]
  exact (List.foldl_hom (mapValues f) fun t e => (mapValues_put f t e.1 e.2).symm).symm

/-- A table is told by its values if they bear the names of their keys. -/
theorem ofPairs_values {name : α → κ} (h : ∀ key value, t.get? key = some value → name value = key) :
    ofPairs (t.values.map fun value => (name value, f value)) = t.mapValues f := by
  have hentries : (t.values.map fun value => (name value, f value)) =
      t.entries.map fun e => (e.1, f e.2) := by
    rw [values, List.map_map]
    refine List.map_congr_left fun e he => ?_
    rw [Function.comp_apply, h e.1 e.2 ((get?_eq_some_iff _ _ _).2 he)]
  rw [hentries]
  exact Table.ext (entries_ofPairs (t.mapValues f).nodup)

end MapValues

end VoxelQuery.Table
