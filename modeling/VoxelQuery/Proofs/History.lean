import Mathlib.Data.List.Induction
import VoxelQuery.Predicate.Basic
import VoxelQuery.Proofs.Table

/-! Histories: what the steps of a run give, in their order. A table that the steps write one entry
after the other has its keys in the order of their first writing, and under each key what the
history gives for it last. -/
namespace VoxelQuery

section Trace

variable {σ ι α ω : Type}

/-- What the steps of a run give. Some steps give nothing. -/
def trace (step : σ → ι → σ) (out : σ → ι → Option α) (s : σ) : List ι → List α
  | [] => []
  | i :: rest => (out s i).toList ++ trace step out (step s i) rest

/-- If each step does to a view of the state what it gives, then the run does what the trace says. -/
theorem foldl_eq_foldl_trace {step : σ → ι → σ} {out : σ → ι → Option α} (view : σ → ω)
    (write : ω → α → ω) {Keeps : σ → Prop} (hkeeps : ∀ s i, Keeps s → Keeps (step s i))
    (hwrite : ∀ s i, Keeps s → view (step s i) = (out s i).elim (view s) (write (view s)))
    {s : σ} (hs : Keeps s) (steps : List ι) :
    view (steps.foldl step s) = (trace step out s steps).foldl write (view s) := by
  induction steps generalizing s with
  | nil => rfl
  | cons i rest ih =>
    rw [List.foldl_cons, ih (hkeeps s i hs), hwrite s i hs, trace, List.foldl_append]
    cases out s i <;> rfl

theorem trace_append (step : σ → ι → σ) (out : σ → ι → Option α) (s : σ) (first rest : List ι) :
    trace step out s (first ++ rest) =
      trace step out s first ++ trace step out (first.foldl step s) rest := by
  induction first generalizing s with
  | nil => rfl
  | cons i first ih => rw [List.cons_append, trace, trace, ih, List.append_assoc, List.foldl_cons]

theorem foldl_append_toList (f : α → Option ω) (l : List α) (start : List ω) :
    l.foldl (fun found a => found ++ (f a).toList) start = start ++ l.filterMap f := by
  induction l generalizing start with
  | nil => simp
  | cons a rest ih =>
    rw [List.foldl_cons, ih, List.filterMap_cons]
    cases f a <;> simp

end Trace

section Last

variable {α β κ : Type} {key : α → κ} {l : List α} {a b : α}

/-- Nothing behind it in the list has its key. -/
def IsLast (key : α → κ) (l : List α) (a : α) : Prop :=
  ∃ before behind, l = before ++ a :: behind ∧ ∀ b ∈ behind, key b ≠ key a

/-- Nothing in front of it in the list has its key. -/
def IsFirst (key : α → κ) (l : List α) (a : α) : Prop :=
  ∃ before behind, l = before ++ a :: behind ∧ ∀ b ∈ before, key b ≠ key a

theorem IsLast.mem (h : IsLast key l a) : a ∈ l := by
  obtain ⟨before, behind, rfl, -⟩ := h
  simp

theorem isLast_cons_iff :
    IsLast key (b :: l) a ↔ IsLast key l a ∨ a = b ∧ ∀ c ∈ l, key c ≠ key a := by
  constructor
  · rintro ⟨before, behind, heq, hbehind⟩
    cases before with
    | nil =>
      obtain ⟨rfl, rfl⟩ := List.cons.inj heq
      exact .inr ⟨rfl, hbehind⟩
    | cons c before =>
      obtain ⟨rfl, rfl⟩ := List.cons.inj heq
      exact .inl ⟨before, behind, rfl, hbehind⟩
  · rintro (⟨before, behind, rfl, hbehind⟩ | ⟨rfl, hbehind⟩)
    · exact ⟨b :: before, behind, rfl, hbehind⟩
    · exact ⟨[], l, rfl, hbehind⟩

theorem isFirst_cons_iff :
    IsFirst key (b :: l) a ↔ a = b ∨ IsFirst key l a ∧ key b ≠ key a := by
  constructor
  · rintro ⟨before, behind, heq, hbefore⟩
    cases before with
    | nil => exact .inl (List.cons.inj heq).1.symm
    | cons c before =>
      obtain ⟨rfl, rfl⟩ := List.cons.inj heq
      obtain ⟨hb, hrest⟩ := List.forall_mem_cons.1 hbefore
      exact .inr ⟨⟨before, behind, rfl, hrest⟩, hb⟩
  · rintro (rfl | ⟨⟨before, behind, rfl, hbefore⟩, hb⟩)
    · exact ⟨[], l, rfl, by simp⟩
    · exact ⟨b :: before, behind, rfl, List.forall_mem_cons.2 ⟨hb, hbefore⟩⟩

theorem isLast_concat_iff :
    IsLast key (l ++ [b]) a ↔ a = b ∨ IsLast key l a ∧ key b ≠ key a := by
  constructor
  · rintro ⟨before, behind, heq, hbehind⟩
    rcases List.eq_nil_or_concat behind with rfl | ⟨behind, last, rfl⟩
    · exact .inl (List.singleton_inj.1 (List.append_inj' heq rfl).2).symm
    · rw [List.concat_eq_append, ← List.cons_append, ← List.append_assoc] at heq
      obtain ⟨rfl, hlast⟩ := List.append_inj' heq rfl
      obtain rfl := List.singleton_inj.1 hlast
      simp only [List.concat_eq_append, List.forall_mem_append, List.forall_mem_singleton] at hbehind
      exact .inr ⟨⟨before, behind, rfl, hbehind.1⟩, hbehind.2⟩
  · rintro (rfl | ⟨⟨before, behind, rfl, hbehind⟩, hb⟩)
    · exact ⟨l, [], rfl, by simp⟩
    · refine ⟨before, behind ++ [b], by simp, ?_⟩
      rw [List.forall_mem_append, List.forall_mem_singleton]
      exact ⟨hbehind, hb⟩

theorem IsLast.unique (ha : IsLast key l a) (hb : IsLast key l b) (hkey : key a = key b) :
    a = b := by
  induction l with
  | nil => cases ha.mem
  | cons c rest ih =>
    rcases isLast_cons_iff.1 ha with hrest | ⟨rfl, hnone⟩
    · rcases isLast_cons_iff.1 hb with hrest' | ⟨rfl, hnone'⟩
      · exact ih hrest hrest'
      · exact absurd hkey (hnone' a hrest.mem)
    · rcases isLast_cons_iff.1 hb with hrest' | ⟨rfl, -⟩
      · exact absurd hkey.symm (hnone b hrest'.mem)
      · rfl

theorem exists_isLast {k : κ} (h : ∃ a ∈ l, key a = k) : ∃ a, IsLast key l a ∧ key a = k := by
  induction l with
  | nil => simp at h
  | cons b rest ih =>
    by_cases hrest : ∃ a ∈ rest, key a = k
    · obtain ⟨a, ha, hkey⟩ := ih hrest
      exact ⟨a, isLast_cons_iff.2 (.inl ha), hkey⟩
    · obtain ⟨a, ha, hkey⟩ := h
      obtain rfl : a = b := (List.mem_cons.1 ha).resolve_right fun hmem => hrest ⟨a, hmem, hkey⟩
      exact ⟨a, isLast_cons_iff.2 (.inr ⟨rfl, fun c hc heq => hrest ⟨c, hc, heq.trans hkey⟩⟩), hkey⟩

/-- What is last stays last among those that something is made of. -/
theorem IsLast.filterMap {f : α → Option β} {key' : β → κ} {v : β} (h : IsLast key l a)
    (ha : f a = some v) (hkey : ∀ x y, f x = some y → key' y = key x) :
    IsLast key' (l.filterMap f) v := by
  obtain ⟨before, behind, rfl, hbehind⟩ := h
  refine ⟨before.filterMap f, behind.filterMap f, ?_, fun y hy => ?_⟩
  · rw [List.filterMap_append, List.filterMap_cons_some ha]
  · obtain ⟨x, hx, hy⟩ := List.mem_filterMap.1 hy
    rw [hkey x y hy, hkey a v ha]
    exact hbehind x hx

/-- What is last of its key is so among the entries of that key. -/
theorem isLast_filter_iff [DecidableEq κ] {k : κ} (hk : key a = k) :
    IsLast key (l.filter fun b => decide (key b = k)) a ↔ IsLast key l a := by
  subst hk
  induction l with
  | nil => simp
  | cons b rest ih =>
    by_cases hb : key b = key a
    · rw [List.filter_cons_of_pos (by simpa using hb), isLast_cons_iff, isLast_cons_iff, ih]
      simp only [List.mem_filter, decide_eq_true_eq, and_imp]
      refine or_congr_right (and_congr_right fun _ => ?_)
      exact ⟨fun h c hc heq => h c hc heq heq, fun h c hc _ => h c hc⟩
    · have hne : a ≠ b := by
        rintro rfl
        exact hb rfl
      rw [List.filter_cons_of_neg (by simpa using hb), isLast_cons_iff, ih]
      simp [hne]

theorem eq_of_perm_of_length_le_one {l l' : List α} (h : l.Perm l') (hlength : l'.length ≤ 1) :
    l = l' := by
  match l' with
  | [] => exact List.perm_nil.1 h
  | [a] => exact List.perm_singleton.1 h
  | a :: b :: rest => simp at hlength

/-- Entries that differ in a key which they all share: there is at most one of them. -/
theorem length_le_one_of_nodup (hnodup : (l.map key).Nodup) {k : κ} (h : ∀ a ∈ l, key a = k) :
    l.length ≤ 1 := by
  have hreplicate : l.map key = List.replicate l.length k := by
    rw [List.eq_replicate_iff]
    exact ⟨List.length_map _, List.forall_mem_map.2 h⟩
  rw [hreplicate] at hnodup
  exact List.nodup_replicate.1 hnodup

section Rearranged

variable [DecidableEq κ] {l' : List α}

/-- Entries may change places, but those of one key keep their order. -/
def Rearranged (key : α → κ) (l l' : List α) : Prop :=
  ∀ k, (l.filter fun a => decide (key a = k)) = l'.filter fun a => decide (key a = k)

theorem Rearranged.isLast_iff (h : Rearranged key l l') : IsLast key l a ↔ IsLast key l' a := by
  rw [← isLast_filter_iff rfl, h, isLast_filter_iff rfl]

/-- With different keys there is no order to keep. -/
theorem rearranged_of_perm (hperm : l.Perm l') (hnodup : (l.map key).Nodup) :
    Rearranged key l l' := by
  intro k
  have hnodup' : (l'.map key).Nodup := (hperm.map _).nodup_iff.1 hnodup
  have hone : (l'.filter fun a => decide (key a = k)).length ≤ 1 :=
    length_le_one_of_nodup (hnodup'.sublist (List.filter_sublist.map _)) (k := k) (by simp)
  exact eq_of_perm_of_length_le_one (hperm.filter _) hone

theorem Rearranged.filterMap {f : α → Option β} {key' : β → κ} (h : Rearranged key l l')
    (hkey : ∀ x y, f x = some y → key' y = key x) :
    Rearranged key' (l.filterMap f) (l'.filterMap f) := by
  have hfilter : ∀ (l : List α) k, ((l.filterMap f).filter fun b => decide (key' b = k)) =
      (l.filter fun a => decide (key a = k)).filterMap f := by
    intro l k
    induction l with
    | nil => rfl
    | cons a rest ih =>
      cases hf : f a with
      | none => by_cases hk : key a = k <;> simp [hf, hk, ih]
      | some b => by_cases hk : key a = k <;> simp [hf, hk, hkey a b hf, ih]
  intro k
  rw [hfilter, hfilter, h k]

theorem Rearranged.append {before behind : List α} (h : Rearranged key l l') :
    Rearranged key (before ++ l ++ behind) (before ++ l' ++ behind) := by
  intro k
  rw [List.filter_append, List.filter_append, h k, List.filter_append, List.filter_append]

end Rearranged

theorem isLast_map_iff {f : α → β} {key : β → κ} {b : β} :
    IsLast key (l.map f) b ↔ ∃ a, IsLast (fun a => key (f a)) l a ∧ f a = b := by
  induction l with
  | nil =>
    constructor
    · intro h
      cases h.mem
    · rintro ⟨a, h, -⟩
      cases h.mem
  | cons c rest ih =>
    rw [List.map_cons, isLast_cons_iff, ih]
    constructor
    · rintro (⟨a, ha, rfl⟩ | ⟨rfl, hnone⟩)
      · exact ⟨a, isLast_cons_iff.2 (.inl ha), rfl⟩
      · exact ⟨c, isLast_cons_iff.2 (.inr ⟨rfl, fun d hd => hnone (f d) (List.mem_map_of_mem hd)⟩), rfl⟩
    · rintro ⟨a, ha, rfl⟩
      rcases isLast_cons_iff.1 ha with hrest | ⟨rfl, hnone⟩
      · exact .inl ⟨a, hrest, rfl⟩
      · refine .inr ⟨rfl, fun d hd => ?_⟩
        obtain ⟨c, hc, rfl⟩ := List.mem_map.1 hd
        exact hnone c hc

end Last

namespace Predicate

theorem distinct_concat (values : List String) (value : String) :
    distinct (values ++ [value]) =
      if value ∈ values then distinct values else distinct values ++ [value] := by
  induction values with
  | nil => rfl
  | cons first rest ih =>
    rw [List.cons_append, distinct, ih]
    by_cases hrest : value ∈ rest
    · rw [if_pos hrest, if_pos (List.mem_cons_of_mem _ hrest), distinct]
    · rw [if_neg hrest, List.filter_append]
      by_cases hfirst : value = first
      · simp [hfirst, distinct]
      · simp [hfirst, hrest, distinct]

theorem distinct_of_nodup {values : List String} (h : values.Nodup) : distinct values = values := by
  induction values with
  | nil => rfl
  | cons first rest ih =>
    obtain ⟨hfirst, hrest⟩ := List.nodup_cons.1 h
    rw [distinct, ih hrest, List.filter_eq_self.2]
    intro value hvalue
    simpa using fun heq : value = first => hfirst (heq ▸ hvalue)

end Predicate

namespace Table

variable {α β : Type}

/-- Whatever is written, a run of writes leaves each key at the place of its first writing. -/
theorem keys_foldl_put (key : α → String) (value : Table String β → α → β) (t : Table String β)
    (l : List α) :
    (l.foldl (fun t a => t.put (key a) (value t a)) t).keys =
      Predicate.distinct (t.keys ++ l.map key) := by
  induction l using List.reverseRecOn with
  | nil => rw [List.map_nil, List.append_nil, Predicate.distinct_of_nodup t.nodup_keys, List.foldl_nil]
  | append_singleton l a ih =>
    rw [List.foldl_append, List.foldl_cons, List.foldl_nil, keys_put, ih, List.map_append,
      List.map_singleton, ← List.append_assoc, Predicate.distinct_concat]
    simp only [Predicate.mem_distinct]

/-- What was written last under a key is there, and what was there before under any other key. -/
theorem get?_foldl_put_iff {κ : Type} [DecidableEq κ] {key : α → κ} (value : α → β) {t : Table κ β}
    {l : List α} {k : κ} {v : β} :
    (l.foldl (fun t a => t.put (key a) (value a)) t).get? k = some v ↔
      (∃ a, IsLast key l a ∧ key a = k ∧ value a = v) ∨
        (∀ a ∈ l, key a ≠ k) ∧ t.get? k = some v := by
  induction l generalizing t with
  | nil =>
    have hnone : ∀ a, ¬IsLast key ([] : List α) a := fun a h => by cases h.mem
    simp [hnone]
  | cons b rest ih =>
    rw [List.foldl_cons, ih]
    constructor
    · rintro (⟨a, ha, hkey, hvalue⟩ | ⟨hnone, hget⟩)
      · exact .inl ⟨a, isLast_cons_iff.2 (.inl ha), hkey, hvalue⟩
      · rw [get?_put] at hget
        split at hget
        · next hkey =>
          have hlast : IsLast key (b :: rest) b :=
            isLast_cons_iff.2 (.inr ⟨rfl, fun c hc => hkey ▸ hnone c hc⟩)
          exact .inl ⟨b, hlast, hkey, Option.some.inj hget⟩
        · next hkey => exact .inr ⟨List.forall_mem_cons.2 ⟨hkey, hnone⟩, hget⟩
    · rintro (⟨a, ha, hkey, hvalue⟩ | ⟨hnone, hget⟩)
      · rcases isLast_cons_iff.1 ha with hrest | ⟨rfl, hnone⟩
        · exact .inl ⟨a, hrest, hkey, hvalue⟩
        · exact .inr ⟨fun c hc => hkey ▸ hnone c hc, by rw [get?_put, if_pos hkey, hvalue]⟩
      · obtain ⟨hb, hrest⟩ := List.forall_mem_cons.1 hnone
        exact .inr ⟨hrest, by rw [get?_put, if_neg hb, hget]⟩

theorem get?_ofPairs_iff {κ : Type} [DecidableEq κ] {pairs : List (κ × β)} {k : κ} {v : β} :
    (ofPairs pairs).get? k = some v ↔ IsLast Prod.fst pairs (k, v) := by
  rw [ofPairs, get?_foldl_put_iff Prod.snd]
  simp

end Table

end VoxelQuery
