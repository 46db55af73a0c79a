import VoxelQuery.Proofs.Success

/-! Checks that stop. A computation that checks its input as it goes ends with the first of all
faults that the input has. What is wrong with an entry of a list depends on the entries in front of
it. -/
namespace VoxelQuery

variable {ε ε' σ τ α : Type}

/-- The first of the faults as the error or, if there are none, a result with the property. -/
def Reports (faults : List ε) (P : σ → Prop) : Except ε σ → Prop
  | .ok s => faults = [] ∧ P s
  | .error e => faults.head? = some e

section Reports

variable {faults more : List ε} {P : σ → Prop} {Q : τ → Prop} {x : Except ε σ}

theorem reports_ok {s : σ} (h : P s) : Reports ([] : List ε) P (.ok s) := ⟨rfl, h⟩

theorem Reports.bind {f : σ → Except ε τ} (h : Reports faults P x)
    (hf : ∀ s, P s → Reports more Q (f s)) : Reports (faults ++ more) Q (x >>= f) := by
  cases x with
  | ok s =>
    obtain ⟨rfl, hs⟩ := h
    exact hf s hs
  | error e =>
    have he : faults.head? = some e := h
    show (faults ++ more).head? = some e
    rw [List.head?_append, he]
    rfl

theorem Reports.mapError (h : Reports faults P x) (f : ε → ε') :
    Reports (faults.map f) P (x.mapError f) := by
  cases x with
  | ok s => exact ⟨List.map_eq_nil_iff.2 h.1, h.2⟩
  | error e =>
    have he : faults.head? = some e := h
    show (faults.map f).head? = some (f e)
    rw [List.head?_map, he]
    rfl

theorem Reports.exists_ok_iff (h : Reports faults P x) : (∃ s, x = .ok s) ↔ faults = [] := by
  cases x with
  | ok s => simp [h.1]
  | error e =>
    have he : faults.head? = some e := h
    simp only [reduceCtorEq, exists_false, false_iff]
    rintro rfl
    cases he

theorem Reports.error_iff (h : Reports faults P x) {e : ε} :
    x = .error e ↔ faults.head? = some e := by
  cases x with
  | ok s => simp [h.1]
  | error e' =>
    have he : faults.head? = some e' := h
    simp [he]

end Reports

/-- The faults of the entries of a list, given the entries in front of it. -/
def faultsAlong (faults : List α → α → List ε) : List α → List α → List ε
  | _, [] => []
  | before, a :: rest => faults before a ++ faultsAlong faults (before ++ [a]) rest

section Along

variable {faults : List α → α → List ε} {step : σ → α → Except ε σ} {I : List α → σ → Prop}

/-- If each step reports what is wrong with its entry, then the loop reports what is wrong along the
list. -/
theorem reports_foldlM
    (hstep : ∀ before a s, I before s →
      Reports (faults before a) (I (before ++ [a])) (step s a))
    {before : List α} {s : σ} (hs : I before s) (l : List α) :
    Reports (faultsAlong faults before l) (I (before ++ l)) (l.foldlM step s) := by
  induction l generalizing before s with
  | nil =>
    rw [List.append_nil]
    exact reports_ok hs
  | cons a rest ih =>
    rw [faultsAlong, List.foldlM_cons, List.append_cons before a rest]
    exact (hstep before a s hs).bind fun next hnext => ih hnext

theorem faultsAlong_eq_nil_iff {start l : List α} :
    faultsAlong faults start l = [] ↔
      ∀ before a behind, l = before ++ a :: behind → faults (start ++ before) a = [] := by
  induction l generalizing start with
  | nil => simp [faultsAlong]
  | cons first rest ih =>
    rw [faultsAlong, List.append_eq_nil_iff, ih]
    constructor
    · rintro ⟨hfirst, hrest⟩ before a behind heq
      cases before with
      | nil =>
        obtain ⟨rfl, -⟩ := List.cons.inj heq
        rwa [List.append_nil]
      | cons b before =>
        obtain ⟨rfl, rfl⟩ := List.cons.inj heq
        rw [List.append_cons]
        exact hrest before a behind rfl
    · intro h
      refine ⟨?_, ?_⟩
      · have hfirst := h [] first rest rfl
        rwa [List.append_nil] at hfirst
      · rintro before a behind rfl
        have hrest := h (first :: before) a behind rfl
        rwa [List.append_cons] at hrest

/-- Faults that do not depend on what is in front. -/
theorem faultsAlong_const (faults : α → List ε) (before l : List α) :
    faultsAlong (fun _ a => faults a) before l = l.flatMap faults := by
  induction l generalizing before with
  | nil => rfl
  | cons a rest ih => rw [faultsAlong, ih, List.flatMap_cons]

end Along

/-- Keys are different if none of them is in front of itself. -/
theorem nodup_map_iff {κ : Type} {key : α → κ} {l : List α} :
    (l.map key).Nodup ↔ ∀ before a behind, l = before ++ a :: behind → key a ∉ before.map key := by
  constructor
  · rintro h before a behind rfl hmem
    rw [List.map_append, List.map_cons] at h
    exact (List.nodup_append.1 h).2.2 _ hmem _ List.mem_cons_self rfl
  · intro h
    induction l with
    | nil => exact .nil
    | cons first rest ih =>
      refine List.nodup_cons.2 ⟨fun hmem => ?_, ih fun before a behind heq hmem => ?_⟩
      · obtain ⟨a, ha, hkey⟩ := List.mem_map.1 hmem
        obtain ⟨before, behind, rfl⟩ := List.append_of_mem ha
        refine h (first :: before) a behind rfl ?_
        rw [hkey]
        exact List.mem_cons_self
      · exact h (first :: before) a behind (by rw [heq]; rfl) (List.mem_cons_of_mem _ hmem)

end VoxelQuery
