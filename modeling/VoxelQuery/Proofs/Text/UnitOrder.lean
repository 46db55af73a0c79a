import VoxelQuery.Text.Units

/-! The order of texts by their code units is linear, since no two texts have the same units. -/
namespace VoxelQuery.Text

/-- Where two texts have the same units, they begin with the same character. -/
theorem codeUnits_append_inj {c d : Char} {units other : List Nat}
    (h : codeUnits c ++ units = codeUnits d ++ other) : c = d ∧ units = other := by
  have hc := c.valid
  have hd := d.valid
  have hnat : ∀ x : Char, x.val.toNat = x.toNat := fun _ => rfl
  simp only [UInt32.isValidChar, Nat.isValidChar, hnat] at hc hd
  unfold codeUnits at h
  split at h
  · split at h
    · simp only [List.singleton_append, List.cons.injEq] at h
      exact ⟨Char.toNat_inj.1 h.1, h.2⟩
    -- A single unit is no half of a pair.
    · simp only [List.cons_append, List.nil_append, List.cons.injEq] at h
      omega
  · split at h
    · simp only [List.cons_append, List.nil_append, List.cons.injEq] at h
      omega
    · simp only [List.cons_append, List.nil_append, List.cons.injEq] at h
      exact ⟨Char.toNat_inj.1 (by omega), h.2.2⟩

theorem codeUnits_ne_nil (c : Char) : codeUnits c ≠ [] := by
  unfold codeUnits
  split <;> simp

theorem flatMap_codeUnits_inj {text other : List Char}
    (h : text.flatMap codeUnits = other.flatMap codeUnits) : text = other := by
  induction text generalizing other with
  | nil =>
    cases other with
    | nil => rfl
    | cons d rest => simp [codeUnits_ne_nil] at h
  | cons c rest ih =>
    cases other with
    | nil => simp [codeUnits_ne_nil] at h
    | cons d more =>
      rw [List.flatMap_cons, List.flatMap_cons] at h
      obtain ⟨rfl, hrest⟩ := codeUnits_append_inj h
      rw [ih hrest]

variable {a b c : String}

theorem unitsLe_trans (hab : unitsLe a b = true) (hbc : unitsLe b c = true) :
    unitsLe a c = true := by
  simp only [unitsLe, decide_eq_true_eq] at *
  exact List.le_trans hab hbc

theorem unitsLe_total (a b : String) : (unitsLe a b || unitsLe b a) = true := by
  simp only [unitsLe, Bool.or_eq_true, decide_eq_true_eq]
  exact List.le_total _ _

theorem unitsLe_antisymm (hab : unitsLe a b = true) (hba : unitsLe b a = true) : a = b := by
  simp only [unitsLe, decide_eq_true_eq] at hab hba
  exact String.toList_inj.1 (flatMap_codeUnits_inj (List.le_antisymm hab hba))

/-- The first text comes before the second one. -/
def UnitsLt (a b : String) : Prop := a.toList.flatMap codeUnits < b.toList.flatMap codeUnits

theorem unitsLt_of_unitsLe_of_ne (hab : unitsLe a b = true) (hne : a ≠ b) : UnitsLt a b := by
  refine Classical.byContradiction fun hlt => ?_
  have hba : unitsLe b a = true := by simpa [unitsLe, UnitsLt] using hlt
  exact hne (unitsLe_antisymm hab hba)

end VoxelQuery.Text
