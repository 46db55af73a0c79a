import Mathlib.Data.List.Forall2

/-! When a computation that can fail succeeds: all of its steps do, in their order. If it fails, then
with the error of the first step that does. -/
namespace VoxelQuery

variable {ε α β γ : Type}

theorem map_eq_ok_iff {f : α → β} {x : Except ε α} {b : β} :
    x.map f = .ok b ↔ ∃ a, x = .ok a ∧ f a = b := by
  cases x with
  | error e => simp [Except.map]
  | ok a => simp [Except.map]

theorem map_eq_error_iff {f : α → β} {x : Except ε α} {e : ε} :
    x.map f = .error e ↔ x = .error e := by
  cases x with
  | error e' => simp [Except.map]
  | ok a => simp [Except.map]

theorem bind_eq_ok_iff {x : Except ε α} {f : α → Except ε β} {b : β} :
    x >>= f = .ok b ↔ ∃ a, x = .ok a ∧ f a = .ok b := by
  cases x with
  | error e => simp [bind, Except.bind]
  | ok a => simp [bind, Except.bind]

theorem bind_eq_error_iff {x : Except ε α} {f : α → Except ε β} {e : ε} :
    x >>= f = .error e ↔ x = .error e ∨ ∃ a, x = .ok a ∧ f a = .error e := by
  cases x with
  | error e' => simp [bind, Except.bind]
  | ok a => simp [bind, Except.bind]

theorem mapM_eq_ok_iff {f : α → Except ε β} {l : List α} {results : List β} :
    l.mapM f = .ok results ↔ List.Forall₂ (fun a b => f a = .ok b) l results := by
  induction l generalizing results with
  | nil =>
    rw [List.mapM_nil, List.forall₂_nil_left_iff]
    exact ⟨fun h => (Except.ok.inj h).symm, fun h => h ▸ rfl⟩
  | cons a rest ih =>
    rw [List.mapM_cons, bind_eq_ok_iff, List.forall₂_cons_left_iff]
    constructor
    · rintro ⟨b, hb, h⟩
      obtain ⟨more, hmore, hresults⟩ := bind_eq_ok_iff.1 h
      exact ⟨b, more, hb, ih.1 hmore, (Except.ok.inj hresults).symm⟩
    · rintro ⟨b, more, hb, hmore, rfl⟩
      exact ⟨b, hb, bind_eq_ok_iff.2 ⟨more, ih.2 hmore, rfl⟩⟩

/-- The error is that of the first step that fails. -/
theorem exists_of_mapM_eq_error {f : α → Except ε β} {l : List α} {e : ε} (h : l.mapM f = .error e) :
    ∃ before a behind, l = before ++ a :: behind ∧ (∀ b ∈ before, ∃ r, f b = .ok r) ∧
      f a = .error e := by
  induction l with
  | nil => cases h
  | cons first rest ih =>
    rw [List.mapM_cons] at h
    cases hfirst : f first with
    | error e' =>
      rw [hfirst] at h
      cases h
      exact ⟨[], first, rest, rfl, by simp, hfirst⟩
    | ok r =>
      cases hrest : rest.mapM f with
      | ok results =>
        rw [hfirst, hrest] at h
        cases h
      | error e' =>
        rw [hfirst, hrest] at h
        cases h
        obtain ⟨before, a, behind, rfl, hbefore, ha⟩ := ih hrest
        exact ⟨first :: before, a, behind, rfl, List.forall_mem_cons.2 ⟨⟨r, hfirst⟩, hbefore⟩, ha⟩

theorem mapM_append_of_ok {f : α → Except ε β} {l : List α} {results : List β}
    (h : l.mapM f = .ok results) (more : List α) :
    (l ++ more).mapM f = (more.mapM f).map (results ++ ·) := by
  rw [List.mapM_append, h]
  cases hmore : more.mapM f <;> rfl

theorem mapM_append_of_error {f : α → Except ε β} {l : List α} {e : ε}
    (h : l.mapM f = .error e) (more : List α) : (l ++ more).mapM f = .error e := by
  rw [List.mapM_append, h]
  rfl

theorem forall₂_comp_iff {R : α → β → Prop} {S : β → γ → Prop} {l : List α} {n : List γ} :
    List.Forall₂ (fun a c => ∃ b, R a b ∧ S b c) l n ↔
      ∃ m, List.Forall₂ R l m ∧ List.Forall₂ S m n := by
  constructor
  · intro h
    induction h with
    | nil => exact ⟨[], .nil, .nil⟩
    | cons hac _ ih =>
      obtain ⟨b, hab, hbc⟩ := hac
      obtain ⟨m, hl, hn⟩ := ih
      exact ⟨b :: m, .cons hab hl, .cons hbc hn⟩
  · rintro ⟨m, hl, hn⟩
    induction hl generalizing n with
    | nil =>
      cases hn
      exact .nil
    | cons hab _ ih =>
      cases hn with
      | cons hbc hrest => exact .cons ⟨_, hab, hbc⟩ (ih hrest)

theorem forall_exists_iff_forall₂ {R : α → β → Prop} {l : List α} :
    (∀ a ∈ l, ∃ b, R a b) ↔ ∃ m, List.Forall₂ R l m := by
  induction l with
  | nil => simp
  | cons a rest ih =>
    rw [List.forall_mem_cons, ih]
    constructor
    · rintro ⟨⟨b, hb⟩, m, hm⟩
      exact ⟨b :: m, .cons hb hm⟩
    · rintro ⟨m, hm⟩
      obtain ⟨b, more, hb, hmore, rfl⟩ := List.forall₂_cons_left_iff.1 hm
      exact ⟨⟨b, hb⟩, more, hmore⟩

theorem exists_forall₂_of_forall₂ {R S : α → β → Prop} {T : β → β → Prop} {l : List α} {m : List β}
    (h : List.Forall₂ R l m) (hstep : ∀ a ∈ l, ∀ b, R a b → ∃ b', S a b' ∧ T b b') :
    ∃ m', List.Forall₂ S l m' ∧ List.Forall₂ T m m' := by
  induction h with
  | nil => exact ⟨[], .nil, .nil⟩
  | cons hab _ ih =>
    obtain ⟨hfirst, hrest⟩ := List.forall_mem_cons.1 hstep
    obtain ⟨b', hb', hT⟩ := hfirst _ hab
    obtain ⟨m', hm', hT'⟩ := ih hrest
    exact ⟨b' :: m', .cons hb' hm', .cons hT hT'⟩

theorem exists_of_forall₂ {R : α → β → Prop} {l : List α} {m : List β} (h : List.Forall₂ R l m)
    {b : β} (hb : b ∈ m) : ∃ a ∈ l, R a b := by
  induction h with
  | nil => cases hb
  | cons hab _ ih =>
    rcases List.mem_cons.1 hb with rfl | hrest
    · exact ⟨_, List.mem_cons_self, hab⟩
    · obtain ⟨a, ha, hR⟩ := ih hrest
      exact ⟨a, List.mem_cons_of_mem _ ha, hR⟩

theorem exists_append_of_forall₂ {R : α → β → Prop} {l k : List α} {m : List β}
    (h : List.Forall₂ R (l ++ k) m) :
    ∃ first second, m = first ++ second ∧ List.Forall₂ R l first ∧ List.Forall₂ R k second := by
  induction l generalizing m with
  | nil => exact ⟨[], m, rfl, .nil, h⟩
  | cons a rest ih =>
    obtain ⟨b, more, hb, hmore, rfl⟩ := List.forall₂_cons_left_iff.1 h
    obtain ⟨first, second, rfl, hfirst, hsecond⟩ := ih hmore
    exact ⟨b :: first, second, rfl, .cons hb hfirst, hsecond⟩

theorem forall₂_and_right_iff {R : α → β → Prop} {P : β → Prop} {l : List α} {m : List β} :
    List.Forall₂ (fun a b => R a b ∧ P b) l m ↔ List.Forall₂ R l m ∧ ∀ b ∈ m, P b := by
  constructor
  · intro h
    induction h with
    | nil => simp
    | cons hab _ ih => exact ⟨.cons hab.1 ih.1, List.forall_mem_cons.2 ⟨hab.2, ih.2⟩⟩
  · rintro ⟨h, hall⟩
    induction h with
    | nil => exact .nil
    | cons hab _ ih =>
      obtain ⟨hb, hrest⟩ := List.forall_mem_cons.1 hall
      exact .cons ⟨hab, hb⟩ (ih hrest)

theorem forall₂_eq_map_iff {f : α → β} {l : List α} {m : List β} :
    List.Forall₂ (fun a b => b = f a) l m ↔ m = l.map f := by
  induction l generalizing m with
  | nil => rw [List.forall₂_nil_left_iff, List.map_nil]
  | cons a rest ih =>
    rw [List.forall₂_cons_left_iff, List.map_cons]
    simp [ih]

end VoxelQuery
