import VoxelQuery.Schema.Basic

/-! Documents that fit a schema. A document has no issues if and only if its values are of the right
kinds, keep the rules of texts and numbers, and have all the fields that are required. -/
namespace VoxelQuery

/-- What a field holds has a property, and if the field is required it is there. -/
structure Json.FieldHolds (value : Json) (name : String) (required : Bool) (P : Json → Prop) :
    Prop where
  present : required = true → ∃ found, value.field? name = some found
  holds : ∀ found, value.field? name = some found → P found

namespace Json

variable {value found : Json} {name : String} {required : Bool} {P : Json → Prop}

theorem FieldHolds.of_field? (hfound : value.field? name = some found) (h : P found) :
    value.FieldHolds name required P := by
  refine ⟨fun _ => ⟨found, hfound⟩, fun other hother => ?_⟩
  rwa [← Option.some.inj (hfound.symm.trans hother)]

theorem FieldHolds.of_none (hnone : value.field? name = none) : value.FieldHolds name false P where
  present := nofun
  holds found hfound := by cases hnone.symm.trans hfound

theorem FieldHolds.exists_found (h : value.FieldHolds name true P) :
    ∃ found, value.field? name = some found ∧ P found := by
  obtain ⟨found, hfound⟩ := h.present rfl
  exact ⟨found, hfound, h.holds found hfound⟩

end Json

namespace Schema

inductive Fits : Schema → Json → Prop
  | text {rule : TextRule} {value : String} (h : rule.accepts value = true) :
      Fits (.text rule) (.text value)
  | boolean (value : Bool) : Fits .boolean (.boolean value)
  | integer {value : Number} (h : value.isInteger = true) : Fits .integer (.number value)
  | list {item : Schema} {items : List Json} (h : ∀ value ∈ items, Fits item value) :
      Fits (.list item) (.list items)
  | record {value : Schema} {fields : List (String × Json)} (h : ∀ e ∈ fields, Fits value e.2) :
      Fits (.record value) (.object fields)
  | object {fields : List (String × Bool × Schema)} {values : List (String × Json)}
      (present : ∀ e ∈ fields, e.2.1 = true → ∃ found, (Json.object values).field? e.1 = some found)
      (holds : ∀ e ∈ fields, ∀ found, (Json.object values).field? e.1 = some found →
        Fits e.2.2 found) :
      Fits (.object fields) (.object values)

variable {rule : TextRule} {item : Schema} {fields : List (String × Bool × Schema)} {value : Json}

theorem fits_text_iff :
    (Schema.text rule).Fits value ↔ ∃ text, value = .text text ∧ rule.accepts text = true := by
  constructor
  · rintro ⟨h⟩
    exact ⟨_, rfl, h⟩
  · rintro ⟨text, rfl, h⟩
    exact .text h

theorem fits_boolean_iff : Schema.boolean.Fits value ↔ ∃ b, value = .boolean b := by
  constructor
  · rintro ⟨⟩
    exact ⟨_, rfl⟩
  · rintro ⟨b, rfl⟩
    exact .boolean b

theorem fits_integer_iff :
    Schema.integer.Fits value ↔ ∃ n : Number, value = .number n ∧ n.isInteger = true := by
  constructor
  · intro h
    cases h with
    | integer h => exact ⟨_, rfl, h⟩
  · rintro ⟨n, rfl, h⟩
    exact .integer h

theorem fits_list_iff :
    (Schema.list item).Fits value ↔ ∃ items, value = .list items ∧ ∀ v ∈ items, item.Fits v := by
  constructor
  · intro h
    cases h with
    | list h => exact ⟨_, rfl, h⟩
  · rintro ⟨items, rfl, h⟩
    exact .list h

theorem fits_record_iff :
    (Schema.record item).Fits value ↔
      ∃ fields, value = .object fields ∧ ∀ e ∈ fields, item.Fits e.2 := by
  constructor
  · intro h
    cases h with
    | record h => exact ⟨_, rfl, h⟩
  · rintro ⟨fields, rfl, h⟩
    exact .record h

theorem fits_object_iff :
    (Schema.object fields).Fits value ↔
      ∃ values, value = .object values ∧
        ∀ e ∈ fields, value.FieldHolds e.1 e.2.1 e.2.2.Fits := by
  constructor
  · intro h
    cases h with
    | object present holds => exact ⟨_, rfl, fun e he => ⟨present e he, holds e he⟩⟩
  · rintro ⟨values, rfl, h⟩
    exact .object (fun e he => (h e he).present) fun e he => (h e he).holds

mutual

/-- Whether there are issues does not depend on where the value stands. -/
theorem issues_eq_nil_iff (path : List PathStep) (schema : Schema) (value : Json) :
    schema.issues path value = [] ↔ schema.Fits value := by
  cases schema with
  | text rule =>
    rw [fits_text_iff]
    cases value <;> simp [issues]
  | boolean =>
    rw [fits_boolean_iff]
    cases value <;> simp [issues]
  | integer =>
    rw [fits_integer_iff]
    cases value <;> simp [issues]
  | list item =>
    rw [fits_list_iff]
    cases value with
    | list items =>
      have hitems : (∀ e ∈ items.zipIdx, item.Fits e.1) ↔ ∀ v ∈ items, item.Fits v := by
        rw [← List.forall_mem_map, List.zipIdx_map_fst]
      rw [issues, List.flatMap_eq_nil_iff]
      simp only [issues_eq_nil_iff _ item, hitems]
      simp
    | _ => simp [issues]
  | record item =>
    rw [fits_record_iff]
    cases value with
    | object fields =>
      rw [issues, List.flatMap_eq_nil_iff]
      simp only [issues_eq_nil_iff _ item]
      simp
    | _ => simp [issues]
  | object fields =>
    rw [fits_object_iff]
    cases value with
    | object values =>
      rw [issues, fieldIssues_eq_nil_iff path (.object values) fields]
      simp
    | _ => simp [issues]

theorem fieldIssues_eq_nil_iff (path : List PathStep) (value : Json)
    (fields : List (String × Bool × Schema)) :
    fieldIssues path value fields = [] ↔
      ∀ e ∈ fields, value.FieldHolds e.1 e.2.1 e.2.2.Fits := by
  match fields with
  | [] => simp [fieldIssues]
  | (name, required, schema) :: rest =>
    rw [fieldIssues, List.append_eq_nil_iff, fieldIssues_eq_nil_iff path value rest,
      List.forall_mem_cons]
    refine and_congr_left fun _ => ?_
    cases hfound : value.field? name with
    | some found =>
      show schema.issues (path ++ [.field name]) found = [] ↔ _
      rw [issues_eq_nil_iff]
      exact ⟨fun h => .of_field? hfound h, fun h => h.holds found hfound⟩
    | none =>
      cases required with
      | false => exact iff_of_true rfl (.of_none hfound)
      | true =>
        refine iff_of_false nofun fun h => ?_
        obtain ⟨found, hother, -⟩ := h.exists_found
        cases hfound.symm.trans hother

end

end Schema

end VoxelQuery
