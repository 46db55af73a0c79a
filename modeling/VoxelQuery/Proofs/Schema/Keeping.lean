import VoxelQuery.Proofs.Schema.Fitting
import VoxelQuery.Proofs.Schema.Places

/-! What is kept of a document. Fields that the schema does not list are left out, at every depth,
and a document that is covered by the schema has none of them. -/
namespace VoxelQuery.Schema

mutual

/-- A document without the fields that the schema does not list. -/
def kept : Schema → Json → Json
  | list item, .list items => .list (items.map (kept item))
  | record value, .object fields => .object (fields.map fun e => (e.1, kept value e.2))
  | object fields, .object values => .object (keptFields (.object values) fields)
  | _, value => value

def keptFields (value : Json) : List (String × Bool × Schema) → List (String × Json)
  | [] => []
  | (name, _, schema) :: rest =>
    Json.fieldOf name ((value.field? name).map (kept schema)) ++ keptFields value rest

end

/-- Every place of the document is one of the schema. -/
def Covers (schema : Schema) (value : Json) : Prop :=
  ∀ path found, value.at? path = some found → ∃ place, schema.at? path = some place

section Kept

variable {rule : TextRule} {item : Schema} {value : Json} {name : String} {required : Bool}

@[simp] theorem kept_text (rule : TextRule) (value : Json) : (text rule).kept value = value := by
  cases value <;> rfl

/-- A text field is kept as it is read. -/
theorem map_kept_text (h : value.FieldHolds name required (text rule).Fits) :
    (value.field? name).map (text rule).kept = (value.textAt? name).map .text := by
  rw [Json.textAt?]
  cases hfound : value.field? name with
  | none => rfl
  | some found =>
    obtain ⟨text, rfl, -⟩ := fits_text_iff.1 (h.holds found hfound)
    rfl

theorem map_kept_text_required (h : value.FieldHolds name true (text rule).Fits) :
    (value.field? name).map (text rule).kept = some (.text (value.textAt name)) := by
  obtain ⟨found, hfound, hfits⟩ := h.exists_found
  obtain ⟨text, rfl, -⟩ := fits_text_iff.1 hfits
  rw [Json.textAt, Json.textAt?, hfound]
  rfl

theorem map_kept_boolean (h : value.FieldHolds name required boolean.Fits) :
    (value.field? name).map boolean.kept =
      ((value.field? name).bind Json.boolean?).map .boolean := by
  cases hfound : value.field? name with
  | none => rfl
  | some found =>
    obtain ⟨b, rfl⟩ := fits_boolean_iff.1 (h.holds found hfound)
    rfl

/-- The items of a list are kept one by one, and each is written as it was read. -/
theorem map_kept_list {α : Type} {read : Json → α} {write : α → Json}
    (h : value.FieldHolds name required (list item).Fits)
    (hitem : ∀ v, item.Fits v → write (read v) = item.kept v) :
    (value.field? name).map (list item).kept =
      (value.field? name).map fun found => .list ((found.items.map read).map write) := by
  cases hfound : value.field? name with
  | none => rfl
  | some found =>
    obtain ⟨items, rfl, hitems⟩ := fits_list_iff.1 (h.holds found hfound)
    rw [Option.map_some, Option.map_some, kept, Json.items, List.map_map]
    exact congrArg (some ∘ Json.list) (List.map_congr_left fun v hv => (hitem v (hitems v hv)).symm)

theorem map_text_texts {items : List Json} (h : ∀ v ∈ items, (text rule).Fits v) :
    (Json.texts items).map Json.text = items := by
  induction items with
  | nil => rfl
  | cons v rest ih =>
    obtain ⟨hv, hrest⟩ := List.forall_mem_cons.1 h
    obtain ⟨value, rfl, -⟩ := fits_text_iff.1 hv
    exact congrArg (Json.text value :: ·) (ih hrest)

theorem map_kept_texts (h : value.FieldHolds name required (list (text rule)).Fits) :
    (value.field? name).map (list (text rule)).kept =
      (value.field? name).map fun found => .list ((Json.texts found.items).map .text) := by
  cases hfound : value.field? name with
  | none => rfl
  | some found =>
    obtain ⟨items, rfl, hitems⟩ := fits_list_iff.1 (h.holds found hfound)
    rw [Option.map_some, Option.map_some, kept, Json.items, map_text_texts hitems]
    exact congrArg (some ∘ Json.list)
      ((List.map_congr_left fun v _ => kept_text rule v).trans (List.map_id items))

end Kept

section Covers

variable {schema item : Schema} {value : Json} {fields : List (String × Bool × Schema)}

theorem covers_of_step (h : ∀ step found, value.step? step = some found →
    ∃ place, schema.step? step = some place ∧ place.Covers found) : schema.Covers value := by
  intro path found hfound
  cases path with
  | nil => exact ⟨schema, rfl⟩
  | cons step rest =>
    obtain ⟨next, hnext, hfound⟩ := Option.bind_eq_some_iff.1 hfound
    obtain ⟨place, hplace, hcovers⟩ := h step next hnext
    obtain ⟨last, hlast⟩ := hcovers rest found hfound
    exact ⟨last, Option.bind_eq_some_iff.2 ⟨place, hplace, hlast⟩⟩

theorem covers_of_no_parts (hfield : ∀ name, value.field? name = none) (hitems : value.items = []) :
    schema.Covers value := by
  refine covers_of_step fun step found h => ?_
  cases step with
  | field name => cases (hfield name).symm.trans h
  | item index => simp [Json.step?, hitems] at h

theorem covers_text (schema : Schema) (text : String) : schema.Covers (.text text) :=
  covers_of_no_parts (fun _ => rfl) rfl

theorem covers_boolean (schema : Schema) (b : Bool) : schema.Covers (.boolean b) :=
  covers_of_no_parts (fun _ => rfl) rfl

theorem covers_list {items : List Json} (h : ∀ v ∈ items, item.Covers v) :
    (list item).Covers (.list items) := by
  refine covers_of_step fun step found hfound => ?_
  cases step with
  | field name => cases hfound
  | item index => exact ⟨item, rfl, h found (List.mem_of_getElem? hfound)⟩

theorem covers_object (distinct : (fields.map Prod.fst).Nodup) {values : List (String × Json)}
    (h : ∀ e ∈ values, ∃ required entry, (e.1, required, entry) ∈ fields ∧ entry.Covers e.2) :
    (object fields).Covers (.object values) := by
  refine covers_of_step fun step found hfound => ?_
  cases step with
  | item index => simp [Json.step?, Json.items] at hfound
  | field name =>
    obtain ⟨⟨name', found⟩, he, rfl⟩ := Option.map_eq_some_iff.1 hfound
    obtain rfl : name' = name := by simpa using List.find?_some he
    obtain ⟨required, entry, hmem, hcovers⟩ := h _ (List.mem_of_find?_eq_some he)
    refine ⟨entry, ?_, hcovers⟩
    rw [step?, (field?_eq_some_iff distinct).2 hmem]
    rfl

end Covers

end VoxelQuery.Schema
