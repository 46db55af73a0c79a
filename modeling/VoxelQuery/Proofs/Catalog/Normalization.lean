import VoxelQuery.Proofs.Catalog.Conformance
import VoxelQuery.Proofs.Schema.Keeping

/-! What becomes of a catalog document. A document that breaks no rule is read as a catalog that has
the parts of the document and the defaults for what it leaves out, and the catalog, written down, is
read as itself. Of any other document all broken rules are reported. -/
namespace VoxelQuery

/-- The issues of a document are all broken rules with their places, each once and in order. -/
structure Schema.Reported (schema : Schema) (value : Json) (issues : List Issue) : Prop where
  exact : ∀ issue, issue ∈ issues ↔ schema.BreaksAt value issue.path issue.problem
  once : (issues.map Issue.path).Nodup
  ordered : issues.Pairwise fun a b => schema.Precedes a.path b.path

theorem Schema.reported_issues {schema : Schema} (h : schema.Plain) (value : Json) :
    schema.Reported value (schema.issues [] value) :=
  ⟨fun _ => mem_issues_iff h, nodup_issues h value, pairwise_issues h value⟩

namespace Catalog

/-- What stands for the parts that a document leaves out. -/
def defaults : Json :=
  .object [
    ("defaultNamespace", .text "core"),
    ("typeTagPrefixes", .list [.text "", .text "custom.", .text "core."]),
    ("defaultPropertyName", .text "variant"),
    ("fillBlock", .text "core:air"),
    ("queries", .list [])]

/-- The catalog of a document keeps the schema and has no other parts than the schema lists, each as
in the document or else by default. -/
structure Normalizes (c : Catalog) (value : Json) : Prop where
  fits : schema.Fits c.toJson
  covered : schema.Covers c.toJson
  parts : ∀ name required entry, schema.field? name = some (required, entry) →
    c.toJson.field? name = ((value.field? name).map entry.kept).or (defaults.field? name)
  stable : parse c.toJson = .ok c

theorem plain_schema : schema.Plain := by
  refine .object (by decide) ?_
  simp only [List.forall_mem_cons]
  refine ⟨.text _, .list (.text _), .text _, .text _, .list (.text _),
    .list (.object (by decide) ?_), .list (.object (by decide) ?_),
    .list (.object (by decide) ?_), nofun⟩
  · simp only [List.forall_mem_cons]
    exact ⟨.text _, .text _, nofun⟩
  · simp only [List.forall_mem_cons]
    exact ⟨.text _, .text _, .text _, .boolean, nofun⟩
  · simp only [List.forall_mem_cons]
    exact ⟨.text _, .text _, .text _, nofun⟩

section Entries

variable {value : Json}

theorem typeTagJson_readTypeTag (h : typeTagSchema.Fits value) :
    typeTagJson (readTypeTag value) = typeTagSchema.kept value := by
  obtain ⟨values, rfl, hfields⟩ := Schema.fits_object_iff.1 h
  simp only [List.forall_mem_cons] at hfields
  obtain ⟨hname, hparent, -⟩ := hfields
  rw [Schema.kept, Schema.keptFields, Schema.keptFields, Schema.keptFields,
    Schema.map_kept_text_required hname, Schema.map_kept_text hparent, List.append_nil]
  rfl

theorem blockJson_readBlock (h : blockSchema.Fits value) :
    blockJson (readBlock value) = blockSchema.kept value := by
  obtain ⟨values, rfl, hfields⟩ := Schema.fits_object_iff.1 h
  simp only [List.forall_mem_cons] at hfields
  obtain ⟨hidentifier, htag, hmaterial, hempty, -⟩ := hfields
  rw [Schema.kept, Schema.keptFields, Schema.keptFields, Schema.keptFields, Schema.keptFields,
    Schema.keptFields, Schema.map_kept_text_required hidentifier,
    Schema.map_kept_text_required htag, Schema.map_kept_text_required hmaterial,
    Schema.map_kept_boolean hempty, List.append_nil]
  rfl

theorem queryJson_readQuery (h : querySchema.Fits value) :
    queryJson (readQuery value) = querySchema.kept value := by
  obtain ⟨values, rfl, hfields⟩ := Schema.fits_object_iff.1 h
  simp only [List.forall_mem_cons] at hfields
  obtain ⟨hname, hdescription, hquery, -⟩ := hfields
  rw [Schema.kept, Schema.keptFields, Schema.keptFields, Schema.keptFields, Schema.keptFields,
    Schema.map_kept_text_required hname, Schema.map_kept_text hdescription,
    Schema.map_kept_text_required hquery, List.append_nil]
  rfl

end Entries

section Parts

variable {c : Catalog} {value standard : Json} {name : String} {required : Bool} {rule : TextRule}

theorem text_part (h : value.FieldHolds name required (Schema.text rule).Fits) (standard : String) :
    some (Json.text ((value.textAt? name).getD standard)) =
      ((value.field? name).map (Schema.text rule).kept).or (some (.text standard)) := by
  rw [Schema.map_kept_text h]
  cases value.textAt? name <;> rfl

theorem list_part {α : Type} {item : Schema} {read : Json → α} {write : α → Json}
    (h : value.FieldHolds name required (Schema.list item).Fits)
    (hitem : ∀ v, item.Fits v → write (read v) = item.kept v) {standard : Option Json}
    (hstandard : required = false → standard = some (.list [])) :
    some (Json.list (((value.itemsAt name).map read).map write)) =
      ((value.field? name).map (Schema.list item).kept).or standard := by
  rw [Schema.map_kept_list h hitem, Json.itemsAt]
  cases hfound : value.field? name with
  | some found => rfl
  | none =>
    cases required with
    | false =>
      rw [hstandard rfl]
      rfl
    | true =>
      obtain ⟨found, hpresent⟩ := h.present rfl
      cases hfound.symm.trans hpresent

/-- Each part of a catalog is that of the document, or a default in its place. -/
theorem parts_read (h : schema.Fits value) :
    ∀ name required entry, schema.field? name = some (required, entry) →
      (read value).toJson.field? name =
        ((value.field? name).map entry.kept).or (defaults.field? name) := by
  obtain ⟨values, rfl, hfields⟩ := Schema.fits_object_iff.1 h
  simp only [List.forall_mem_cons] at hfields
  obtain ⟨hnamespace, hprefixes, hproperty, hfill, hmaterials, htags, hblocks, hqueries, -⟩ :=
    hfields
  refine (Schema.forall_field?_iff (by decide)).2 ?_
  simp only [List.forall_mem_cons]
  refine ⟨text_part hnamespace _, ?_, text_part hproperty _, text_part hfill _, ?_,
    list_part htags (fun v => typeTagJson_readTypeTag) nofun,
    list_part hblocks (fun v => blockJson_readBlock) nofun,
    list_part hqueries (fun v => queryJson_readQuery) fun _ => rfl, nofun⟩
  · rw [Schema.map_kept_texts hprefixes]
    show some (Json.list (List.map Json.text (Option.getD _ _))) = _
    cases (Json.object values).field? "typeTagPrefixes" <;> rfl
  · rw [Schema.map_kept_texts hmaterials]
    obtain ⟨found, hfound, -⟩ := hmaterials.exists_found
    rw [hfound]
    show some (Json.list (List.map Json.text (Json.texts ((Json.object values).itemsAt _)))) = _
    rw [Json.itemsAt, hfound]
    rfl

end Parts

theorem writtenIn_toJson (c : Catalog) : c.WrittenIn c.toJson.fields :=
  ⟨rfl, rfl, rfl, rfl, rfl, rfl, rfl, rfl⟩

section Covered

theorem covers_typeTagJson (entry : TypeTagSpec) : typeTagSchema.Covers (typeTagJson entry) := by
  obtain ⟨name, parent⟩ := entry
  refine Schema.covers_object (by decide) ?_
  cases parent <;> simp [Json.fieldOf, Schema.covers_text]

theorem covers_blockJson (entry : BlockSpec) : blockSchema.Covers (blockJson entry) := by
  obtain ⟨identifier, typeTag, material, isEmpty⟩ := entry
  refine Schema.covers_object (by decide) ?_
  cases isEmpty <;> simp [Json.fieldOf, Schema.covers_text, Schema.covers_boolean]

theorem covers_queryJson (q : QuerySpec) : querySchema.Covers (queryJson q) := by
  obtain ⟨name, description, text⟩ := q
  refine Schema.covers_object (by decide) ?_
  cases description <;> simp [Json.fieldOf, Schema.covers_text]

theorem covers_toJson (c : Catalog) : schema.Covers c.toJson := by
  refine Schema.covers_object (by decide) ?_
  simp [Schema.covers_text, Schema.covers_list, covers_typeTagJson, covers_blockJson,
    covers_queryJson]

end Covered

variable {c : Catalog} {value : Json}

theorem normalizes_read (h : schema.Fits value) : (read value).Normalizes value where
  fits := fits_of_written (conforms_read h) (writtenIn_toJson _)
  covered := covers_toJson _
  parts := parts_read h
  stable := parse_of_written (conforms_read h) (writtenIn_toJson _)

/-- A document that breaks no rule of the schema is read as a catalog. Of any other document every
rule that it breaks is reported. -/
theorem parse_normalizes_or_reports (value : Json) :
    (∃ c, parse value = .ok c ∧ c.Normalizes value ∧
        ∀ path problem, ¬schema.BreaksAt value path problem) ∨
      ∃ issues, parse value = .error (.invalid issues) ∧ issues ≠ [] ∧
        schema.Reported value issues := by
  have hreported := Schema.reported_issues plain_schema value
  cases hissues : schema.issues [] value with
  | nil =>
    have hfits := (Schema.issues_eq_nil_iff [] schema value).1 hissues
    refine .inl ⟨read value, parse_eq_ok_iff.2 ⟨hfits, rfl⟩, normalizes_read hfits, ?_⟩
    intro path problem hbreaks
    have hmem := (hreported.exact ⟨path, problem⟩).2 hbreaks
    rw [hissues] at hmem
    cases hmem
  | cons first rest =>
    rw [hissues] at hreported
    refine .inr ⟨first :: rest, ?_, List.cons_ne_nil _ _, hreported⟩
    rw [parse, hissues]

/-- A default stands for what is left out, not for what is null. -/
example : schema.issues [] (.object [("typeTags", .list [.null]),
      ("materials", .list [.text "a b"]), ("fillBlock", .null)]) =
    [⟨[.field "fillBlock"], .wrongKind .text .null⟩,
      ⟨[.field "materials", .item 0], .refused .word⟩,
      ⟨[.field "typeTags", .item 0], .wrongKind .object .null⟩,
      ⟨[.field "blocks"], .missing .list⟩] := by cbv

end Catalog

end VoxelQuery
