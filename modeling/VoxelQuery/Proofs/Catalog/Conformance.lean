import VoxelQuery.Catalog.Assembly
import VoxelQuery.Proofs.Schema.Fitting
import VoxelQuery.Proofs.Success

/-! Catalogs and the documents that hold them. What is read from a document that is accepted keeps the
rules of its names and texts, the defaults included, and a catalog that keeps them is read back from
any object in which its parts are written down. -/
namespace VoxelQuery

namespace Catalog

/-- The names and texts of a catalog look as the schema asks. -/
structure Conforms (c : Catalog) : Prop where
  defaultNamespace : TextRule.word.accepts c.defaultNamespace = true
  defaultProperty : TextRule.word.accepts c.defaultProperty = true
  fillBlock : TextRule.nonEmpty.accepts c.fillBlock = true
  material : ∀ name ∈ c.materials, TextRule.word.accepts name = true
  typeTag : ∀ entry ∈ c.typeTags, TextRule.nonEmpty.accepts entry.name = true ∧
    ∀ parent, entry.parent = some parent → TextRule.nonEmpty.accepts parent = true
  block : ∀ entry ∈ c.blocks, TextRule.identifier.accepts entry.identifier = true ∧
    TextRule.nonEmpty.accepts entry.typeTag = true ∧ TextRule.nonEmpty.accepts entry.material = true
  query : ∀ q ∈ c.queries, TextRule.word.accepts q.name = true ∧
    TextRule.nonEmpty.accepts q.text = true

/-- Each part of a catalog stands under its name. -/
structure WrittenIn (c : Catalog) (fields : List (String × Json)) : Prop where
  defaultNamespace : (Json.object fields).field? "defaultNamespace" = some (.text c.defaultNamespace)
  tagPrefixes : (Json.object fields).field? "typeTagPrefixes" =
    some (.list (c.tagPrefixes.map .text))
  defaultProperty : (Json.object fields).field? "defaultPropertyName" =
    some (.text c.defaultProperty)
  fillBlock : (Json.object fields).field? "fillBlock" = some (.text c.fillBlock)
  materials : (Json.object fields).field? "materials" = some (.list (c.materials.map .text))
  typeTags : (Json.object fields).field? "typeTags" = some (.list (c.typeTags.map typeTagJson))
  blocks : (Json.object fields).field? "blocks" = some (.list (c.blocks.map blockJson))
  queries : (Json.object fields).field? "queries" = some (.list (c.queries.map queryJson))

end Catalog

section Reading

variable {value : Json} {name : String} {required : Bool} {rule : TextRule}

theorem accepts_of_textAt? (h : value.FieldHolds name required (Schema.text rule).Fits)
    {text : String} (htext : value.textAt? name = some text) : rule.accepts text = true := by
  obtain ⟨found, hfound, hfit⟩ := Option.bind_eq_some_iff.1 htext
  obtain ⟨_, rfl, haccepts⟩ := Schema.fits_text_iff.1 (h.holds found hfound)
  cases hfit
  exact haccepts

theorem accepts_textAt (h : value.FieldHolds name true (Schema.text rule).Fits) :
    rule.accepts (value.textAt name) = true := by
  obtain ⟨found, hfound, hfits⟩ := h.exists_found
  obtain ⟨text, rfl, haccepts⟩ := Schema.fits_text_iff.1 hfits
  rwa [Json.textAt, Json.textAt?, hfound]

theorem accepts_textAt?_getD (h : value.FieldHolds name required (Schema.text rule).Fits)
    {standard : String} (hstandard : rule.accepts standard = true) :
    rule.accepts ((value.textAt? name).getD standard) = true := by
  cases htext : value.textAt? name with
  | none => exact hstandard
  | some text => exact accepts_of_textAt? h htext

theorem fits_of_mem_itemsAt {item : Schema}
    (h : value.FieldHolds name required (Schema.list item).Fits) :
    ∀ v ∈ value.itemsAt name, item.Fits v := by
  rw [Json.itemsAt]
  cases hfound : value.field? name with
  | none => exact nofun
  | some found =>
    obtain ⟨items, rfl, hitems⟩ := Schema.fits_list_iff.1 (h.holds found hfound)
    exact hitems

theorem accepts_of_mem_texts {items : List Json} (h : ∀ v ∈ items, (Schema.text rule).Fits v) :
    ∀ text ∈ Json.texts items, rule.accepts text = true := by
  intro text htext
  obtain ⟨v, hv, hread⟩ := List.mem_filterMap.1 htext
  obtain ⟨_, rfl, haccepts⟩ := Schema.fits_text_iff.1 (h v hv)
  cases hread
  exact haccepts

theorem texts_map_text (texts : List String) : Json.texts (texts.map .text) = texts := by
  rw [Json.texts, List.filterMap_map]
  exact List.filterMap_some

theorem fits_list_map {α : Type} {item : Schema} {write : α → Json} {l : List α}
    (h : ∀ a ∈ l, item.Fits (write a)) : (Schema.list item).Fits (.list (l.map write)) :=
  .list (List.forall_mem_map.2 h)

end Reading

namespace Catalog

variable {value : Json} {c : Catalog} {fields : List (String × Json)}

theorem parse_eq_ok_iff : parse value = .ok c ↔ schema.Fits value ∧ read value = c := by
  rw [← Schema.issues_eq_nil_iff [], parse]
  split
  · next hnone => simp [hnone]
  · next hissues => exact iff_of_false nofun fun h => hissues h.1

theorem conforms_read (h : schema.Fits value) : (read value).Conforms := by
  obtain ⟨values, rfl, hfields⟩ := Schema.fits_object_iff.1 h
  simp only [List.forall_mem_cons] at hfields
  obtain ⟨hnamespace, -, hproperty, hfill, hmaterials, htags, hblocks, hqueries, -⟩ := hfields
  exact {
    defaultNamespace := accepts_textAt?_getD hnamespace (by decide)
    defaultProperty := accepts_textAt?_getD hproperty (by decide)
    fillBlock := accepts_textAt?_getD hfill (by decide)
    material := accepts_of_mem_texts (fits_of_mem_itemsAt hmaterials)
    typeTag := by
      refine List.forall_mem_map.2 fun v hv => ?_
      obtain ⟨_, rfl, hentry⟩ := Schema.fits_object_iff.1 (fits_of_mem_itemsAt htags v hv)
      simp only [List.forall_mem_cons] at hentry
      exact ⟨accepts_textAt hentry.1, fun parent => accepts_of_textAt? hentry.2.1⟩
    block := by
      refine List.forall_mem_map.2 fun v hv => ?_
      obtain ⟨_, rfl, hentry⟩ := Schema.fits_object_iff.1 (fits_of_mem_itemsAt hblocks v hv)
      simp only [List.forall_mem_cons] at hentry
      exact ⟨accepts_textAt hentry.1, accepts_textAt hentry.2.1, accepts_textAt hentry.2.2.1⟩
    query := by
      refine List.forall_mem_map.2 fun v hv => ?_
      obtain ⟨_, rfl, hentry⟩ := Schema.fits_object_iff.1 (fits_of_mem_itemsAt hqueries v hv)
      simp only [List.forall_mem_cons] at hentry
      exact ⟨accepts_textAt hentry.1, accepts_textAt hentry.2.2.1⟩ }

theorem conforms_of_parse (h : parse value = .ok c) : c.Conforms := by
  obtain ⟨hfits, rfl⟩ := parse_eq_ok_iff.1 h
  exact conforms_read hfits

theorem readTypeTag_typeTagJson (entry : TypeTagSpec) : readTypeTag (typeTagJson entry) = entry := by
  obtain ⟨name, parent⟩ := entry
  cases parent <;> rfl

theorem readBlock_blockJson (entry : BlockSpec) : readBlock (blockJson entry) = entry := by
  obtain ⟨identifier, typeTag, material, isEmpty⟩ := entry
  cases isEmpty <;> rfl

theorem readQuery_queryJson (q : QuerySpec) : readQuery (queryJson q) = q := by
  obtain ⟨name, description, text⟩ := q
  cases description <;> rfl

theorem map_read_map_write {α : Type} {write : α → Json} {read : Json → α}
    (h : ∀ a, read (write a) = a) (l : List α) : (l.map write).map read = l := by
  rw [List.map_map]
  exact (List.map_congr_left fun a _ => h a).trans (List.map_id l)

theorem read_of_written (h : c.WrittenIn fields) : read (.object fields) = c := by
  simp only [read, Json.textAt?, Json.itemsAt, h.defaultNamespace, h.tagPrefixes, h.defaultProperty,
    h.fillBlock, h.materials, h.typeTags, h.blocks, h.queries, Option.bind_some, Option.map_some,
    Option.getD_some, Json.text?, Json.items, texts_map_text,
    map_read_map_write readTypeTag_typeTagJson, map_read_map_write readBlock_blockJson,
    map_read_map_write readQuery_queryJson]

/-- The part of the schema that is about one tag. -/
abbrev typeTagSchema : Schema :=
  .object [("name", true, .text .nonEmpty), ("parent", false, .text .nonEmpty)]

abbrev blockSchema : Schema :=
  .object [("identifier", true, .text .identifier), ("typeTag", true, .text .nonEmpty),
    ("material", true, .text .nonEmpty), ("empty", false, .boolean)]

abbrev querySchema : Schema :=
  .object [("name", true, .text .word), ("description", false, .text .any),
    ("query", true, .text .nonEmpty)]

theorem fits_typeTagJson {entry : TypeTagSpec}
    (hname : TextRule.nonEmpty.accepts entry.name = true)
    (hparent : ∀ parent, entry.parent = some parent → TextRule.nonEmpty.accepts parent = true) :
    typeTagSchema.Fits (typeTagJson entry) := by
  obtain ⟨name, parent⟩ := entry
  refine Schema.fits_object_iff.2 ⟨_, rfl, ?_⟩
  simp only [List.forall_mem_cons]
  cases parent with
  | none => exact ⟨.of_field? rfl (.text hname), .of_none rfl, nofun⟩
  | some parent =>
    exact ⟨.of_field? rfl (.text hname), .of_field? rfl (.text (hparent parent rfl)), nofun⟩

theorem fits_blockJson {entry : BlockSpec}
    (hidentifier : TextRule.identifier.accepts entry.identifier = true)
    (htag : TextRule.nonEmpty.accepts entry.typeTag = true)
    (hmaterial : TextRule.nonEmpty.accepts entry.material = true) :
    blockSchema.Fits (blockJson entry) := by
  obtain ⟨identifier, typeTag, material, isEmpty⟩ := entry
  refine Schema.fits_object_iff.2 ⟨_, rfl, ?_⟩
  simp only [List.forall_mem_cons]
  refine ⟨.of_field? rfl (.text hidentifier), .of_field? rfl (.text htag),
    .of_field? rfl (.text hmaterial), ?_, nofun⟩
  cases isEmpty with
  | none => exact .of_none rfl
  | some b => exact .of_field? rfl (.boolean b)

theorem fits_queryJson {q : QuerySpec} (hname : TextRule.word.accepts q.name = true)
    (htext : TextRule.nonEmpty.accepts q.text = true) :
    querySchema.Fits (queryJson q) := by
  obtain ⟨name, description, text⟩ := q
  refine Schema.fits_object_iff.2 ⟨_, rfl, ?_⟩
  simp only [List.forall_mem_cons]
  cases description with
  | none =>
    exact ⟨.of_field? rfl (.text hname), .of_none rfl, .of_field? rfl (.text htext), nofun⟩
  | some description =>
    exact ⟨.of_field? rfl (.text hname), .of_field? rfl (.text rfl), .of_field? rfl (.text htext),
      nofun⟩

theorem fits_of_written (hc : c.Conforms) (h : c.WrittenIn fields) :
    schema.Fits (.object fields) := by
  refine Schema.fits_object_iff.2 ⟨fields, rfl, ?_⟩
  simp only [List.forall_mem_cons]
  refine ⟨.of_field? h.defaultNamespace (.text hc.defaultNamespace),
    .of_field? h.tagPrefixes (fits_list_map fun _ _ => .text rfl),
    .of_field? h.defaultProperty (.text hc.defaultProperty),
    .of_field? h.fillBlock (.text hc.fillBlock),
    .of_field? h.materials (fits_list_map fun name hname => .text (hc.material name hname)),
    .of_field? h.typeTags (fits_list_map fun entry hentry => ?_),
    .of_field? h.blocks (fits_list_map fun entry hentry => ?_),
    .of_field? h.queries (fits_list_map fun q hq => ?_), nofun⟩
  · obtain ⟨hname, hparent⟩ := hc.typeTag entry hentry
    exact fits_typeTagJson hname hparent
  · obtain ⟨hidentifier, htag, hmaterial⟩ := hc.block entry hentry
    exact fits_blockJson hidentifier htag hmaterial
  · obtain ⟨hname, htext⟩ := hc.query q hq
    exact fits_queryJson hname htext

/-- Whatever else an object holds, it is read as the catalog that is written in it. -/
theorem parse_of_written (hc : c.Conforms) (h : c.WrittenIn fields) :
    parse (.object fields) = .ok c :=
  parse_eq_ok_iff.2 ⟨fits_of_written hc h, read_of_written h⟩

end Catalog

end VoxelQuery
