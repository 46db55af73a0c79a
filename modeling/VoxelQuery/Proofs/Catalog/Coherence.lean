import VoxelQuery.Catalog.Assembly
import VoxelQuery.Proofs.Faults
import VoxelQuery.Proofs.History

/-! Which catalogs make a registry. The entries of a catalog have to fit together, and all that does
not fit can be listed from the catalog alone. The registry of a catalog without such faults has its
entries in their order, and any other catalog is refused with the first of its faults. -/
namespace VoxelQuery

/-- A tag as a catalog has it, with the name of its parent. -/
def TypeTag.spec (tag : TypeTag) : TypeTagSpec := ⟨tag.name, tag.parent?.map TypeTag.name⟩

namespace Catalog

variable (c : Catalog)

/-- An identifier without a namespace is in the default one. -/
def fullIdentifier (text : String) : String :=
  if ':' ∈ text.toList then text else c.defaultNamespace ++ ":" ++ text

/-- The identifier of the block that an entry is about. -/
def blockName (entry : BlockSpec) : String := c.fullIdentifier entry.identifier

/-- Nothing is defined twice or used without a definition, and tags derive from tags in front of
them. -/
structure Coherent (c : Catalog) : Prop where
  materials : c.materials.Nodup
  typeTags : (c.typeTags.map TypeTagSpec.name).Nodup
  parents : ∀ before entry behind, c.typeTags = before ++ entry :: behind →
    ∀ parent, entry.parent = some parent → parent ∈ before.map TypeTagSpec.name
  blocks : ∀ entry ∈ c.blocks,
    entry.typeTag ∈ c.typeTags.map TypeTagSpec.name ∧ entry.material ∈ c.materials
  fillBlock : ∃ entry ∈ c.blocks, c.blockName entry = c.fullIdentifier c.fillBlock

def materialFaults (before : List String) (name : String) : List DefinitionError :=
  if name ∈ before then [.materialDefined name] else []

/-- A tag is looked for under its own name before its parent is. -/
def typeTagFaults (before : List TypeTagSpec) (entry : TypeTagSpec) : List DefinitionError :=
  (if entry.name ∈ before.map TypeTagSpec.name then [.typeTagDefined entry.name] else []) ++
    match entry.parent with
    | none => []
    | some parent =>
      if parent ∈ before.map TypeTagSpec.name then [] else [.parentUndefined entry.name parent]

def blockFaults (entry : BlockSpec) : List DefinitionError :=
  (if entry.typeTag ∈ c.typeTags.map TypeTagSpec.name then []
    else [.blockTypeTagUndefined entry.identifier entry.typeTag]) ++
  if entry.material ∈ c.materials then []
    else [.blockMaterialUndefined entry.identifier entry.material]

def fillFaults : List CatalogError :=
  if c.fullIdentifier c.fillBlock ∈ c.blocks.map c.blockName then []
  else [.fillBlockUndefined c.fillBlock]

/-- All that does not fit: materials, then tags, then blocks, and at last the fill block. -/
def violations : List CatalogError :=
  (faultsAlong materialFaults [] c.materials ++ (faultsAlong typeTagFaults [] c.typeTags ++
    c.blocks.flatMap c.blockFaults)).map .definition ++ c.fillFaults

/-- The block that an entry describes, by the definitions that it names. -/
structure Describes (c : Catalog) (r : Registry) (entry : BlockSpec) (b : Block) : Prop where
  identifier : b.identifier = c.blockName entry
  typeTag : r.typeTags.get? entry.typeTag = some b.typeTag
  material : r.materials.get? entry.material = some b.material
  isEmpty : b.isEmpty = entry.isEmpty.getD false

/-- The tables of a registry list what the catalog has, a block at the place of its first entry and
as its last entry describes it. -/
structure ListedBy (c : Catalog) (number : Nat) (r : Registry) : Prop where
  materials : r.materials.values = c.materials.map (Material.mk number)
  typeTags : r.typeTags.values.map TypeTag.spec = c.typeTags
  blocks : r.blocks.values.map Block.identifier = Predicate.distinct (c.blocks.map c.blockName)
  block : ∀ b, b ∈ r.blocks.values ↔
    ∃ entry, IsLast c.blockName c.blocks entry ∧ c.Describes r entry b

/-- An open registry that holds the materials and the tags of two lists. -/
structure HoldsNames (c : Catalog) (number : Nat) (names : List String) (entries : List TypeTagSpec)
    (r : Registry) : Prop where
  opened : r.frozen = false
  numbered : r.number = number
  defaultNamespace : r.defaultNamespace = c.defaultNamespace
  materials : r.materials.entries = names.map fun name => (name, ⟨number, name⟩)
  typeTags : r.typeTags.entries.map (fun e => (e.1, e.2.spec)) =
    entries.map fun entry => (entry.name, entry)

/-- The blocks of a list, each as its last entry describes it. -/
structure HoldsBlocks (c : Catalog) (entries : List BlockSpec) (r : Registry) : Prop where
  keys : r.blocks.keys = Predicate.distinct (entries.map c.blockName)
  block : ∀ identifier b, r.blocks.get? identifier = some b ↔
    b.identifier = identifier ∧ ∃ entry, IsLast c.blockName entries entry ∧ c.Describes r entry b

variable {c}

theorem Describes.unique {r : Registry} {entry : BlockSpec} {a b : Block}
    (ha : c.Describes r entry a) (hb : c.Describes r entry b) : a = b := by
  obtain ⟨identifier, tag, m, isEmpty⟩ := a
  obtain ⟨identifier', tag', m', isEmpty'⟩ := b
  obtain ⟨rfl, htag, hmaterial, rfl⟩ := ha
  obtain ⟨rfl, htag', hmaterial', rfl⟩ := hb
  cases htag.symm.trans htag'
  cases hmaterial.symm.trans hmaterial'
  rfl

theorem describes_withBlocks_iff {r : Registry} {entry : BlockSpec} {b : Block}
    {blocks : Table String Block} :
    c.Describes { r with blocks := blocks } entry b ↔ c.Describes r entry b :=
  ⟨fun h => ⟨h.identifier, h.typeTag, h.material, h.isEmpty⟩,
    fun h => ⟨h.identifier, h.typeTag, h.material, h.isEmpty⟩⟩

/-- A block that is put under its identifier is the one that the last entry describes. -/
theorem HoldsBlocks.put {r : Registry} {blocks : List BlockSpec} {entry : BlockSpec} {b : Block}
    (h : c.HoldsBlocks blocks r) (hb : c.Describes r entry b) :
    c.HoldsBlocks (blocks ++ [entry]) { r with blocks := r.blocks.put (c.blockName entry) b } where
  keys := by
    rw [Table.keys_put, h.keys, List.map_append, List.map_singleton, Predicate.distinct_concat]
    simp only [Predicate.mem_distinct]
  block identifier found := by
    simp only [Table.get?_put, isLast_concat_iff, describes_withBlocks_iff]
    by_cases hkey : c.blockName entry = identifier
    · rw [if_pos hkey]
      constructor
      · intro heq
        cases heq
        exact ⟨hb.identifier.trans hkey, entry, .inl rfl, hb⟩
      · rintro ⟨hname, other, rfl | ⟨-, hne⟩, hfound⟩
        · rw [hb.unique hfound]
        · exact absurd (hkey.trans (hname.symm.trans hfound.identifier)) hne
    · rw [if_neg hkey, h.block]
      refine and_congr_right fun hname => exists_congr fun other => and_congr_left fun hfound => ?_
      have hother : c.blockName other = identifier := hfound.identifier.symm.trans hname
      constructor
      · exact fun hlast => .inr ⟨hlast, fun heq => hkey (heq.trans hother)⟩
      · rintro (rfl | ⟨hlast, -⟩)
        · exact absurd hother hkey
        · exact hlast

variable {number : Nat} {names : List String} {entries : List TypeTagSpec} {r : Registry}

namespace HoldsNames

variable (h : c.HoldsNames number names entries r)

include h

theorem not_frozen : ¬r.frozen = true := by simp [h.opened]

theorem canonical (text : String) : r.canonical text = c.fullIdentifier text := by
  rw [Registry.canonical, fullIdentifier, h.defaultNamespace]

theorem materialKeys : r.materials.keys = names := by
  rw [Table.keys, h.materials, List.map_map]
  exact List.map_id names

theorem typeTagKeys : r.typeTags.keys = entries.map TypeTagSpec.name := by
  have hkeys := congrArg (List.map Prod.fst) h.typeTags
  rwa [List.map_map, List.map_map] at hkeys

theorem typeTag_mem_iff {name : String} :
    name ∈ entries.map TypeTagSpec.name ↔ ∃ tag, r.typeTags.get? name = some tag := by
  rw [← h.typeTagKeys, Table.mem_keys_iff]

theorem material_mem_iff {name : String} :
    name ∈ names ↔ ∃ m, r.materials.get? name = some m := by
  rw [← Table.mem_keys_iff, h.materialKeys]

theorem typeTag_name {name : String} {tag : TypeTag} (htag : r.typeTags.get? name = some tag) :
    tag.name = name := by
  have hmem := List.mem_map_of_mem (f := fun e : String × TypeTag => (e.1, e.2.spec))
    ((Table.get?_eq_some_iff _ _ _).1 htag)
  rw [h.typeTags] at hmem
  obtain ⟨entry, -, heq⟩ := List.mem_map.1 hmem
  have hname : entry.name = name := congrArg Prod.fst heq
  have hspec : entry = tag.spec := congrArg Prod.snd heq
  rw [← hname, hspec]
  rfl

theorem addMaterial (name : String) :
    Reports (materialFaults names name)
      (fun next => c.HoldsNames number (names ++ [name]) entries next ∧ next.blocks = r.blocks)
      ((r.addMaterial name).map Prod.fst) := by
  rw [materialFaults, Registry.addMaterial, if_neg h.not_frozen]
  by_cases hname : name ∈ names
  · have hcontains : r.materials.contains name = true := by
      rwa [Table.contains_iff, h.materialKeys]
    rw [if_pos hname, if_pos hcontains]
    rfl
  · have hnew : name ∉ r.materials.keys := by rwa [h.materialKeys]
    rw [if_neg hname, if_neg (by rwa [Table.contains_iff])]
    refine reports_ok ⟨{ h with materials := ?_ }, rfl⟩
    rw [Table.entries_put_of_new hnew, h.materials, List.map_append, h.numbered]
    rfl

theorem putTypeTag {tag : TypeTag} {entry : TypeTagSpec} (hspec : tag.spec = entry)
    (hnew : entry.name ∉ entries.map TypeTagSpec.name) :
    c.HoldsNames number names (entries ++ [entry]) (r.putTypeTag tag).1 := by
  subst hspec
  have hkey : tag.name ∉ r.typeTags.keys := by rwa [h.typeTagKeys]
  refine { h with typeTags := ?_ }
  rw [Registry.putTypeTag, Table.entries_put_of_new hkey, List.map_append, h.typeTags,
    List.map_append]
  rfl

theorem addTypeTag (entry : TypeTagSpec) :
    Reports (typeTagFaults entries entry)
      (fun next => c.HoldsNames number names (entries ++ [entry]) next ∧ next.blocks = r.blocks)
      ((r.addTypeTag entry.name entry.parent).map Prod.fst) := by
  obtain ⟨name, parent⟩ := entry
  unfold typeTagFaults Registry.addTypeTag
  rw [if_neg h.not_frozen]
  dsimp only
  by_cases hname : name ∈ entries.map TypeTagSpec.name
  · have hcontains : r.typeTags.contains name = true := by
      rwa [Table.contains_iff, h.typeTagKeys]
    rw [if_pos hname, if_pos hcontains]
    rfl
  · rw [if_neg hname, List.nil_append,
      if_neg (by rwa [Table.contains_iff, h.typeTagKeys])]
    cases parent with
    | none => exact reports_ok ⟨h.putTypeTag rfl hname, rfl⟩
    | some parent =>
      dsimp only
      cases hparent : r.typeTags.get? parent with
      | none =>
        have hundefined : parent ∉ entries.map TypeTagSpec.name := by
          simp [h.typeTag_mem_iff, hparent]
        rw [if_neg hundefined]
        rfl
      | some tag =>
        have hdefined : parent ∈ entries.map TypeTagSpec.name := h.typeTag_mem_iff.2 ⟨tag, hparent⟩
        rw [if_pos hdefined]
        refine reports_ok ⟨h.putTypeTag ?_ hname, rfl⟩
        rw [← h.typeTag_name hparent]
        rfl

theorem addBlock {blocks : List BlockSpec} (hr : c.HoldsBlocks blocks r)
    (hnames : names = c.materials) (hentries : entries = c.typeTags) (entry : BlockSpec) :
    Reports (c.blockFaults entry)
      (fun next => c.HoldsNames number names entries next ∧ c.HoldsBlocks (blocks ++ [entry]) next)
      ((r.addBlock entry).map Prod.fst) := by
  subst hnames hentries
  unfold blockFaults Registry.addBlock
  rw [if_neg h.not_frozen]
  cases htag : r.typeTags.get? entry.typeTag with
  | none =>
    have hundefined : entry.typeTag ∉ c.typeTags.map TypeTagSpec.name := by
      simp [h.typeTag_mem_iff, htag]
    rw [if_neg hundefined]
    rfl
  | some tag =>
    rw [if_pos (h.typeTag_mem_iff.2 ⟨tag, htag⟩)]
    cases hmaterial : r.materials.get? entry.material with
    | none =>
      have hundefined : entry.material ∉ c.materials := by simp [h.material_mem_iff, hmaterial]
      rw [if_neg hundefined]
      rfl
    | some m =>
      rw [if_pos (h.material_mem_iff.2 ⟨m, hmaterial⟩)]
      refine reports_ok ⟨{ h with }, ?_⟩
      have hb : c.Describes r entry
          ⟨r.canonical entry.identifier, tag, m, entry.isEmpty.getD false⟩ :=
        ⟨h.canonical _, htag, hmaterial, rfl⟩
      have hput := hr.put hb
      rwa [blockName, ← h.canonical] at hput

end HoldsNames

theorem holdsNames_empty (c : Catalog) (number : Nat) :
    c.HoldsNames number [] [] (.empty number c.tagPrefixes c.defaultNamespace) :=
  ⟨rfl, rfl, rfl, rfl, rfl⟩

theorem holdsBlocks_nil (h : r.blocks = .empty) : c.HoldsBlocks [] r where
  keys := by rw [h]; rfl
  block identifier b := by
    have hnone : ∀ entry, ¬IsLast c.blockName [] entry := fun entry hlast => by cases hlast.mem
    simp [h, hnone]

/-- Materials, tags and blocks are defined one loop after the other. -/
theorem reports_define (c : Catalog) (number : Nat) :
    Reports (faultsAlong materialFaults [] c.materials ++
        (faultsAlong typeTagFaults [] c.typeTags ++ c.blocks.flatMap c.blockFaults))
      (fun r => c.HoldsNames number c.materials c.typeTags r ∧ c.HoldsBlocks c.blocks r)
      (c.define number) := by
  have hmaterials : Reports (faultsAlong materialFaults [] c.materials)
      (fun r => c.HoldsNames number c.materials [] r ∧ r.blocks = .empty)
      (addMaterials (.empty number c.tagPrefixes c.defaultNamespace) c.materials) :=
    reports_foldlM (I := fun before r => c.HoldsNames number before [] r ∧ r.blocks = .empty)
      (fun before name r hr => hr.2 ▸ hr.1.addMaterial name) ⟨holdsNames_empty c number, rfl⟩ _
  refine hmaterials.bind fun r hr => ?_
  have htypeTags : Reports (faultsAlong typeTagFaults [] c.typeTags)
      (fun r => c.HoldsNames number c.materials c.typeTags r ∧ r.blocks = .empty)
      (addTypeTags r c.typeTags) :=
    reports_foldlM
      (I := fun before r => c.HoldsNames number c.materials before r ∧ r.blocks = .empty)
      (fun before entry r hr => hr.2 ▸ hr.1.addTypeTag entry) hr _
  refine htypeTags.bind fun r hr => ?_
  rw [← faultsAlong_const c.blockFaults []]
  exact reports_foldlM
    (I := fun before r => c.HoldsNames number c.materials c.typeTags r ∧ c.HoldsBlocks before r)
    (fun before entry r hr => hr.1.addBlock hr.2 rfl rfl entry) ⟨hr.1, holdsBlocks_nil hr.2⟩ _

theorem reports_fill (hnames : c.HoldsNames number names entries r)
    (hblocks : c.HoldsBlocks c.blocks r) {P : Registry → Prop} (hr : P r) :
    Reports c.fillFaults P (if (r.block? c.fillBlock).isSome then .ok r
      else .error (.fillBlockUndefined c.fillBlock)) := by
  have hfound : (r.block? c.fillBlock).isSome = true ↔
      c.fullIdentifier c.fillBlock ∈ c.blocks.map c.blockName := by
    rw [Registry.block?, hnames.canonical, Option.isSome_iff_exists, ← Table.mem_keys_iff,
      hblocks.keys, Predicate.mem_distinct]
  rw [fillFaults]
  by_cases h : c.fullIdentifier c.fillBlock ∈ c.blocks.map c.blockName
  · rw [if_pos h, if_pos (hfound.2 h)]
    exact reports_ok hr
  · rw [if_neg h, if_neg fun hsome => h (hfound.1 hsome)]
    rfl

theorem reports_registry (c : Catalog) (number : Nat) :
    Reports c.violations
      (fun r => c.HoldsNames number c.materials c.typeTags r ∧ c.HoldsBlocks c.blocks r)
      (c.registry number) := by
  have hregistry : c.registry number = ((c.define number).mapError .definition >>= fun r =>
      if (r.block? c.fillBlock).isSome then .ok r
      else .error (.fillBlockUndefined c.fillBlock)) := by
    rw [registry]
    cases c.define number <;> rfl
  rw [hregistry]
  exact ((reports_define c number).mapError .definition).bind fun r hr => reports_fill hr.1 hr.2 hr

theorem ListedBy.of_holds (hnames : c.HoldsNames number c.materials c.typeTags r)
    (hblocks : c.HoldsBlocks c.blocks r) : c.ListedBy number r where
  materials := by
    rw [Table.values, hnames.materials, List.map_map]
    rfl
  typeTags := by
    have hvalues := congrArg (List.map Prod.snd) hnames.typeTags
    rw [List.map_map, List.map_map] at hvalues
    rw [Table.values, List.map_map]
    exact hvalues.trans (List.map_id _)
  blocks := by
    rw [← hblocks.keys]
    exact Table.map_values_eq_keys fun identifier b hb => ((hblocks.block identifier b).1 hb).1
  block b := by
    simp only [Table.mem_values_iff, hblocks.block]
    simp

section Coherence

theorem materialFaults_eq_nil_iff {before : List String} {name : String} :
    materialFaults before name = [] ↔ name ∉ before := by
  simp [materialFaults]

theorem typeTagFaults_eq_nil_iff {before : List TypeTagSpec} {entry : TypeTagSpec} :
    typeTagFaults before entry = [] ↔ entry.name ∉ before.map TypeTagSpec.name ∧
      ∀ parent, entry.parent = some parent → parent ∈ before.map TypeTagSpec.name := by
  obtain ⟨name, parent⟩ := entry
  cases parent <;> simp [typeTagFaults]

theorem blockFaults_eq_nil_iff {entry : BlockSpec} :
    c.blockFaults entry = [] ↔
      entry.typeTag ∈ c.typeTags.map TypeTagSpec.name ∧ entry.material ∈ c.materials := by
  simp [blockFaults]

theorem fillFaults_eq_nil_iff :
    c.fillFaults = [] ↔ ∃ entry ∈ c.blocks, c.blockName entry = c.fullIdentifier c.fillBlock := by
  simp [fillFaults]

theorem violations_eq_nil_iff : c.violations = [] ↔ c.Coherent := by
  have hmaterials : c.materials.Nodup ↔
      ∀ before name behind, c.materials = before ++ name :: behind → name ∉ before := by
    simpa using @nodup_map_iff _ _ id c.materials
  simp only [violations, List.append_eq_nil_iff, List.map_eq_nil_iff, faultsAlong_eq_nil_iff,
    List.nil_append, materialFaults_eq_nil_iff, typeTagFaults_eq_nil_iff, List.flatMap_eq_nil_iff,
    blockFaults_eq_nil_iff, fillFaults_eq_nil_iff, ← hmaterials]
  constructor
  · rintro ⟨⟨hnodup, htypeTags, hblocks⟩, hfill⟩
    refine ⟨hnodup, nodup_map_iff.2 fun before entry behind heq => ?_,
      fun before entry behind heq => ?_, hblocks, hfill⟩
    · exact (htypeTags before entry behind heq).1
    · exact (htypeTags before entry behind heq).2
  · intro h
    refine ⟨⟨h.materials, fun before entry behind heq => ?_, h.blocks⟩, h.fillBlock⟩
    exact ⟨nodup_map_iff.1 h.typeTags before entry behind heq, h.parents before entry behind heq⟩

end Coherence

/-- A catalog makes a registry if and only if its entries fit together, and then the registry lists
them. Otherwise the error is the first of all that does not fit. -/
theorem registry_reports (c : Catalog) (number : Nat) :
    ((∃ r, c.registry number = .ok r) ↔ c.Coherent) ∧
      (∀ r, c.registry number = .ok r → c.ListedBy number r) ∧
      ∀ e, c.registry number = .error e ↔ c.violations.head? = some e := by
  have hreports := reports_registry c number
  refine ⟨hreports.exists_ok_iff.trans violations_eq_nil_iff, fun r hr => ?_,
    fun e => hreports.error_iff⟩
  rw [hr] at hreports
  exact .of_holds hreports.2.1 hreports.2.2

/-- A tag that is there already and derives from no tag in front of it. -/
example : typeTagFaults [⟨"core.Solid", none⟩] ⟨"core.Solid", some "core.Rock"⟩ =
    [.typeTagDefined "core.Solid", .parentUndefined "core.Solid" "core.Rock"] := by decide

end Catalog

end VoxelQuery
