import VoxelQuery.Proofs.History
import VoxelQuery.Proofs.Registry.Resolution

/-! The tables of a registry. Whatever is called on it, and whether the calls succeed or fail, the
tables refer to nothing outside themselves, tags stand behind the tags that they derive from, the
order is that of the first definitions, and nothing that was found once is lost. -/
namespace VoxelQuery.Registry

/-- What a definition adds. -/
inductive Entry where
  | material (m : Material)
  | typeTag (tag : TypeTag)
  | block (b : Block)

namespace Entry

def material? : Entry → Option Material
  | material m => some m
  | _ => none

def typeTag? : Entry → Option TypeTag
  | typeTag tag => some tag
  | _ => none

def block? : Entry → Option Block
  | block b => some b
  | _ => none

end Entry

/-- A call with its result. Freezing gives no entry. -/
def attempt (r : Registry) : Step → Except DefinitionError (Registry × Option Entry)
  | .material name => (r.addMaterial name).map fun made => (made.1, some (.material made.2))
  | .typeTag name parent =>
    (r.addTypeTag name parent).map fun made => (made.1, some (.typeTag made.2))
  | .block entry => (r.addBlock entry).map fun made => (made.1, some (.block made.2))
  | .freeze => .ok (r.freeze, none)

def entry? (r : Registry) (s : Step) : Option Entry :=
  match r.attempt s with
  | .ok (_, entry) => entry
  | .error _ => none

/-- The entries that the calls of a run give, in their order. -/
def entries (r : Registry) (steps : List Step) : List Entry := trace step entry? r steps

def record (r : Registry) : Entry → Registry
  | .material m => { r with materials := r.materials.put m.name m }
  | .typeTag tag => { r with typeTags := r.typeTags.put tag.name tag }
  | .block b => { r with blocks := r.blocks.put b.identifier b }

/-- Materials and tags are new, tags derive from tags that are there, blocks have a namespace. -/
def Fits (r : Registry) : Entry → Prop
  | .material m => m.name ∉ r.materials.keys
  | .typeTag tag =>
    tag.name ∉ r.typeTags.keys ∧ ∀ parent, tag.parent? = some parent → parent ∈ r.typeTags.values
  | .block b => ':' ∈ b.identifier.toList

variable {r next : Registry}

theorem step_eq_after_attempt (r : Registry) (s : Step) : r.step s = r.after (r.attempt s) := by
  cases s with
  | material name => cases h : r.addMaterial name <;> simp [step, attempt, after, h, Except.map]
  | typeTag name parent =>
    cases h : r.addTypeTag name parent <;> simp [step, attempt, after, h, Except.map]
  | block entry => cases h : r.addBlock entry <;> simp [step, attempt, after, h, Except.map]
  | freeze => rfl

/-- A call that fails changes nothing. -/
theorem step_of_attempt_error {s : Step} {e : DefinitionError} (h : r.attempt s = .error e) :
    r.step s = r := by
  rw [step_eq_after_attempt, h, after]

theorem colon_mem_canonical (r : Registry) (text : String) : ':' ∈ (r.canonical text).toList := by
  unfold canonical
  split
  · assumption
  · simp

theorem addMaterial_cases (r : Registry) (name : String) :
    (∃ e, r.addMaterial name = .error e) ∨
      ∃ m, r.addMaterial name = .ok (r.record (.material m), m) ∧ r.frozen = false ∧
        r.Fits (.material m) := by
  unfold addMaterial
  split
  · exact .inl ⟨_, rfl⟩
  · next hfrozen =>
    split
    · exact .inl ⟨_, rfl⟩
    · next hnew =>
      rw [Table.contains_iff] at hnew
      exact .inr ⟨⟨r.number, name⟩, rfl, by simpa using hfrozen, hnew⟩

theorem addTypeTag_cases (r : Registry) (name : String) (parent : Option String) :
    (∃ e, r.addTypeTag name parent = .error e) ∨
      ∃ tag, r.addTypeTag name parent = .ok (r.record (.typeTag tag), tag) ∧ r.frozen = false ∧
        r.Fits (.typeTag tag) := by
  unfold addTypeTag
  split
  · exact .inl ⟨_, rfl⟩
  · next hfrozen =>
    have hopen : r.frozen = false := by simpa using hfrozen
    split
    · exact .inl ⟨_, rfl⟩
    · next hnew =>
      rw [Table.contains_iff] at hnew
      split
      · exact .inr ⟨.root r.number name, rfl, hopen, hnew, by simp [TypeTag.parent?]⟩
      · split
        · exact .inl ⟨_, rfl⟩
        · next parentName _ parentTag hparent =>
          have hmem : parentTag ∈ r.typeTags.values := Table.mem_values_iff.2 ⟨parentName, hparent⟩
          exact .inr ⟨.derived name parentTag, rfl, hopen, hnew, by simpa [TypeTag.parent?] using hmem⟩

theorem addBlock_cases (r : Registry) (entry : BlockSpec) :
    (∃ e, r.addBlock entry = .error e) ∨
      ∃ b, r.addBlock entry = .ok (r.record (.block b), b) ∧ r.frozen = false ∧
        r.Fits (.block b) := by
  unfold addBlock
  split
  · exact .inl ⟨_, rfl⟩
  · next hfrozen =>
    split
    · exact .inl ⟨_, rfl⟩
    · next typeTag htag =>
      split
      · exact .inl ⟨_, rfl⟩
      · next material hmaterial =>
        have hcolon := r.colon_mem_canonical entry.identifier
        exact .inr ⟨⟨r.canonical entry.identifier, typeTag, material, entry.isEmpty.getD false⟩,
          rfl, by simpa using hfrozen, hcolon⟩

/-- All that a call can do: nothing, closing the registry, or recording one entry. -/
theorem step_cases (r : Registry) (s : Step) :
    r.entry? s = none ∧ (r.step s = r ∨ r.step s = r.freeze) ∨
      ∃ entry, r.entry? s = some entry ∧ r.frozen = false ∧ r.Fits entry ∧
        r.step s = r.record entry := by
  rw [step_eq_after_attempt, entry?]
  cases s with
  | material name =>
    rcases r.addMaterial_cases name with ⟨e, h⟩ | ⟨m, h, hopen, hfits⟩
    · simp [attempt, h, after, Except.map]
    · refine .inr ⟨.material m, ?_⟩
      simp [attempt, h, after, Except.map, hopen, hfits]
  | typeTag name parent =>
    rcases r.addTypeTag_cases name parent with ⟨e, h⟩ | ⟨tag, h, hopen, hfits⟩
    · simp [attempt, h, after, Except.map]
    · refine .inr ⟨.typeTag tag, ?_⟩
      simp [attempt, h, after, Except.map, hopen, hfits]
  | block entry =>
    rcases r.addBlock_cases entry with ⟨e, h⟩ | ⟨b, h, hopen, hfits⟩
    · simp [attempt, h, after, Except.map]
    · refine .inr ⟨.block b, ?_⟩
      simp [attempt, h, after, Except.map, hopen, hfits]
  | freeze => exact .inl ⟨rfl, .inr rfl⟩

/-- Every tag stands behind the tag that it derives from. -/
def ParentsFirst (tags : List TypeTag) : Prop :=
  ∀ before tag behind, tags = before ++ tag :: behind →
    ∀ parent, tag.parent? = some parent → parent ∈ before

theorem ParentsFirst.concat {tags : List TypeTag} {tag : TypeTag} (h : ParentsFirst tags)
    (hparent : ∀ parent, tag.parent? = some parent → parent ∈ tags) :
    ParentsFirst (tags ++ [tag]) := by
  intro before found behind heq
  rcases List.eq_nil_or_concat behind with rfl | ⟨behind, last, rfl⟩
  · obtain ⟨rfl, hlast⟩ := List.append_inj' heq rfl
    rwa [← List.singleton_inj.1 hlast]
  · rw [List.concat_eq_append, ← List.cons_append, ← List.append_assoc] at heq
    exact h before found behind (List.append_inj' heq rfl).1

/-- The whole line of ancestors stands in front of a tag, from the root on. -/
theorem ParentsFirst.lineage_sublist {tags : List TypeTag} (h : ParentsFirst tags)
    {before behind : List TypeTag} {tag : TypeTag} (heq : tags = before ++ tag :: behind) :
    tag.lineage.reverse.Sublist (before ++ [tag]) := by
  induction tag generalizing before behind with
  | root number name => simp [TypeTag.lineage]
  | derived name parent ih =>
    obtain ⟨front, rest, rfl⟩ := List.append_of_mem (h _ _ _ heq parent rfl)
    rw [List.append_assoc, List.cons_append] at heq
    rw [TypeTag.lineage, List.reverse_cons]
    refine List.Sublist.append ((ih heq).trans ?_) (List.Sublist.refl _)
    rw [List.append_sublist_append_left]
    exact List.Sublist.cons_cons _ (List.nil_sublist _)

/-- Tables that refer to nothing outside themselves. -/
structure Closed (r : Registry) : Prop extends r.Sound where
  parent : ∀ before tag behind, r.typeTags.values = before ++ tag :: behind →
    ∀ parent, tag.parent? = some parent →
      r.typeTags.get? parent.name = some parent ∧ parent ∈ before
  lineage : ∀ before tag behind, r.typeTags.values = before ++ tag :: behind →
    tag.lineage.reverse.Sublist (before ++ [tag])
  namespaced : ∀ identifier ∈ r.blocks.keys, ':' ∈ identifier.toList

theorem parentsFirst_step (h : ParentsFirst r.typeTags.values) (s : Step) :
    ParentsFirst (r.step s).typeTags.values := by
  rcases r.step_cases s with ⟨-, heq | heq⟩ | ⟨entry, -, -, hfits, heq⟩
  · rwa [heq]
  · rwa [heq]
  · rw [heq]
    cases entry with
    | material m => exact h
    | block b => exact h
    | typeTag tag =>
      have hvalues : (r.record (.typeTag tag)).typeTags.values = r.typeTags.values ++ [tag] :=
        Table.values_put_of_new hfits.1
      rw [hvalues]
      exact h.concat hfits.2

theorem namespaced_step (h : ∀ identifier ∈ r.blocks.keys, ':' ∈ identifier.toList) (s : Step) :
    ∀ identifier ∈ (r.step s).blocks.keys, ':' ∈ identifier.toList := by
  rcases r.step_cases s with ⟨-, heq | heq⟩ | ⟨entry, -, -, hfits, heq⟩
  · rwa [heq]
  · rwa [heq]
  · rw [heq]
    cases entry with
    | material m => exact h
    | typeTag tag => exact h
    | block b =>
      intro identifier hmem
      rcases Table.mem_keys_put_iff.1 hmem with rfl | hold
      · exact hfits
      · exact h identifier hold

theorem Closed.empty (number : Nat) (tagPrefixes : List String) (defaultNamespace : String) :
    Closed (.empty number tagPrefixes defaultNamespace) where
  toSound := .empty number tagPrefixes defaultNamespace
  parent before tag behind heq := by simp [Registry.empty, Table.values] at heq
  lineage before tag behind heq := by simp [Registry.empty, Table.values] at heq
  namespaced identifier h := by cases h

theorem Closed.step (h : r.Closed) (s : Step) : (r.step s).Closed := by
  have hfirst := parentsFirst_step (fun before tag behind heq parent hparent =>
    (h.parent before tag behind heq parent hparent).2) s
  have hsound := h.toSound.grows (r.grows_step s)
  refine ⟨hsound, ?_, fun before tag behind heq => hfirst.lineage_sublist heq,
    namespaced_step h.namespaced s⟩
  intro before tag behind heq parent hparent
  have hbefore := hfirst before tag behind heq parent hparent
  refine ⟨?_, hbefore⟩
  have hmem : parent ∈ (r.step s).typeTags.values := by
    rw [heq]
    exact List.mem_append_left _ hbefore
  obtain ⟨name, hname⟩ := Table.mem_values_iff.1 hmem
  rwa [(hsound.typeTag name parent hname).1]

theorem Closed.run (h : r.Closed) (steps : List Step) : (r.run steps).Closed := by
  induction steps generalizing r with
  | nil => exact h
  | cons s rest ih => exact ih (h.step s)

/-- Tables that list what a run gave: materials and tags in its order, and blocks in the order in
which their identifiers came first, each as it was given last. -/
structure Records (r : Registry) (given : List Entry) : Prop where
  materials : r.materials.values = given.filterMap Entry.material?
  typeTags : r.typeTags.values = given.filterMap Entry.typeTag?
  blocks : r.blocks.values.map Block.identifier =
    Predicate.distinct ((given.filterMap Entry.block?).map Block.identifier)
  block : ∀ b, b ∈ r.blocks.values ↔
    IsLast Block.identifier (given.filterMap Entry.block?) b

/-- What recording does to a view of a registry, a run does with all that it gives. -/
theorem view_run {ω : Type} (view : Registry → ω) (write : ω → Entry → ω)
    (hfreeze : ∀ r, view r.freeze = view r)
    (hrecord : ∀ r entry, Fits r entry → view (r.record entry) = write (view r) entry)
    (r : Registry) (steps : List Step) :
    view (r.run steps) = (r.entries steps).foldl write (view r) := by
  have hkeeps : ∀ (r : Registry) (s : Step), True → True := fun _ _ _ => trivial
  refine foldl_eq_foldl_trace view write hkeeps ?_ trivial steps
  intro r s _
  rcases r.step_cases s with ⟨hnone, heq | heq⟩ | ⟨entry, hsome, -, hfits, heq⟩
  · rw [heq, hnone, Option.elim_none]
  · rw [heq, hnone, Option.elim_none, hfreeze]
  · rw [heq, hsome, Option.elim_some, hrecord r entry hfits]

theorem materials_run (r : Registry) (steps : List Step) :
    (r.run steps).materials.values =
      r.materials.values ++ (r.entries steps).filterMap Entry.material? := by
  rw [← foldl_append_toList]
  refine view_run (fun r => r.materials.values)
    (fun found entry => found ++ entry.material?.toList) (fun _ => rfl) ?_ r steps
  intro r entry hfits
  cases entry with
  | material m => exact Table.values_put_of_new hfits
  | typeTag tag => exact (List.append_nil _).symm
  | block b => exact (List.append_nil _).symm

theorem typeTags_run (r : Registry) (steps : List Step) :
    (r.run steps).typeTags.values =
      r.typeTags.values ++ (r.entries steps).filterMap Entry.typeTag? := by
  rw [← foldl_append_toList]
  refine view_run (fun r => r.typeTags.values)
    (fun found entry => found ++ entry.typeTag?.toList) (fun _ => rfl) ?_ r steps
  intro r entry hfits
  cases entry with
  | material m => exact (List.append_nil _).symm
  | typeTag tag => exact Table.values_put_of_new hfits.1
  | block b => exact (List.append_nil _).symm

theorem blocks_run (r : Registry) (steps : List Step) :
    (r.run steps).blocks =
      ((r.entries steps).filterMap Entry.block?).foldl (fun t b => t.put b.identifier b) r.blocks := by
  rw [List.foldl_filterMap]
  refine view_run (fun r => r.blocks) _ (fun _ => rfl) ?_ r steps
  intro r entry _
  cases entry <;> rfl

theorem records_run (number : Nat) (tagPrefixes : List String) (defaultNamespace : String)
    (steps : List Step) :
    Records ((empty number tagPrefixes defaultNamespace).run steps)
      ((empty number tagPrefixes defaultNamespace).entries steps) := by
  have hclosed := (Closed.empty number tagPrefixes defaultNamespace).run steps
  have hblocks := blocks_run (empty number tagPrefixes defaultNamespace) steps
  refine ⟨materials_run _ _, typeTags_run _ _, ?_, fun b => ?_⟩
  · rw [Table.map_values_eq_keys fun identifier b h => (hclosed.block identifier b h).1, hblocks,
      Table.keys_foldl_put Block.identifier fun _ b => b]
    rfl
  · rw [Table.mem_values_iff, hblocks]
    simp only [Table.get?_foldl_put_iff fun b : Block => b]
    constructor
    · rintro ⟨identifier, ⟨found, hlast, -, rfl⟩ | ⟨-, hget⟩⟩
      · exact hlast
      · cases hget
    · exact fun hlast => ⟨b.identifier, .inl ⟨b, hlast, rfl, rfl⟩⟩

theorem extends_run (r : Registry) (steps : List Step) : r.Extends (r.run steps) := by
  induction steps generalizing r with
  | nil => exact .refl r
  | cons s rest ih => exact (Extends.of_grows (r.grows_step s)).trans (ih (r.step s))

/-- The same tables, and the same answer to every name. -/
structure Agrees (r next : Registry) : Prop where
  materials : next.materials = r.materials
  typeTags : next.typeTags = r.typeTags
  blocks : next.blocks = r.blocks
  block? : ∀ text, next.block? text = r.block? text
  identifier? : ∀ text, next.identifier? text = r.identifier? text
  typeTag? : ∀ text, next.typeTag? text = r.typeTag? text
  material? : ∀ text, next.material? text = r.material? text

theorem agrees_freeze (r : Registry) : r.Agrees r.freeze :=
  ⟨rfl, rfl, rfl, fun _ => rfl, fun _ => rfl, fun _ => rfl, fun _ => rfl⟩

theorem run_of_frozen (h : r.frozen = true) (steps : List Step) : r.run steps = r := by
  induction steps with
  | nil => rfl
  | cons s rest ih =>
    have hstep : r.step s = r := by
      rcases r.step_cases s with ⟨-, heq | heq⟩ | ⟨entry, -, hopen, -, -⟩
      · exact heq
      · rw [heq, freeze, ← h]
      · rw [h] at hopen
        cases hopen
    have hrun : r.run (s :: rest) = (r.step s).run rest := rfl
    rw [hrun, hstep, ih]

/-- What holds of the tables after any calls on an empty registry. -/
theorem closed_run (number : Nat) (tagPrefixes : List String) (defaultNamespace : String)
    (steps : List Step) :
    let start := empty number tagPrefixes defaultNamespace
    let r := start.run steps
    r.Closed ∧ r.Records (start.entries steps) ∧
      (∀ later, r.Within (r.run later) ∧ ∀ text identifier, r.identifier? text = some identifier →
        (r.run later).identifier? text = some identifier) ∧
      (∀ s e, r.attempt s = .error e → r.step s = r) ∧
      ∀ later, r.Agrees (r.run (.freeze :: later)) := by
  intro start r
  have hclosed : r.Closed := (Closed.empty number tagPrefixes defaultNamespace).run steps
  refine ⟨hclosed, records_run number tagPrefixes defaultNamespace steps, fun later => ?_,
    fun s e h => step_of_attempt_error h, fun later => ?_⟩
  · have hextends := r.extends_run later
    exact ⟨hextends.within, fun text identifier h => hextends.identifier? hclosed.toSound h⟩
  · have hrun : r.run (.freeze :: later) = r.freeze := run_of_frozen rfl later
    rw [hrun]
    exact r.agrees_freeze

end VoxelQuery.Registry
