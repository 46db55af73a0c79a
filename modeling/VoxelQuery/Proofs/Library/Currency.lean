import VoxelQuery.Proofs.Library.Listing

/-! Which entries of a listing are current. Presets, declared queries and saved queries share the
names of one store and are listed apart from each other, so an entry says what its name stands for
as long as no other source was the last to take the name. -/
namespace VoxelQuery

theorem Preset.name_injective {p q : Preset} (h : p.name = q.name) : p = q := by
  cases p <;> cases q <;> first | rfl | exact absurd h (by decide)

namespace Library

open Database (saveRow)

/-- The name stands for what the entry says: for a preset that the registry supports, or for a query
with the predicate that its text was compiled to when it was registered. -/
inductive Describes (r : Registry) (history : List Registration) (store : QueryStore) :
    Listing → Prop
  | preset {preset : Preset} {p : Predicate} (installed : preset.predicate? r = some p)
      (stored : store.lookup? preset.name = some p) : Describes r history store (.ofPreset preset)
  | query {g : Registration} (registered : g ∈ history)
      (stored : store.lookup? g.name = some g.predicate) :
      Describes r history store (.ofSpec g.source g.query)

/-- The source of the entry was the last to take its name. For a preset this means that nothing else
ever took it. -/
def Leads (history : List Registration) (e : Listing) : Prop :=
  (∃ g, IsLast Registration.name history g ∧ g.name = e.name ∧ g.source = e.source) ∨
    (∀ g ∈ history, g.name ≠ e.name) ∧ e.source = .preset

/-- The name stands for something else, or the entry is a row from before. -/
inductive Displaced (history : List Registration) (store : QueryStore)
    (table : Table String SavedQuery) (e : Listing) : Prop
  | overtaken {g : Registration} (last : IsLast Registration.name history g)
      (name : g.name = e.name) (source : g.source ≠ e.source)
      (stored : store.lookup? e.name = some g.predicate) : Displaced history store table e
  | before (unused : ∀ g ∈ history, g.name ≠ e.name) (source : e.source = .saved)
      (row : e.name ∈ table.keys) : Displaced history store table e

/-- An entry is current if its source leads, and displaced if it does not. -/
structure Standing (r : Registry) (history : List Registration) (store : QueryStore)
    (table : Table String SavedQuery) (e : Listing) : Prop where
  current : Leads history e → Describes r history store e
  displaced : ¬Leads history e → Displaced history store table e

theorem Registration.source_ne_preset (g : Registration) : g.source ≠ .preset := by
  cases g <;> exact nofun

variable {history : List Registration}

theorem name_of_declaration? {g : Registration} {q : QuerySpec} (h : g.declaration? = some q) :
    q.name = g.name := by
  cases g with
  | declared q p =>
    cases h
    rfl
  | saved stamp q p => cases h

theorem name_of_definition? {g : Registration} {d : Stamp × QuerySpec}
    (h : g.definition? = some d) : definedName d = g.name := by
  cases g with
  | declared q p => cases h
  | saved stamp q p =>
    cases h
    rfl

theorem isLast_declaration {g : Registration} {q : QuerySpec}
    (h : IsLast Registration.name history g) (hg : g.declaration? = some q) :
    IsLast QuerySpec.name (history.filterMap Registration.declaration?) q :=
  h.filterMap hg fun _ _ => name_of_declaration?

theorem isLast_definition {g : Registration} {d : Stamp × QuerySpec}
    (h : IsLast Registration.name history g) (hg : g.definition? = some d) :
    IsLast definedName (history.filterMap Registration.definition?) d :=
  h.filterMap hg fun _ _ => name_of_definition?

theorem exists_of_declaration {q : QuerySpec}
    (h : q ∈ history.filterMap Registration.declaration?) : ∃ g ∈ history, g.name = q.name := by
  obtain ⟨g, hg, hq⟩ := List.mem_filterMap.1 h
  exact ⟨g, hg, (name_of_declaration? hq).symm⟩

theorem exists_of_definition {d : Stamp × QuerySpec}
    (h : d ∈ history.filterMap Registration.definition?) : ∃ g ∈ history, g.name = definedName d := by
  obtain ⟨g, hg, hd⟩ := List.mem_filterMap.1 h
  exact ⟨g, hg, (name_of_definition? hd).symm⟩

section Sources

variable {r : Registry} {store : QueryStore} {table : Table String SavedQuery}

/-- The store after some registrations that start from the presets of a registry. -/
def Holds (r : Registry) (history : List Registration) (store : QueryStore) : Prop :=
  ∀ name p, store.lookup? name = some p ↔
    (∃ g, IsLast Registration.name history g ∧ g.name = name ∧ g.predicate = p) ∨
      (∀ g ∈ history, g.name ≠ name) ∧ (Table.ofPairs (Preset.supported r)).get? name = some p

theorem holds_foldl_record (r : Registry) (defaultProperty fillBlock : String) (db : Database)
    (history : List Registration) :
    Holds r history
      (history.foldl Library.record ⟨.create r defaultProperty fillBlock, db⟩).context.store := by
  intro name p
  rw [QueryStore.lookup?, predicates_foldl_record]
  exact Table.get?_foldl_put_iff Registration.predicate

theorem Holds.stored (h : Holds r history store) {g : Registration}
    (hg : IsLast Registration.name history g) : store.lookup? g.name = some g.predicate :=
  (h g.name g.predicate).2 (.inl ⟨g, hg, rfl, rfl⟩)

/-- An entry that does not lead was overtaken, or comes from before. -/
theorem Holds.displaced (h : Holds r history store) {e : Listing} (hleads : ¬Leads history e)
    (hunused : (∀ g ∈ history, g.name ≠ e.name) → e.source ≠ .preset →
      e.source = .saved ∧ e.name ∈ table.keys) : Displaced history store table e := by
  by_cases hused : ∃ g ∈ history, g.name = e.name
  · obtain ⟨g, hg, hname⟩ := exists_isLast hused
    refine .overtaken hg hname (fun hsource => hleads (.inl ⟨g, hg, hname, hsource⟩)) ?_
    rw [← hname]
    exact h.stored hg
  · have hnone : ∀ g ∈ history, g.name ≠ e.name := fun g hg hname => hused ⟨g, hg, hname⟩
    obtain ⟨hsource, hrow⟩ := hunused hnone fun hsource => hleads (.inr ⟨hnone, hsource⟩)
    exact .before hnone hsource hrow

theorem Holds.standing_preset (h : Holds r history store) {preset : Preset}
    (hregistered : store.Registered preset.name) :
    Standing r history store table (.ofPreset preset) := by
  refine ⟨?_, fun hleads => h.displaced hleads fun _ hsource => absurd rfl hsource⟩
  rintro (⟨g, -, -, hsource⟩ | ⟨hnone, -⟩)
  · exact absurd hsource g.source_ne_preset
  · obtain ⟨p, hp⟩ := hregistered
    rcases (h preset.name p).1 hp with ⟨g, hg, hname, -⟩ | ⟨-, hpreset⟩
    · exact absurd hname (hnone g hg.mem)
    · obtain ⟨other, -, hother⟩ := List.mem_filterMap.1 (Table.mem_of_get?_ofPairs hpreset)
      obtain ⟨q, hq, heq⟩ := Option.map_eq_some_iff.1 hother
      obtain ⟨hname, rfl⟩ := Prod.mk.inj heq
      cases Preset.name_injective hname
      exact .preset hq hp

theorem Holds.standing_declared (h : Holds r history store) {q : QuerySpec}
    (hq : IsLast QuerySpec.name (history.filterMap Registration.declaration?) q) :
    Standing r history store table (.ofSpec .declared q) := by
  refine ⟨?_, fun hleads => h.displaced hleads fun hunused _ => ?_⟩
  -- The last declaration of the name is the last registration, so it is the one in the store.
  · rintro (⟨g, hg, hname, hsource⟩ | ⟨-, hsource⟩)
    · cases g with
      | declared q' p =>
        cases hq.unique (isLast_declaration hg rfl) hname.symm
        exact .query hg.mem (h.stored hg)
      | saved stamp q' p => cases hsource
    · cases hsource
  · obtain ⟨g, hg, hname⟩ := exists_of_declaration hq.mem
    exact absurd hname (hunused g hg)

theorem Holds.standing_saved (h : Holds r history store) {row : SavedQuery}
    (hrow : GivenLast table (history.filterMap Registration.definition?) row.name row.spec) :
    Standing r history store table (.ofSpec .saved row.spec) := by
  refine ⟨?_, fun hleads => h.displaced hleads fun hunused _ => ?_⟩
  · rintro (⟨g, hg, hname, hsource⟩ | ⟨-, hsource⟩)
    · cases g with
      | declared q p => cases hsource
      | saved stamp q p =>
        have hlast := isLast_definition hg rfl
        rcases hrow with ⟨d, hd, hdname, hspec⟩ | ⟨hnone, -⟩
        · cases hd.unique hlast (hdname.trans hname.symm)
          rw [← hspec]
          exact .query hg.mem (h.stored hg)
        · exact absurd hname (hnone _ hlast.mem)
    · cases hsource
  · rcases hrow with ⟨d, hd, hname, -⟩ | ⟨-, old, hold, -⟩
    · obtain ⟨g, hg, hsame⟩ := exists_of_definition hd.mem
      exact absurd (hsame.trans hname) (hunused g hg)
    · exact ⟨rfl, (Table.mem_keys_iff _ _).2 ⟨old, hold⟩⟩

end Sources

/-- In a context over any registry and after any requests, an entry whose source was the last to take
its name is current. Any other entry was overtaken by another source, or is a row that was saved
before and that nothing was registered for. -/
theorem standing_performAll (r : Registry) (defaultProperty fillBlock : String) {db : Database}
    {table : Table String SavedQuery} (hdb : db.table? = some table) (hkeyed : Keyed table)
    (requests : List Request) :
    let start : Library := ⟨.create r defaultProperty fillBlock, db⟩
    let history := start.registrations requests
    let store := (start.performAll requests).context.store
    ∃ listings, (start.performAll requests).list = .ok listings ∧
      ∀ e ∈ listings, Standing r history store table e := by
  intro start history store
  have hopen : start.Open := by
    refine ⟨rfl, fun found hfound => ?_⟩
    rw [hdb] at hfound
    cases hfound
    exact hkeyed
  have hrun : start.performAll requests = history.foldl Library.record start :=
    hopen.performAll_eq requests
  have hstore : Holds r history store := by
    have hholds := holds_foldl_record r defaultProperty fillBlock db history
    rwa [← hrun] at hholds
  have hdeclared : (start.performAll requests).context.declared =
      declaredTable (history.filterMap Registration.declaration?) := by
    rw [hrun]
    exact declared_foldl_record start history
  have htable : (start.performAll requests).database.table? =
      some ((history.filterMap Registration.definition?).foldl saveRow table) := by
    rw [hrun]
    exact table?_foldl_record start history hdb
  obtain ⟨rows, hrows, hsaved⟩ := exists_savedPart hkeyed htable
  refine ⟨_, list_eq hrows, fun e he => ?_⟩
  rcases List.mem_append.1 he with hfront | hrow
  · rcases List.mem_append.1 hfront with hpreset | hspec
    · obtain ⟨preset, hmem, rfl⟩ := List.mem_map.1 hpreset
      exact hstore.standing_preset (Option.isSome_iff_exists.1 (List.mem_filter.1 hmem).2)
    · obtain ⟨q, hq, rfl⟩ := List.mem_map.1 hspec
      rw [hdeclared] at hq
      exact hstore.standing_declared ((declaredPart_declaredTable _).given q hq)
  · obtain ⟨row, hmem, rfl⟩ := List.mem_map.1 hrow
    exact hstore.standing_saved (hsaved.given row hmem)

/-- A name is declared and then defined. -/
def renamed : List Request :=
  [.declare ⟨"open", none, "@airAbove"⟩, .define ⟨"2", "2027"⟩ ⟨"open", none, "!@airAbove"⟩]

theorem standing_performAll_renamed :
    oneRow.table? = some (Table.empty.put roomyRow.name roomyRow) ∧
      Keyed (Table.empty.put roomyRow.name roomyRow) ∧
      let start : Library := ⟨.create Context.bare.registry "variant" "core:air", oneRow⟩
      let history := start.registrations renamed
      let store := (start.performAll renamed).context.store
      ∃ listings, (start.performAll renamed).list = .ok listings ∧ ∀ e ∈ listings,
        Standing Context.bare.registry history store (Table.empty.put roomyRow.name roomyRow) e :=
  ⟨rfl, keyed_oneRow _ rfl,
    standing_performAll Context.bare.registry "variant" "core:air" rfl (keyed_oneRow _ rfl) renamed⟩

/-- The name of a preset is defined that the registry does not support. -/
def unsupported : List Request := [.define ⟨"2", "2027"⟩ ⟨"hasWater", none, "@nothing"⟩]

/-- The preset is listed although there is no predicate that it could stand for. -/
theorem not_describes_unsupported :
    let start : Library := ⟨Context.bare, oneRow⟩
    ∃ listings, (start.performAll unsupported).list = .ok listings ∧
      Listing.ofPreset .hasWater ∈ listings ∧
      Preset.hasWater.predicate? start.context.registry = none ∧
      ¬Describes start.context.registry (start.registrations unsupported)
        (start.performAll unsupported).context.store (.ofPreset .hasWater) := by
  intro start
  have hnone : Preset.hasWater.predicate? start.context.registry = none := by decide
  refine ⟨_, by cbv, by decide, hnone, fun h => ?_⟩
  generalize he : Listing.ofPreset .hasWater = e at h
  cases h with
  | @preset preset p installed stored =>
    have hname : Preset.hasWater.name = preset.name := congrArg Listing.name he
    cases Preset.name_injective hname
    rw [hnone] at installed
    cases installed
  | @query g registered stored =>
    exact g.source_ne_preset (congrArg Listing.source he).symm

end Library

end VoxelQuery
