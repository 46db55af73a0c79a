import VoxelQuery.Proofs.Catalog.Building
import VoxelQuery.Proofs.History
import VoxelQuery.Proofs.Library.Restart
import VoxelQuery.Proofs.Text.UnitOrder
import VoxelQuery.Proofs.World.Placement

/-! What the key of a state tells of it. Names and values stand in the key without quotes, so a
value with a comma can look like two properties. Where no name has an equals sign and no value a
comma, the key gives back the block and each property, and a test of the key matches exactly one
state. -/
namespace VoxelQuery

namespace Record

variable {pairs : List (String × String)} {name value : String}

/-- What a record of properties gives for a name, both in lower case. The last field of a name
decides. -/
def Gives (pairs : List (String × String)) (name value : String) : Prop :=
  ∃ e, IsLast (fun e => Text.lower e.1) (fields pairs) e ∧ Text.lower e.1 = name ∧
    Text.lower e.2 = value

/-- No name has an equals sign, and no value has a comma. -/
def Legible (pairs : List (String × String)) : Prop :=
  ∀ name value, Gives pairs name value → '=' ∉ name.toList ∧ ',' ∉ value.toList

/-- All that a record gives. -/
def lowered (pairs : List (String × String)) : List (String × String) :=
  (Table.ofPairs ((fields pairs).map fun e => (Text.lower e.1, e.2))).entries.map
    fun e => (e.1, Text.lower e.2)

theorem gives_iff : Gives pairs name value ↔ (name, value) ∈ lowered pairs := by
  have hget : ∀ found,
      (name, found) ∈ (Table.ofPairs ((fields pairs).map fun e => (Text.lower e.1, e.2))).entries ↔
        ∃ e, IsLast (fun e => Text.lower e.1) (fields pairs) e ∧ Text.lower e.1 = name ∧
          e.2 = found := by
    intro found
    rw [← Table.get?_eq_some_iff, Table.ofPairs, List.foldl_map, Table.get?_foldl_put_iff]
    simp
  rw [lowered, List.mem_map]
  constructor
  · rintro ⟨e, hlast, hname, rfl⟩
    exact ⟨(name, e.2), (hget e.2).2 ⟨e, hlast, hname, rfl⟩, rfl⟩
  · rintro ⟨⟨name, found⟩, hmem, heq⟩
    cases heq
    obtain ⟨e, hlast, hname, rfl⟩ := (hget found).1 hmem
    exact ⟨e, hlast, hname, rfl⟩

theorem legible_iff : Legible pairs ↔ ∀ e ∈ lowered pairs, '=' ∉ e.1.toList ∧ ',' ∉ e.2.toList := by
  simp only [Legible, Prod.forall, gives_iff]

end Record

namespace BlockState

/-- An entry as it stands in a key, with the sign that sets it off from what is before it. -/
def separated (e : String × String) : List Char := ',' :: (e.1.toList ++ '=' :: e.2.toList)

theorem head_flatMap_separated (entries : List (String × String)) :
    ∀ c ∈ (entries.flatMap separated).head?, decide (c ≠ ',') = false := by
  cases entries <;> simp [separated]

theorem flatMap_separated_inj {entries others : List (String × String)}
    (hentries : ∀ e ∈ entries, '=' ∉ e.1.toList ∧ ',' ∉ e.2.toList)
    (hothers : ∀ e ∈ others, '=' ∉ e.1.toList ∧ ',' ∉ e.2.toList)
    (h : entries.flatMap separated = others.flatMap separated) : entries = others := by
  induction entries generalizing others with
  | nil =>
    cases others with
    | nil => rfl
    | cons e rest => cases h
  | cons e rest ih =>
    cases others with
    | nil => cases h
    | cons e' more =>
      obtain ⟨⟨hname, hvalue⟩, hrest⟩ := List.forall_mem_cons.1 hentries
      obtain ⟨⟨hname', hvalue'⟩, hmore⟩ := List.forall_mem_cons.1 hothers
      simp only [List.flatMap_cons, separated, List.cons_append, List.cons.injEq, true_and,
        List.append_assoc] at h
      -- A name ends at the first equals sign, and a value at the next comma.
      obtain ⟨hnames, htail⟩ := Text.append_inj_of_head (Text.ne_of_notMem hname)
        (Text.ne_of_notMem hname') (by simp) (by simp) h
      obtain ⟨hvalues, htail⟩ := Text.append_inj_of_head (Text.ne_of_notMem hvalue)
        (Text.ne_of_notMem hvalue') (head_flatMap_separated rest) (head_flatMap_separated more)
        (List.cons.inj htail).2
      rw [ih hrest hmore htail, Prod.ext (String.toList_inj.1 hnames) (String.toList_inj.1 hvalues)]

/-- What stands in the key behind the identifier. -/
def keyTail : List (String × String) → List Char
  | [] => []
  | e :: rest => '[' :: (e.1.toList ++ '=' :: e.2.toList ++ rest.flatMap separated ++ [']'])

theorem keyTail_inj {entries others : List (String × String)}
    (hentries : ∀ e ∈ entries, '=' ∉ e.1.toList ∧ ',' ∉ e.2.toList)
    (hothers : ∀ e ∈ others, '=' ∉ e.1.toList ∧ ',' ∉ e.2.toList)
    (h : keyTail entries = keyTail others) : entries = others := by
  apply flatMap_separated_inj hentries hothers
  cases entries with
  | nil =>
    cases others with
    | nil => rfl
    | cons e rest => cases h
  | cons e rest =>
    cases others with
    | nil => cases h
    | cons e' more =>
      have hbody := List.append_cancel_right (List.cons.inj h).2
      simpa [separated] using hbody

theorem intercalate_entries (e : String × String) (rest : List (String × String)) :
    (",".intercalate ((e :: rest).map fun e => e.1 ++ "=" ++ e.2)).toList =
      e.1.toList ++ '=' :: e.2.toList ++ rest.flatMap separated := by
  rw [String.toList_intercalate]
  induction rest generalizing e with
  | nil => simp [List.intercalate]
  | cons e' rest ih =>
    have hrest := ih e'
    simp [List.intercalate, separated] at hrest ⊢
    exact hrest

variable {s t : BlockState}

theorem toList_key (s : BlockState) :
    s.key.toList = s.block.identifier.toList ++ keyTail s.keyEntries := by
  have hlength : s.keyEntries.length = s.properties.size := by simp [keyEntries, Table.size]
  unfold key
  split
  · next h =>
    have hnil : s.keyEntries = [] := List.length_eq_zero_iff.1 (hlength.trans h)
    rw [hnil, keyTail, List.append_nil]
  · next h =>
    cases hentries : s.keyEntries with
    | nil =>
      rw [hentries] at hlength
      exact absurd hlength.symm h
    | cons e rest =>
      simp only [String.toList_append, intercalate_entries, keyTail]
      simp

variable {block found : Block} {pairs others : List (String × String)}

theorem mem_keyEntries_iff {e : String × String} :
    e ∈ (ofPairs block pairs).keyEntries ↔ e ∈ Record.lowered pairs := List.mem_mergeSort

/-- Names that come in order stay as they are. -/
theorem keyEntries_of_pairwise
    (h : (Record.lowered pairs).Pairwise fun a b => Text.unitsLe a.1 b.1 = true) :
    (ofPairs block pairs).keyEntries = Record.lowered pairs := by
  rw [keyEntries]
  exact List.mergeSort_of_pairwise h

theorem nodup_keyEntries (s : BlockState) : (s.keyEntries.map Prod.fst).Nodup := by
  have hperm : (s.keyEntries.map Prod.fst).Perm s.properties.keys := by
    refine ((List.mergeSort_perm _ _).map Prod.fst).trans ?_
    rw [List.map_map]
    exact List.Perm.refl _
  exact hperm.nodup_iff.2 s.properties.nodup

theorem pairwise_keyEntries (s : BlockState) :
    s.keyEntries.Pairwise fun a b => Text.unitsLe a.1 b.1 = true := by
  have htrans (a b c : String × String) (hab : Text.unitsLe a.1 b.1 = true)
      (hbc : Text.unitsLe b.1 c.1 = true) : Text.unitsLe a.1 c.1 = true :=
    Text.unitsLe_trans hab hbc
  have htotal (a b : String × String) : (Text.unitsLe a.1 b.1 || Text.unitsLe b.1 a.1) = true :=
    Text.unitsLe_total a.1 b.1
  rw [keyEntries]
  exact List.pairwise_mergeSort htrans htotal _

/-- Properties that are alike have the same place in the key, whatever order they were given in. -/
theorem keyEntries_congr (h : ∀ e, e ∈ s.keyEntries ↔ e ∈ t.keyEntries) :
    s.keyEntries = t.keyEntries := by
  have hperm : s.keyEntries.Perm t.keyEntries :=
    (List.perm_ext_iff_of_nodup s.nodup_keyEntries.of_map t.nodup_keyEntries.of_map).2 h
  refine hperm.eq_of_pairwise (fun a b ha hb hab hba => ?_) s.pairwise_keyEntries
    t.pairwise_keyEntries
  -- No two entries have one name, so the order by names leaves no choice.
  exact List.inj_on_of_nodup_map t.nodup_keyEntries ((h a).1 ha) hb (Text.unitsLe_antisymm hab hba)

/-- The key shows nothing but the identifier of the block and what the record gives. -/
theorem key_eq_of_gives (hidentifier : block.identifier = found.identifier)
    (hgives : ∀ name value, Record.Gives pairs name value ↔ Record.Gives others name value) :
    (ofPairs block pairs).key = (ofPairs found others).key := by
  have hsame : (ofPairs block pairs).keyEntries = (ofPairs found others).keyEntries := by
    refine keyEntries_congr fun e => ?_
    rw [mem_keyEntries_iff, mem_keyEntries_iff, ← Record.gives_iff, ← Record.gives_iff]
    exact hgives e.1 e.2
  rw [← String.toList_inj, toList_key, toList_key, hsame]
  exact congrArg (·.toList ++ _) hidentifier

/-- A legible key gives back its block and all of its properties. -/
theorem key_eq_iff (hblock : TextRule.identifier.accepts block.identifier = true)
    (hfound : TextRule.identifier.accepts found.identifier = true)
    (hpairs : Record.Legible pairs) (hothers : Record.Legible others) :
    (ofPairs block pairs).key = (ofPairs found others).key ↔
      block.identifier = found.identifier ∧
        ∀ name value, Record.Gives pairs name value ↔ Record.Gives others name value := by
  simp only [Record.legible_iff] at hpairs hothers
  have hbracket : ∀ {block : Block}, TextRule.identifier.accepts block.identifier = true →
      ∀ c ∈ block.identifier.toList, decide (c ≠ '[') = true := by
    intro block h
    refine Text.ne_of_notMem fun hmem => ?_
    exact absurd (((Text.isIdentifier_iff _).1 h).2 '[' hmem) (by decide)
  have htail : ∀ entries, ∀ c ∈ (keyTail entries).head?, decide (c ≠ '[') = false := by
    intro entries
    cases entries <;> simp [keyTail]
  constructor
  · intro h
    rw [← String.toList_inj, toList_key, toList_key] at h
    obtain ⟨hidentifier, hentries⟩ :=
      Text.append_inj_of_head (hbracket hblock) (hbracket hfound) (htail _) (htail _) h
    have hsame : (ofPairs block pairs).keyEntries = (ofPairs found others).keyEntries :=
      keyTail_inj (fun e he => hpairs e (mem_keyEntries_iff.1 he))
        (fun e he => hothers e (mem_keyEntries_iff.1 he)) hentries
    refine ⟨String.toList_inj.1 hidentifier, fun name value => ?_⟩
    rw [Record.gives_iff, Record.gives_iff, ← mem_keyEntries_iff, hsame, mem_keyEntries_iff]
  · rintro ⟨hidentifier, hgives⟩
    exact key_eq_of_gives hidentifier hgives

end BlockState

namespace Catalog

variable {catalog : Catalog} {context : Context}

/-- Over the registry of a catalog, a test of the key of a state holds where a state of the same
block with the same properties is, and nowhere else. -/
theorem holds_state_iff {value : Json} (hparse : parse value = .ok catalog) {number : Nat}
    (hcontext : catalog.context number = .ok context) {b found : Block}
    (hb : b ∈ context.registry.blocks.values) (hfound : found ∈ context.registry.blocks.values)
    {pairs others : List (String × String)} (hpairs : Record.Legible pairs)
    (hothers : Record.Legible others) {scene : Scene} {here : Position}
    (hstate : scene.stateAt here = (BlockState.ofPairs found others).view) :
    (Predicate.state (BlockState.ofPairs b pairs).key).holds scene here = true ↔
      b.identifier = found.identifier ∧
        ∀ name value, Record.Gives pairs name value ↔ Record.Gives others name value := by
  have hbuilds := context_eq_ok_iff.1 hcontext
  have hconforms := conforms_of_parse hparse
  rw [← BlockState.key_eq_iff (hbuilds.accepts_block hconforms hb)
    (hbuilds.accepts_block hconforms hfound) hpairs hothers]
  have hholds : (Predicate.state (BlockState.ofPairs b pairs).key).holds scene here =
      decide ((scene.stateAt here).key = (BlockState.ofPairs b pairs).key) := rfl
  rw [hholds, hstate, decide_eq_true_iff, eq_comm]
  rfl

/-- A record with the signs of the key in its names and values, and the same written otherwise. -/
def grained : List (String × String) := [("Size,Grain", "a=B"), ("axis", "x"), ("AXIS", "Y")]

def grainedAgain : List (String × String) := [("axis", "y"), ("size,grain", "A=b")]

/-- One stone with the given properties can be placed. -/
theorem exists_stone (pairs : List (String × String)) :
    ∃ context b w, quarry.context 0 = .ok context ∧ b ∈ context.registry.blocks.values ∧
      World.ofPlacements context.registry "dirt" [⟨.ofInts 0 0 0, "stone", pairs⟩] = .ok w ∧
      w.scene.stateAt (.ofInts 0 0 0) = (BlockState.ofPairs b pairs).view := by
  have hknown : ∃ context b, quarry.context 0 = .ok context ∧
      (context.registry.block? "dirt").isSome = true ∧ context.registry.block? "stone" = some b :=
    ⟨_, _, by cbv, by cbv, by cbv⟩
  obtain ⟨context, b, hcontext, hfill, hb⟩ := hknown
  have hnone : World.unknown? context.registry [⟨.ofInts 0 0 0, "stone", pairs⟩] = none := by
    simp [World.unknown?, hb]
  obtain ⟨w, hw⟩ := (World.ofPlacements_of_known hfill).2 hnone
  obtain ⟨block, hblock, hshows⟩ :=
    (World.shows_of_ofPlacements hw).placed ⟨.ofInts 0 0 0, "stone", pairs⟩ ⟨[], [], rfl, by simp⟩
  obtain rfl : b = block := Option.some.inj (hb.symm.trans hblock)
  exact ⟨context, b, w, hcontext, Table.mem_values_iff.2 ⟨_, hb⟩, hw, hshows.state⟩

theorem holds_state_iff_grained :
    ∃ context b w, parse quarry.toJson = .ok quarry ∧ quarry.context 0 = .ok context ∧
      b ∈ context.registry.blocks.values ∧ Record.Legible grained ∧ Record.Legible grainedAgain ∧
      World.ofPlacements context.registry "dirt" [⟨.ofInts 0 0 0, "stone", grainedAgain⟩] = .ok w ∧
      (∀ name value,
        Record.Gives grained name value ↔ Record.Gives grainedAgain name value) ∧
      (Predicate.state (BlockState.ofPairs b grained).key).holds w.scene (.ofInts 0 0 0) =
        true := by
  obtain ⟨context, b, w, hcontext, hb, hw, hstate⟩ := exists_stone grainedAgain
  have hparse : parse quarry.toJson = .ok quarry := by cbv
  have hgrained : Record.lowered grained = [("size,grain", "a=b"), ("axis", "y")] := by
    decide +kernel
  have hagain : Record.lowered grainedAgain = [("axis", "y"), ("size,grain", "a=b")] := by
    decide +kernel
  have hlegible : Record.Legible grained := by
    rw [Record.legible_iff, hgrained]
    decide
  have hlegible' : Record.Legible grainedAgain := by
    rw [Record.legible_iff, hagain]
    decide
  have hsame : ∀ name value,
      Record.Gives grained name value ↔ Record.Gives grainedAgain name value := by
    simp [Record.gives_iff, hgrained, hagain, or_comm]
  exact ⟨context, b, w, hparse, hcontext, hb, hlegible, hlegible', hw, hsame,
    (holds_state_iff hparse hcontext hb hb hlegible hlegible' hstate).2 ⟨rfl, hsame⟩⟩

/-- A value with a comma is taken for two properties. -/
theorem not_holds_state_iff_comma :
    ∃ context b w, parse quarry.toJson = .ok quarry ∧ quarry.context 0 = .ok context ∧
      b ∈ context.registry.blocks.values ∧
      World.ofPlacements context.registry "dirt"
        [⟨.ofInts 0 0 0, "stone", [("a", "1"), ("b", "2")]⟩] = .ok w ∧
      w.scene.stateAt (.ofInts 0 0 0) = (BlockState.ofPairs b [("a", "1"), ("b", "2")]).view ∧
      (Predicate.state (BlockState.ofPairs b [("a", "1,b=2")]).key).holds w.scene (.ofInts 0 0 0) =
        true ∧
      Record.Gives [("a", "1,b=2")] "a" "1,b=2" ∧
      ¬Record.Gives [("a", "1"), ("b", "2")] "a" "1,b=2" := by
  obtain ⟨context, b, w, hcontext, hb, hw, hstate⟩ := exists_stone [("a", "1"), ("b", "2")]
  have hparse : parse quarry.toJson = .ok quarry := by cbv
  have hkey : (BlockState.ofPairs b [("a", "1"), ("b", "2")]).key =
      (BlockState.ofPairs b [("a", "1,b=2")]).key := by
    rw [← String.toList_inj, BlockState.toList_key, BlockState.toList_key,
      BlockState.keyEntries_of_pairwise (by decide +kernel),
      BlockState.keyEntries_of_pairwise (by decide +kernel)]
    have htail : BlockState.keyTail (Record.lowered [("a", "1"), ("b", "2")]) =
        BlockState.keyTail (Record.lowered [("a", "1,b=2")]) := by decide +kernel
    rw [htail]
    rfl
  refine ⟨context, b, w, hparse, hcontext, hb, hw, hstate, ?_, ?_, ?_⟩
  · show decide ((w.scene.stateAt _).key = _) = true
    rw [hstate]
    exact decide_eq_true hkey
  · rw [Record.gives_iff]
    decide +kernel
  · rw [Record.gives_iff]
    decide +kernel

end Catalog

end VoxelQuery
