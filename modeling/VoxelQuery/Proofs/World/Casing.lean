import VoxelQuery.Proofs.Record
import VoxelQuery.Proofs.World.StateKey

/-! Properties without regard to case. The key of a state and a test of a property see nothing of a
record but what it gives in lower case. So fields may change places, and letters may change between
upper and lower case, as long as no two different names become one and no name becomes two. -/
namespace VoxelQuery

namespace Record

variable {pairs others : List (String × String)} {name value : String}

theorem gives_iff_isLast_entries :
    Gives pairs name value ↔
      ∃ e, IsLast (fun e => Text.lower e.1) (Table.ofPairs pairs).entries e ∧
        Text.lower e.1 = name ∧ Text.lower e.2 = value := by
  simp only [Gives, isLast_fields_iff]

/-- What is given for a name is decided by the fields whose names are equal to it in lower case. -/
theorem gives_filter_iff :
    Gives (pairs.filter fun e => decide (Text.lower e.1 = name)) name value ↔
      Gives pairs name value := by
  have hentries := Table.filter_entries_ofPairs (fun k => decide (Text.lower k = name)) pairs
  rw [gives_iff_isLast_entries, gives_iff_isLast_entries, ← hentries]
  refine exists_congr fun e => and_congr_left fun he => ?_
  exact isLast_filter_iff he.1

/-- Fields may change places, but those whose names are equal in lower case keep their order. -/
theorem gives_iff_of_rearranged (h : Rearranged (fun e => Text.lower e.1) pairs others) :
    Gives pairs name value ↔ Gives others name value := by
  rw [← gives_filter_iff, h name, gives_filter_iff]

/-- Field by field, the names and the values are equal in lower case. -/
def AlikeInLower (pairs others : List (String × String)) : Prop :=
  (others.map fun e => (Text.lower e.1, Text.lower e.2)) =
    pairs.map fun e => (Text.lower e.1, Text.lower e.2)

instance : Decidable (AlikeInLower pairs others) := inferInstanceAs (Decidable (_ = _))

/-- Letters may change between upper and lower case, but different names stay different, and equal
names stay equal. -/
structure Recased (pairs others : List (String × String)) : Prop where
  alike : AlikeInLower pairs others
  apart : ∀ e ∈ pairs.zip others, ∀ f ∈ pairs.zip others, e.1.1 = f.1.1 ↔ e.2.1 = f.2.1

/-- The names of the two records at one place. -/
def Meets (pairs others : List (String × String)) (k k' : String) : Prop :=
  Text.lower k' = Text.lower k ∧ ∃ e ∈ pairs.zip others, e.1.1 = k ∧ e.2.1 = k'

theorem Recased.forall₂_entries (h : Recased pairs others) :
    List.Forall₂ (fun e f => Meets pairs others e.1 f.1 ∧ Text.lower f.2 = Text.lower e.2)
      (Table.ofPairs pairs).entries (Table.ofPairs others).entries := by
  refine Table.forall₂_entries_ofPairs (R := Meets pairs others)
    (S := fun v v' => Text.lower v' = Text.lower v) ?_ ?_
  · rintro k k' m m' ⟨-, e, he, rfl, rfl⟩ ⟨-, f, hf, rfl, rfl⟩
    exact h.apart e he f hf
  · have halike : (pairs.map fun e => (Text.lower e.1, Text.lower e.2)) =
        others.map fun e => (Text.lower e.1, Text.lower e.2) := h.alike.symm
    rw [← List.forall₂_eq_eq_eq, List.forall₂_map_left_iff, List.forall₂_map_right_iff,
      List.forall₂_iff_zip] at halike
    refine List.forall₂_iff_zip.2 ⟨halike.1, fun {e f} hmem => ?_⟩
    obtain ⟨hname, hvalue⟩ := Prod.mk.inj (halike.2 hmem)
    exact ⟨⟨hname.symm, (e, f), hmem, rfl, rfl⟩, hvalue.symm⟩

theorem Recased.gives_iff (h : Recased pairs others) :
    Gives pairs name value ↔ Gives others name value := by
  have hlowered : ∀ pairs : List (String × String), Gives pairs name value ↔
      IsLast Prod.fst ((Table.ofPairs pairs).entries.map fun e => (Text.lower e.1, Text.lower e.2))
        (name, value) := by
    intro pairs
    simp only [gives_iff_isLast_entries, isLast_map_iff, Prod.mk.injEq]
  have hsame : ((Table.ofPairs pairs).entries.map fun e => (Text.lower e.1, Text.lower e.2)) =
      (Table.ofPairs others).entries.map fun e => (Text.lower e.1, Text.lower e.2) := by
    rw [← List.forall₂_eq_eq_eq, List.forall₂_map_left_iff, List.forall₂_map_right_iff]
    refine h.forall₂_entries.imp fun e f hef => ?_
    rw [hef.1.1, hef.2]
  rw [hlowered, hlowered, hsame]

theorem exists_gives_iff : (∃ name value, Gives pairs name value) ↔ pairs ≠ [] := by
  constructor
  · rintro ⟨name, value, hgives⟩ rfl
    obtain ⟨e, hlast, -⟩ := gives_iff_isLast_entries.1 hgives
    cases hlast.mem
  · intro hne
    obtain ⟨first, hfirst⟩ := List.exists_mem_of_ne_nil pairs hne
    -- The last field of that name has an entry, and some entry is the last one of its name.
    obtain ⟨e, he, -⟩ : ∃ e, IsLast Prod.fst pairs e ∧ e.1 = first.1 :=
      exists_isLast ⟨first, hfirst, rfl⟩
    have hget : (Table.ofPairs pairs).get? e.1 = some e.2 := Table.get?_ofPairs_iff.2 he
    have hmem := (Table.get?_eq_some_iff _ _ _).1 hget
    obtain ⟨found, hfound, -⟩ := exists_isLast ⟨_, hmem, rfl⟩
    exact ⟨_, _, gives_iff_isLast_entries.2 ⟨found, hfound, rfl, rfl⟩⟩

end Record

namespace BlockState

variable {block : Block} {pairs others : List (String × String)}

/-- A test of the key of the first state holds wherever the second one is. -/
def Passes (s t : BlockState) : Prop :=
  ∀ scene here, scene.stateAt here = t.view → (Predicate.state s.key).holds scene here = true

/-- Neither the keys nor the tests of the keys tell the states apart. -/
structure Interchangeable (s t : BlockState) : Prop where
  key : s.key = t.key
  left : Passes s t
  right : Passes t s

theorem passes_of_key {s t : BlockState} (h : s.key = t.key) : Passes s t := by
  intro scene here hstate
  show decide ((scene.stateAt here).key = s.key) = true
  rw [hstate]
  exact decide_eq_true h.symm

theorem interchangeable_of_gives
    (h : ∀ name value, Record.Gives pairs name value ↔ Record.Gives others name value) :
    Interchangeable (ofPairs block pairs) (ofPairs block others) := by
  have hkey : (ofPairs block pairs).key = (ofPairs block others).key := key_eq_of_gives rfl h
  exact ⟨hkey, passes_of_key hkey, passes_of_key hkey.symm⟩

/-- The key of a state, spelled out: the identifier, and in brackets what the record gives, with
the names in increasing order. -/
structure Spells (s : BlockState) (pairs entries : List (String × String)) : Prop where
  given : ∀ name value, (name, value) ∈ entries ↔ Record.Gives pairs name value
  sorted : (entries.map Prod.fst).Pairwise Text.UnitsLt
  key : s.key = s.block.identifier ++ if entries = [] then "" else
    "[" ++ ",".intercalate (entries.map fun e => e.1 ++ "=" ++ e.2) ++ "]"

theorem length_keyEntries (s : BlockState) : s.keyEntries.length = s.properties.size := by
  simp [keyEntries, Table.size]

theorem spells_keyEntries (block : Block) (pairs : List (String × String)) :
    Spells (ofPairs block pairs) pairs (ofPairs block pairs).keyEntries := by
  refine ⟨fun name value => ?_, ?_, ?_⟩
  · rw [mem_keyEntries_iff, Record.gives_iff]
  · have hdistinct := List.pairwise_map.1 (ofPairs block pairs).nodup_keyEntries
    refine List.pairwise_map.2 (((ofPairs block pairs).pairwise_keyEntries.and hdistinct).imp ?_)
    rintro e f ⟨hle, hne⟩
    exact Text.unitsLt_of_unitsLe_of_ne hle hne
  · have hsize := (ofPairs block pairs).length_keyEntries
    rw [BlockState.key, ← hsize]
    simp only [List.length_eq_zero_iff]
    split
    · rw [String.append_empty]
    · simp only [String.append_assoc]

theorem Spells.key_eq_identifier_iff {s : BlockState} {entries : List (String × String)}
    (h : Spells s pairs entries) : s.key = s.block.identifier ↔ pairs = [] := by
  have hempty : entries = [] ↔ pairs = [] := by
    rw [← not_iff_not, ← ne_eq pairs, ← Record.exists_gives_iff, List.eq_nil_iff_forall_not_mem]
    simp [h.given]
  rw [← hempty, h.key]
  constructor
  · intro hkey
    by_contra hne
    have hlength := congrArg String.length hkey
    simp [hne] at hlength
  · rintro rfl
    simp

/-- States of one block are interchangeable if their records give the same, and so they are if the
fields of a record change places or letters change their case. The key has the given names in
increasing order, and it is the identifier alone if the record is empty. -/
theorem canonical_key (block : Block) (pairs : List (String × String)) :
    (∀ others, (∀ name value, Record.Gives pairs name value ↔ Record.Gives others name value) →
      Interchangeable (ofPairs block pairs) (ofPairs block others)) ∧
    (∀ others, pairs.Perm others → (pairs.map fun e => Text.lower e.1).Nodup →
      Interchangeable (ofPairs block pairs) (ofPairs block others)) ∧
    (∀ others, Rearranged (fun e => Text.lower e.1) pairs others →
      Interchangeable (ofPairs block pairs) (ofPairs block others)) ∧
    (∀ others, Record.Recased pairs others →
      Interchangeable (ofPairs block pairs) (ofPairs block others)) ∧
    (∃ entries, Spells (ofPairs block pairs) pairs entries) ∧
    ((ofPairs block pairs).key = block.identifier ↔ pairs = []) := by
  have hspells := spells_keyEntries block pairs
  refine ⟨fun others h => interchangeable_of_gives h, fun others hperm hnodup => ?_,
    fun others h => interchangeable_of_gives fun _ _ => Record.gives_iff_of_rearranged h,
    fun others h => interchangeable_of_gives fun _ _ => h.gives_iff, ⟨_, hspells⟩,
    hspells.key_eq_identifier_iff⟩
  have h := rearranged_of_perm hperm hnodup
  exact interchangeable_of_gives fun _ _ => Record.gives_iff_of_rearranged h

def slab : Block := ⟨"core:slab", .root 0 "core.Block", ⟨0, "rock"⟩, false⟩

/-- Two indices and a name with a Kelvin sign. -/
def banded : List (String × String) :=
  [("Grain", "Fine"), ("10", "X"), ("2", "y"), ("\u212Aind", "Öl")]

def bandedAgain : List (String × String) :=
  [("gRAIN", "FINE"), ("10", "x"), ("2", "Y"), ("kiND", "öL")]

theorem canonical_key_banded :
    Record.Recased banded bandedAgain ∧
      Interchangeable (ofPairs slab banded) (ofPairs slab bandedAgain) ∧
      banded.Perm banded.reverse ∧ (banded.map fun e => Text.lower e.1).Nodup ∧
      Interchangeable (ofPairs slab banded) (ofPairs slab banded.reverse) := by
  have hrecased : Record.Recased banded bandedAgain := ⟨by decide +kernel, by decide +kernel⟩
  have hperm : banded.Perm banded.reverse := banded.reverse_perm.symm
  have hnodup : (banded.map fun e => Text.lower e.1).Nodup := by decide +kernel
  exact ⟨hrecased, (canonical_key slab banded).2.2.2.1 _ hrecased, hperm, hnodup,
    (canonical_key slab banded).2.1 _ hperm hnodup⟩

/-- Three names that are one in lower case, and the same with two of them made equal. -/
def mingled : List (String × String) := [("ab", "1"), ("AB", "2"), ("aB", "3")]

def merged : List (String × String) := [("ab", "1"), ("AB", "2"), ("ab", "3")]

/-- If the third name becomes the first one, its field takes the place of the first field, and the
second one is the last. -/
theorem not_key_of_alikeInLower :
    Record.AlikeInLower mingled merged ∧ (ofPairs slab mingled).key = "core:slab[ab=3]" ∧
      (ofPairs slab merged).key = "core:slab[ab=2]" := by
  have halike : Record.AlikeInLower mingled merged := by decide +kernel
  have hmingled : (ofPairs slab mingled).keyEntries = [("ab", "3")] := by
    rw [keyEntries_of_pairwise (by decide +kernel)]
    decide +kernel
  have hmerged : (ofPairs slab merged).keyEntries = [("ab", "2")] := by
    rw [keyEntries_of_pairwise (by decide +kernel)]
    decide +kernel
  refine ⟨halike, ?_, ?_⟩
  · rw [← String.toList_inj, toList_key, hmingled]
    decide
  · rw [← String.toList_inj, toList_key, hmerged]
    decide

variable {name value : String}

theorem property?_eq_some_iff :
    (ofPairs block pairs).property? name = some value ↔
      ∃ e, IsLast (fun e => Text.lower e.1) (Record.fields pairs) e ∧
        Text.lower e.1 = Text.lower name ∧ e.2 = value := by
  rw [property?, ofPairs, Table.ofPairs, List.foldl_map, Table.get?_foldl_put_iff]
  simp

/-- A world with the same state everywhere. -/
def laid (pairs : List (String × String)) : World := ⟨ofPairs slab pairs, .empty⟩

def corner : Position := .ofInts 0 64 (-3)

end BlockState

namespace Predicate

variable {scene : Scene} {here : Position} {block : Block} {pairs : List (String × String)}
  {name : String} {values : List String}

theorem holds_ofProperty_iff_gives
    (hstate : scene.stateAt here = (BlockState.ofPairs block pairs).view) :
    (ofProperty name values).holds scene here = true ↔
      ∃ value ∈ values.map Text.lower, Record.Gives pairs (Text.lower name) value := by
  show passesProperty (Text.lower name) (distinct (values.map Text.lower))
    (scene.stateAt here) = true ↔ _
  have hview : (BlockState.ofPairs block pairs).view.property? =
      (BlockState.ofPairs block pairs).property? := rfl
  rw [hstate, passesProperty, hview]
  cases hfound : (BlockState.ofPairs block pairs).property? (Text.lower name) with
  | none =>
    have hnone : ∀ value, ¬Record.Gives pairs (Text.lower name) value := by
      rintro value ⟨e, hlast, hname, -⟩
      have hsome : (BlockState.ofPairs block pairs).property? (Text.lower name) = some e.2 :=
        BlockState.property?_eq_some_iff.2
          ⟨e, hlast, hname.trans (Text.lower_lower name).symm, rfl⟩
      rw [hfound] at hsome
      cases hsome
    simp [hnone]
  | some value =>
    obtain ⟨e, hlast, hname, rfl⟩ := BlockState.property?_eq_some_iff.1 hfound
    rw [Text.lower_lower] at hname
    simp only [mem_distinct, decide_eq_true_eq]
    constructor
    · exact fun hmem => ⟨_, hmem, e, hlast, hname, rfl⟩
    · rintro ⟨value, hmem, e', hlast', hname', rfl⟩
      rwa [hlast.unique hlast' (hname.trans hname'.symm)]

/-- A test of a property compares name and values in lower case, and it does not notice a change of
case on either side. -/
theorem holds_ofProperty_iff (hstate : scene.stateAt here = (BlockState.ofPairs block pairs).view)
    (name : String) (values : List String) :
    ((ofProperty name values).holds scene here = true ↔
      ∃ e, IsLast (fun e => Text.lower e.1) (Record.fields pairs) e ∧
        Text.lower e.1 = Text.lower name ∧ ∃ value ∈ values, Text.lower e.2 = Text.lower value) ∧
    ∀ name' values' others found other there, Text.lower name' = Text.lower name →
      values'.map Text.lower = values.map Text.lower → Record.Recased pairs others →
      Scene.stateAt other there = (BlockState.ofPairs found others).view →
      (ofProperty name' values').holds other there = (ofProperty name values).holds scene here := by
  refine ⟨?_, ?_⟩
  · rw [holds_ofProperty_iff_gives hstate]
    constructor
    · rintro ⟨_, hmem, e, hlast, hname, rfl⟩
      obtain ⟨value, hvalue, heq⟩ := List.mem_map.1 hmem
      exact ⟨e, hlast, hname, value, hvalue, heq.symm⟩
    · rintro ⟨e, hlast, hname, value, hvalue, heq⟩
      exact ⟨_, List.mem_map_of_mem hvalue, e, hlast, hname, heq⟩
  · intro name' values' others found other there hname hvalues hrecased hother
    rw [Bool.eq_iff_iff, holds_ofProperty_iff_gives hother, holds_ofProperty_iff_gives hstate,
      hname, hvalues]
    simp only [hrecased.gives_iff]

open BlockState in
theorem holds_ofProperty_iff_banded :
    (laid banded).scene.stateAt corner =
        (ofPairs slab banded).view ∧
      ((ofProperty "kIND" ["Gold", "ÖL"]).holds (laid banded).scene corner = true ↔
        ∃ e, IsLast (fun e => Text.lower e.1) (Record.fields banded) e ∧
          Text.lower e.1 = Text.lower "kIND" ∧
            ∃ value ∈ ["Gold", "ÖL"], Text.lower e.2 = Text.lower value) ∧
      Record.Recased banded bandedAgain ∧
      (ofProperty "\u212AinD" ["GOLD", "öl"]).holds (laid bandedAgain).scene corner =
        (ofProperty "kIND" ["Gold", "ÖL"]).holds (laid banded).scene corner := by
  have hrecased : Record.Recased banded bandedAgain :=
    ⟨by decide +kernel, by decide +kernel⟩
  have hstate : (laid banded).scene.stateAt corner =
      (ofPairs slab banded).view := rfl
  obtain ⟨hiff, hsame⟩ := holds_ofProperty_iff hstate "kIND" ["Gold", "ÖL"]
  exact ⟨hstate, hiff, hrecased,
    hsame _ _ _ _ _ _ (by decide +kernel) (by decide +kernel) hrecased rfl⟩

open BlockState in
/-- If the third name becomes the first one, its value is found no more. -/
theorem not_holds_ofProperty_merged :
    Record.AlikeInLower mingled merged ∧
      (ofProperty "ab" ["3"]).holds (laid mingled).scene corner = true ∧
      (ofProperty "ab" ["3"]).holds (laid merged).scene corner = false := by
  refine ⟨by decide +kernel, by decide +kernel, by decide +kernel⟩

end Predicate

end VoxelQuery
