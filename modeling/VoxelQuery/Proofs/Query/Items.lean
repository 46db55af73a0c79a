import Mathlib.Data.List.Forall2
import VoxelQuery.Proofs.Query.Grammar
import VoxelQuery.Proofs.Text.Cutting
import VoxelQuery.Query.Segment

/-! Items of bracket groups are read exactly where the grammar has them. The reader looks for an
equals sign behind the first word, and without one the whole item is its values. A group is cut at
every comma, since no item holds one. -/
namespace VoxelQuery

namespace Text

/-- A text of words between bars starts with the first of them. -/
theorem joinWith_eq_append {values : List (List Char)} (hne : values ≠ []) :
    ∃ first ∈ values, ∃ behind, joinWith '|' values = first ++ behind ∧
      ∀ c ∈ behind.head?, c = '|' := by
  match values, hne with
  | [first], _ => exact ⟨first, by simp, [], by simp [joinWith], by simp⟩
  | first :: second :: more, _ =>
    refine ⟨first, by simp, '|' :: joinWith '|' (second :: more), rfl, ?_⟩
    intro c hc
    exact (Option.some.inj hc).symm

end Text

namespace PropertyItem

theorem values?_eq_some_iff {text : List Char} {found : List String} :
    values? text = some found ↔
      ∃ values, values ≠ [] ∧ (∀ value ∈ values, Text.isWord value = true) ∧
        text = Text.joinWith '|' values ∧ found = values.map String.ofList := by
  constructor
  · intro h
    rw [values?] at h
    split at h
    · next hwords =>
      cases h
      exact ⟨Text.pieces '|' text, Text.pieces_ne_nil _ _, List.all_eq_true.1 hwords,
        (Text.joinWith_pieces _ _).symm, rfl⟩
    · cases h
  · rintro ⟨values, hne, hwords, rfl, rfl⟩
    have hcut : Text.pieces '|' (Text.joinWith '|' values) = values :=
      Text.pieces_joinWith hne fun value hv => Text.notMem_of_isWord (by decide) (hwords value hv)
    rw [values?]
    simp only [hcut]
    rw [if_pos (List.all_eq_true.2 hwords)]

/-- Behind the first word of an item without a name there is a bar or nothing. -/
theorem splitName_joinWith {values : List (List Char)} (hne : values ≠ [])
    (words : ∀ value ∈ values, Text.isWord value = true) :
    splitName (Text.joinWith '|' values) = (none, Text.joinWith '|' values) := by
  obtain ⟨first, hfirst, behind, htext, hbar⟩ := Text.joinWith_eq_append hne
  have hword := ((Text.isWord_iff first).1 (words first hfirst)).2
  have hend : ∀ c ∈ behind.head?, Text.isWordPart c = false := by
    intro c hc
    rw [hbar c hc]
    decide
  have hrest : (Text.joinWith '|' values).dropWhile Text.isWordPart = behind := by
    rw [htext, Text.dropWhile_append_of_head hword hend]
  have htrim : Text.trimLeft behind = behind := by
    apply @Text.dropWhile_append_of_head Text.isBlank [] behind (by simp)
    intro c hc
    rw [hbar c hc]
    decide
  rw [splitName, hrest, htrim]
  split
  · exact absurd (hbar '=' rfl) (by decide)
  · rfl

theorem splitName_named {name before behind rest : List Char} (hname : Text.isWord name = true)
    (hbefore : ∀ c ∈ before, Text.isBlank c = true) (hbehind : ∀ c ∈ behind, Text.isBlank c = true)
    (hrest : ∀ c ∈ rest.head?, Text.isBlank c = false) :
    splitName (name ++ (before ++ '=' :: (behind ++ rest))) = (some name, rest) := by
  obtain ⟨hne, hword⟩ := (Text.isWord_iff name).1 hname
  have hend : ∀ c ∈ (before ++ '=' :: (behind ++ rest)).head?, Text.isWordPart c = false := by
    intro c hc
    cases before with
    | nil => cases hc; decide
    | cons blank more =>
      cases hc
      exact Text.isWordPart_eq_false_of_isBlank (hbefore _ List.mem_cons_self)
  have hsign : Text.trimLeft (before ++ '=' :: (behind ++ rest)) = '=' :: (behind ++ rest) :=
    Text.dropWhile_append_of_head hbefore fun c hc => by cases hc; decide
  have hvalues : Text.trimLeft (behind ++ rest) = rest :=
    Text.dropWhile_append_of_head hbehind hrest
  rw [splitName, Text.dropWhile_append_of_head hword hend, Text.takeWhile_append_of_head hword hend,
    hsign]
  simp only [hvalues]
  rw [if_neg (by simpa using hne)]

/-- An item that has a name is the name, blanks around the equals sign, and the values. -/
theorem splitName_eq_some {text name behind : List Char} (h : splitName text = (some name, behind)) :
    Text.isWord name = true ∧ ∃ before after, (∀ c ∈ before, Text.isBlank c = true) ∧
      (∀ c ∈ after, Text.isBlank c = true) ∧ text = name ++ (before ++ '=' :: (after ++ behind)) := by
  rw [splitName] at h
  split at h
  · next after hsign =>
    split at h
    · cases h
    · next hne =>
      cases h
      refine ⟨?_, (text.dropWhile Text.isWordPart).takeWhile Text.isBlank,
        after.takeWhile Text.isBlank, ?_, ?_, ?_⟩
      · exact (Text.isWord_iff _).2 ⟨by simpa using hne, fun c hc => Text.of_mem_takeWhile hc⟩
      · exact fun c hc => Text.of_mem_takeWhile hc
      · exact fun c hc => Text.of_mem_takeWhile hc
      · rw [Text.trimLeft, List.takeWhile_append_dropWhile, ← hsign, Text.trimLeft,
          List.takeWhile_append_dropWhile, List.takeWhile_append_dropWhile]
  · cases h

theorem splitName_eq_none {text behind : List Char} (h : splitName text = (none, behind)) :
    behind = text := by
  rw [splitName] at h
  split at h
  · split at h <;> cases h
    rfl
  · cases h
    rfl

/-- Reading an item succeeds on the texts of the grammar, and finds what they say. -/
theorem parse?_eq_some_iff {item : String} {found : PropertyItem} :
    parse? item = some found ↔ ItemText item.toList found := by
  constructor
  · intro h
    rw [parse?] at h
    split at h
    next name behind hsplit =>
    obtain ⟨values, hvalues, rfl⟩ := Option.map_eq_some_iff.1 h
    obtain ⟨words, hne, hwords, rfl, rfl⟩ := values?_eq_some_iff.1 hvalues
    cases name with
    | none =>
      rw [← splitName_eq_none hsplit]
      exact .unnamed hne hwords
    | some name =>
      obtain ⟨hname, before, after, hbefore, hafter, htext⟩ := splitName_eq_some hsplit
      rw [htext]
      exact .named hname hbefore hafter hne hwords
  · intro h
    generalize htext : item.toList = text at h
    cases h with
    | @unnamed values hne words =>
      have hvalues := values?_eq_some_iff.2 ⟨values, hne, words, rfl, rfl⟩
      rw [parse?, htext, splitName_joinWith hne words]
      simp [hvalues]
    | @named name before behind values hname hbefore hbehind hne words =>
      have hvalues := values?_eq_some_iff.2 ⟨values, hne, words, rfl, rfl⟩
      have hhead : ∀ c ∈ (Text.joinWith '|' values).head?, Text.isBlank c = false := by
        obtain ⟨first, hfirst, rest, hjoin, -⟩ := Text.joinWith_eq_append hne
        obtain ⟨hfne, hword⟩ := (Text.isWord_iff first).1 (words first hfirst)
        obtain ⟨d, more, rfl⟩ := List.exists_cons_of_ne_nil hfne
        intro c hc
        rw [hjoin] at hc
        cases hc
        exact Text.isBlank_eq_false_of_isWordPart (hword _ List.mem_cons_self)
      rw [parse?, htext, splitName_named hname hbefore hbehind hhead]
      simp [hvalues]

end PropertyItem

theorem listed_joinWith {α : Type} {part : List Char → α → Prop} {raws : List (List Char)}
    {parts : List α} (hne : raws ≠ [])
    (h : List.Forall₂ (fun raw a => part (Text.trimChars raw) a) raws parts) :
    Listed part (Text.joinWith ',' raws) parts := by
  induction h with
  | nil => exact absurd rfl hne
  | @cons raw a raws parts ha hrest ih =>
    cases hrest with
    | nil => exact .last ha
    | cons hb hmore => exact .more ha (ih (List.cons_ne_nil _ _))

theorem forall₂_pieces_of_listed {α : Type} {part : List Char → α → Prop} {text : List Char}
    {parts : List α} (hcomma : ∀ raw a, part (Text.trimChars raw) a → ',' ∉ raw)
    (h : Listed part text parts) :
    List.Forall₂ (fun raw a => part (Text.trimChars raw) a) (Text.pieces ',' text) parts := by
  induction h with
  | last ha =>
    rw [Text.pieces_of_notMem (hcomma _ _ ha)]
    exact .cons ha .nil
  | more ha tail ih =>
    rw [Text.pieces_append_separator (hcomma _ _ ha)]
    exact .cons ha ih

/-- The characters that an item may have. -/
def isItemPart (c : Char) : Bool :=
  Text.isWordPart c || Text.isBlank c || c == '|' || c == '='

theorem isItemPart_joinWith {values : List (List Char)}
    (words : ∀ value ∈ values, Text.isWord value = true) :
    ∀ c ∈ Text.joinWith '|' values, isItemPart c = true := by
  induction values with
  | nil => simp [Text.joinWith]
  | cons first rest ih =>
    have hfirst : ∀ c ∈ first, isItemPart c = true := by
      intro c hc
      simp [isItemPart, ((Text.isWord_iff first).1 (words first List.mem_cons_self)).2 c hc]
    have hrest := ih fun value hv => words value (List.mem_cons_of_mem _ hv)
    cases rest with
    | nil => exact hfirst
    | cons second more =>
      intro c hc
      rcases List.mem_append.1 hc with hc | hc
      · exact hfirst c hc
      · rcases List.mem_cons.1 hc with rfl | hc
        · decide
        · exact hrest c hc

theorem ItemText.isItemPart {text : List Char} {item : PropertyItem} (h : ItemText text item) :
    ∀ c ∈ text, isItemPart c = true := by
  cases h with
  | unnamed hne words => exact isItemPart_joinWith words
  | named hname hbefore hbehind hne words =>
    intro c hc
    simp only [List.mem_append, List.mem_cons] at hc
    rcases hc with hc | hc | rfl | hc | hc
    · simp [VoxelQuery.isItemPart, ((Text.isWord_iff _).1 hname).2 c hc]
    · simp [VoxelQuery.isItemPart, hbefore c hc]
    · decide
    · simp [VoxelQuery.isItemPart, hbehind c hc]
    · exact isItemPart_joinWith words c hc

theorem ItemText.isItemPart_raw {raw : List Char} {item : PropertyItem}
    (h : ItemText (Text.trimChars raw) item) : ∀ c ∈ raw, VoxelQuery.isItemPart c = true := by
  intro c hc
  cases hblank : Text.isBlank c with
  | true => simp [VoxelQuery.isItemPart, hblank]
  | false => exact h.isItemPart c (Text.mem_trimChars_of_mem hc hblank)

theorem ItemText.comma_notMem_raw {raw : List Char} {item : PropertyItem}
    (h : ItemText (Text.trimChars raw) item) : ',' ∉ raw :=
  fun hmem => absurd (h.isItemPart_raw _ hmem) (by decide)

/-- Between the brackets of a group there are no other characters than those of its items, and
commas. So no bracket stands in a group. -/
theorem isItemPart_of_listed {interior : List Char} {items : List PropertyItem}
    (h : Listed ItemText interior items) :
    ∀ c ∈ interior, c = ',' ∨ isItemPart c = true := by
  induction h with
  | last ha => exact fun c hc => .inr (ha.isItemPart_raw c hc)
  | more ha tail ih =>
    intro c hc
    rcases List.mem_append.1 hc with hc | hc
    · exact .inr (ha.isItemPart_raw c hc)
    · rcases List.mem_cons.1 hc with rfl | hc
      · exact .inl rfl
      · exact ih c hc

theorem bracket_notMem_of_listed {interior : List Char} {items : List PropertyItem}
    (h : Listed ItemText interior items) : '[' ∉ interior ∧ ']' ∉ interior :=
  ⟨fun hc => absurd (isItemPart_of_listed h _ hc) (by decide),
    fun hc => absurd (isItemPart_of_listed h _ hc) (by decide)⟩

/-- All items of a group can be read if and only if the grammar has the group. -/
theorem forall₂_parse?_iff {interior : String} {items : List PropertyItem} :
    List.Forall₂ (fun item found => PropertyItem.parse? item = some found) (groupItems interior) items
      ↔ Listed ItemText interior.toList items := by
  have hread : ∀ (raw : List Char) (found : PropertyItem),
      PropertyItem.parse? (String.ofList (Text.trimChars raw)) = some found ↔
        ItemText (Text.trimChars raw) found := by
    intro raw found
    rw [PropertyItem.parse?_eq_some_iff, String.toList_ofList]
  rw [groupItems, List.forall₂_map_left_iff]
  simp only [hread]
  constructor
  · intro h
    rw [← Text.joinWith_pieces ',' interior.toList]
    exact listed_joinWith (Text.pieces_ne_nil _ _) h
  · intro h
    exact forall₂_pieces_of_listed (fun raw found => ItemText.comma_notMem_raw) h

end VoxelQuery
