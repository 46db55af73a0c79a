import VoxelQuery.Proofs.History
import VoxelQuery.Proofs.Query.Denotation
import VoxelQuery.Proofs.Query.Rendering
import VoxelQuery.Proofs.Text.Ascii

/-! Other spellings of the items of bracket groups and of the segments around them. An item that is
spelled otherwise is the same test, and a segment with other gaps or other items reads as before. -/
namespace VoxelQuery

/-- Other spellings of an item without the blanks around it. A bare item belongs to the given
property. -/
inductive ItemRewrite (property : List Char) : List Char → List Char → Prop
  | same (item : List Char) : ItemRewrite property item item
  | sign {name before behind before' behind' values : List Char} (hname : Text.isWord name = true)
      (hblanks : ∀ c ∈ before ++ behind, Text.isBlank c = true)
      (hblanks' : ∀ c ∈ before' ++ behind', Text.isBlank c = true)
      (hvalues : ∀ c ∈ values.head?, Text.isBlank c = false) :
      ItemRewrite property (name ++ (before ++ '=' :: (behind ++ values)))
        (name ++ (before' ++ '=' :: (behind' ++ values)))
  | letters {item item' : List Char} (h : item'.map Char.toLower = item.map Char.toLower) :
      ItemRewrite property item item'
  | again {item again : List Char} {found : PropertyItem} {value : String}
      (hitem : ItemText item found) (hvalue : value ∈ found.values)
      (hagain : again.map Char.toLower = value.toList.map Char.toLower) :
      ItemRewrite property item (item ++ '|' :: again)
  | named {item : List Char} (hproperty : Text.isWord property = true) (hbare : '=' ∉ item) :
      ItemRewrite property item (property ++ '=' :: item)

namespace PropertyItem

/-- The item in small letters. -/
def small (item : PropertyItem) : PropertyItem :=
  ⟨item.name.map Text.small, item.values.map Text.small⟩

theorem splitName_map_toLower (text : List Char) : splitName (text.map Char.toLower) =
    ((splitName text).1.map (List.map Char.toLower), (splitName text).2.map Char.toLower) := by
  have hword : Text.isWordPart ∘ Char.toLower = Text.isWordPart :=
    funext fun c => (Text.caseForms_toLower c).word
  simp only [splitName, List.takeWhile_map, List.dropWhile_map, hword, Text.trimLeft_map_toLower]
  cases Text.trimLeft (text.dropWhile Text.isWordPart) with
  | nil => rfl
  | cons c behind =>
    by_cases hsign : c = '='
    · subst hsign
      cases hempty : (text.takeWhile Text.isWordPart).isEmpty <;>
        simp [hempty, Text.toLower_eq_self, Text.trimLeft_map_toLower]
    · have hsign' : c.toLower ≠ '=' := fun h => hsign ((Text.toLower_eq_iff (by decide)).1 h)
      simp [hsign, hsign']

theorem values?_map_toLower (text : List Char) :
    values? (text.map Char.toLower) = (values? text).map (List.map Text.small) := by
  have hbar : '|'.isAlpha = false := by decide
  have hwords : (Text.isWord ∘ List.map Char.toLower) = Text.isWord :=
    funext Text.isWord_map_toLower
  simp only [values?, Text.pieces_map_toLower hbar, List.all_map, hwords]
  split
  · simp [Text.small]
  · rfl

theorem parse?_map_toLower (item : List Char) :
    parse? (String.ofList (item.map Char.toLower)) = (parse? (String.ofList item)).map small := by
  simp only [parse?, String.toList_ofList, splitName_map_toLower, values?_map_toLower,
    Option.map_map]
  congr 1
  funext values
  cases (splitName item).1 <;> simp [small, Text.small]

end PropertyItem

namespace Environment

variable {env : Environment} {property item item' : List Char} {found : PropertyItem}

theorem itemTest_small (found : PropertyItem) : env.itemTest found.small = env.itemTest found := by
  obtain ⟨name, values⟩ := found
  cases name <;>
    simp [itemTest, propertyName, PropertyItem.small, Predicate.ofProperty, Function.comp_def]

/-- The name that an item without a name has. -/
def defaultName (env : Environment) : List Char :=
  (env.defaultProperty.getD standardProperty).toList

theorem exists_itemText_of_letters (h : item'.map Char.toLower = item.map Char.toLower)
    (hitem : ItemText item found) :
    ∃ found', ItemText item' found' ∧ env.itemTest found' = env.itemTest found := by
  have hfound : PropertyItem.parse? (String.ofList item) = some found :=
    PropertyItem.parse?_eq_some_iff.2 (by rwa [String.toList_ofList])
  have hsmall : (PropertyItem.parse? (String.ofList item')).map PropertyItem.small =
      some found.small := by
    rw [← PropertyItem.parse?_map_toLower, h, PropertyItem.parse?_map_toLower, hfound,
      Option.map_some]
  obtain ⟨found', hfound', heq⟩ := Option.map_eq_some_iff.1 hsmall
  refine ⟨found', ?_, ?_⟩
  · rw [← String.toList_ofList (l := item')]
    exact PropertyItem.parse?_eq_some_iff.1 hfound'
  · rw [← itemTest_small found', heq, itemTest_small]

theorem exists_itemText_of_sign {name before behind before' behind' values : List Char}
    (hname : Text.isWord name = true) (hblanks : ∀ c ∈ before ++ behind, Text.isBlank c = true)
    (hblanks' : ∀ c ∈ before' ++ behind', Text.isBlank c = true)
    (hvalues : ∀ c ∈ values.head?, Text.isBlank c = false)
    (hitem : ItemText (name ++ (before ++ '=' :: (behind ++ values))) found) :
    ItemText (name ++ (before' ++ '=' :: (behind' ++ values))) found := by
  obtain ⟨hbefore, hbehind⟩ := List.forall_mem_append.1 hblanks
  obtain ⟨hbefore', hbehind'⟩ := List.forall_mem_append.1 hblanks'
  have hread : ∀ {text : List Char}, ItemText text found ↔
      PropertyItem.parse? (String.ofList text) = some found := by
    intro text
    rw [PropertyItem.parse?_eq_some_iff, String.toList_ofList]
  rw [hread, PropertyItem.parse?, String.toList_ofList] at hitem ⊢
  rw [PropertyItem.splitName_named hname hbefore hbehind hvalues] at hitem
  rwa [PropertyItem.splitName_named hname hbefore' hbehind' hvalues]

end Environment

/-- One more word behind a bar is one more value. -/
theorem ItemText.append_value {item value : List Char} {found : PropertyItem}
    (h : ItemText item found) (hvalue : Text.isWord value = true) :
    ItemText (item ++ '|' :: value)
      { found with values := found.values ++ [String.ofList value] } := by
  cases h with
  | @unnamed values hne words =>
    have hword : ∀ word ∈ values ++ [value], Text.isWord word = true :=
      List.forall_mem_append.2 ⟨words, List.forall_mem_singleton.2 hvalue⟩
    have hitem := ItemText.unnamed (by simp) hword
    rwa [Text.joinWith_concat hne, List.map_append] at hitem
  | @named name before behind values hname hbefore hbehind hne words =>
    have hword : ∀ word ∈ values ++ [value], Text.isWord word = true :=
      List.forall_mem_append.2 ⟨words, List.forall_mem_singleton.2 hvalue⟩
    have hitem := ItemText.named hname hbefore hbehind (by simp) hword
    rw [Text.joinWith_concat hne, List.map_append] at hitem
    simpa using hitem

theorem ItemText.isWord_of_mem {item : List Char} {found : PropertyItem} (h : ItemText item found)
    {value : String} (hvalue : value ∈ found.values) : Text.isWord value.toList = true := by
  cases h with
  | unnamed hne words =>
    obtain ⟨word, hword, rfl⟩ := List.mem_map.1 hvalue
    rw [String.toList_ofList]
    exact words word hword
  | named hname hbefore hbehind hne words =>
    obtain ⟨word, hword, rfl⟩ := List.mem_map.1 hvalue
    rw [String.toList_ofList]
    exact words word hword

/-- An item that is spelled otherwise is the same test. -/
theorem ItemRewrite.exists_itemText {env : Environment} {item item' : List Char}
    {found : PropertyItem} (h : ItemRewrite env.defaultName item item')
    (hitem : ItemText item found) :
    ∃ found', ItemText item' found' ∧ env.itemTest found' = env.itemTest found := by
  cases h with
  | same item => exact ⟨found, hitem, rfl⟩
  | letters h => exact Environment.exists_itemText_of_letters h hitem
  | sign hname hblanks hblanks' hvalues =>
    exact ⟨found, Environment.exists_itemText_of_sign hname hblanks hblanks' hvalues hitem, rfl⟩
  | @again _ again other value hother hvalue hagain =>
    obtain rfl := hother.unique hitem
    have hword : Text.isWord again = true := by
      rw [← Text.isWord_map_toLower, hagain, Text.isWord_map_toLower]
      exact hitem.isWord_of_mem hvalue
    refine ⟨_, hitem.append_value hword, ?_⟩
    have hlower : Text.lower (String.ofList again) = Text.lower value := by
      have hsmall : Text.small (String.ofList again) = Text.small value := by
        rw [Text.small, String.toList_ofList, hagain, Text.small]
      rw [← Text.lower_small, hsmall, Text.lower_small]
    have hmem : Text.lower value ∈ other.values.map Text.lower := List.mem_map_of_mem hvalue
    simp only [Environment.itemTest, Predicate.ofProperty, List.map_append, List.map_singleton,
      hlower, Predicate.distinct_concat, if_pos hmem]
    rfl
  | named hproperty hbare =>
    cases hitem with
    | @unnamed values hne words =>
      refine ⟨_, @ItemText.named _ [] [] _ hproperty (by simp) (by simp) hne words, ?_⟩
      simp [Environment.itemTest, Environment.propertyName, Environment.defaultName]
    | named => simp at hbare

section Gaps

theorem Text.exists_append_of_unitLength_le {u rest a b : List Char} (h : u ++ rest = a ++ b)
    (hle : unitLength u ≤ unitLength a) : ∃ a', a = u ++ a' ∧ rest = a' ++ b := by
  rcases List.append_eq_append_iff.1 h with ⟨a', ha, hrest⟩ | ⟨more, hu, hb⟩
  · exact ⟨a', ha, hrest⟩
  · rw [hu, unitLength_append] at hle
    cases more with
    | nil => exact ⟨[], by simpa using hu.symm, by simpa using hb.symm⟩
    | cons c _ =>
      have hc := width_pos c
      rw [unitLength_cons] at hle
      omega

namespace Token

variable {offset : Nat} {text b : List Char} {found : List Token} {c : Char}

/-- The same lexemes at other offsets. -/
theorem Spells.shift (h : Spells offset text found) (start : Nat) :
    ∃ found', Spells start text found' ∧ found'.map Token.lexeme = found.map Token.lexeme := by
  induction h generalizing start with
  | nil => exact ⟨[], .nil start, rfl⟩
  | gap hc tail ih =>
    obtain ⟨found', hs, hl⟩ := ih (start + 1)
    exact ⟨found', .gap hc hs, hl⟩
  | token hw he tail ih =>
    obtain ⟨found', hs, hl⟩ := ih _
    exact ⟨_, .token hw he hs, by rw [List.map_cons, hl, List.map_cons]⟩

/-- A gap more between two tokens changes no lexeme. -/
theorem Spells.insert_gap (hc : isGap c = true) {a : List Char}
    (h : Spells offset (a ++ b) found)
    (hapart : ∀ t ∈ found, offset + Text.unitLength a ≤ t.offset ∨
      t.offset + t.width ≤ offset + Text.unitLength a) :
    ∃ found', Spells offset (a ++ c :: b) found' ∧
      found'.map Token.lexeme = found.map Token.lexeme := by
  generalize htext : a ++ b = text at h
  induction h generalizing a with
  | nil =>
    obtain ⟨rfl, rfl⟩ := List.append_eq_nil_iff.1 htext
    exact ⟨[], .gap hc (.nil _), rfl⟩
  | @gap offset c' text found hc' tail ih =>
    cases a with
    | nil =>
      obtain rfl : b = c' :: text := htext
      obtain ⟨found', hs, hl⟩ := (Spells.gap hc' tail).shift (offset + 1)
      exact ⟨found', .gap hc hs, hl⟩
    | cons d a =>
      obtain ⟨rfl, rfl⟩ := List.cons.inj htext
      obtain ⟨found', hs, hl⟩ := ih (a := a) (by
        simpa [width_of_isGap hc', Nat.add_assoc] using hapart) rfl
      exact ⟨found', .gap hc' hs, hl⟩
  | @token offset lexeme text found hw he tail ih =>
    cases a with
    | nil =>
      obtain rfl : b = lexeme.chars ++ text := htext
      obtain ⟨found', hs, hl⟩ := (Spells.token hw he tail).shift (offset + 1)
      exact ⟨found', .gap hc hs, hl⟩
    | cons d a =>
      obtain ⟨hfirst, hrest⟩ := List.forall_mem_cons.1 hapart
      have hd := Text.width_pos d
      have hwithin : Text.unitLength lexeme.chars ≤ Text.unitLength (d :: a) := by
        simp only [Token.width, Text.unitLength_cons] at hfirst ⊢
        omega
      obtain ⟨a', ha', rfl⟩ := Text.exists_append_of_unitLength_le htext.symm hwithin
      rw [ha', Text.unitLength_append, ← Nat.add_assoc] at hrest
      obtain ⟨found', hs, hl⟩ := ih (a := a') hrest rfl
      have hend : lexeme.EndsBefore (a' ++ c :: b) := by
        cases a' with
        | nil => exact lexeme.endsBefore_of_gap (by simpa using hc)
        | cons e more => cases lexeme <;> exact he
      refine ⟨⟨lexeme, offset⟩ :: found', ?_, by rw [List.map_cons, hl, List.map_cons]⟩
      rw [ha', List.append_assoc]
      exact .token hw hend hs

end Token

end Gaps

section Groups

variable {text rest front interior behind : List Char} {atom : Atom} {terms : List Term}

/-- An atom in front of a text with a group later on ends before the group, or is the group. -/
theorem AtomText.append_eq (h : AtomText text atom) (hclose : ']' ∉ interior)
    (heq : text ++ rest = front ++ '[' :: (interior ++ ']' :: behind)) :
    (∃ front', front = text ++ front' ∧ rest = front' ++ '[' :: (interior ++ ']' :: behind)) ∨
      front = [] ∧ rest = behind ∧
        ∃ items, atom = .group items ∧ Listed ItemText interior items := by
  cases h with
  | bare hname =>
    refine .inl (Text.exists_append_of_notMem (fun hmem => ?_) heq)
    exact absurd (((Text.isIdentifier_iff _).1 hname).2 _ hmem) (by decide)
  | marked sigil hname =>
    refine .inl (Text.exists_append_of_notMem (fun hmem => ?_) heq)
    rcases List.mem_cons.1 hmem with hsymbol | hmem
    · cases sigil <;> exact absurd hsymbol (by decide)
    · exact absurd (((Text.isWord_iff _).1 hname).2 _ hmem) (by decide)
  | @group inside items opening closing hitems =>
    cases front with
    | nil =>
      right
      have hinside : inside ++ ']' :: rest = interior ++ ']' :: behind := by simpa using heq
      obtain ⟨rfl, hrest⟩ := Text.append_inj_of_head (Text.ne_of_notMem closing)
        (Text.ne_of_notMem hclose) (by simp) (by simp) hinside
      exact ⟨rfl, (List.cons.inj hrest).2, items, rfl, hitems⟩
    | cons d front =>
      left
      obtain ⟨rfl, hinside⟩ := List.cons.inj heq
      have hopen : '[' ∉ inside ++ [']'] := by simpa using opening
      obtain ⟨front', rfl, hrest⟩ := Text.exists_append_of_notMem hopen hinside
      exact ⟨front', rfl, hrest⟩

theorem Atom.EndsBefore.regroup {front inside inside' : List Char}
    (h : atom.EndsBefore (front ++ '[' :: inside)) : atom.EndsBefore (front ++ '[' :: inside') := by
  cases front <;> cases atom <;> exact h

/-- The group that stands at a place of a segment, and what becomes of the segment with other items
in it. -/
theorem SegmentText.regroup (h : SegmentText text terms) (hclose : ']' ∉ interior)
    (heq : text = front ++ '[' :: (interior ++ ']' :: behind)) :
    ∃ before negated items after, terms = before ++ ⟨negated, .group items⟩ :: after ∧
      Listed ItemText interior items ∧ ∀ interior' items', Listed ItemText interior' items' →
        SegmentText (front ++ '[' :: (interior' ++ ']' :: behind))
          (before ++ ⟨negated, .group items'⟩ :: after) := by
  have hgroup : ∀ {interior' items'}, Listed ItemText interior' items' →
      AtomText ('[' :: (interior' ++ [']'])) (.group items') := fun hitems =>
    .group (bracket_notMem_of_listed hitems).1 (bracket_notMem_of_listed hitems).2 hitems
  induction h generalizing front with
  | nil => simp at heq
  | @gap c rest terms hc tail ih =>
    cases front with
    | nil =>
      obtain ⟨rfl, -⟩ := List.cons.inj heq
      exact absurd hc (by decide)
    | cons d front =>
      obtain ⟨rfl, hrest⟩ := List.cons.inj heq
      obtain ⟨before, negated, items, after, rfl, hitems, hnew⟩ := ih hrest
      exact ⟨before, negated, items, after, rfl, hitems, fun interior' items' hl =>
        .gap hc (hnew interior' items' hl)⟩
  | @plain text rest atom terms h longest tail ih =>
    rcases h.append_eq hclose heq with ⟨front', rfl, hrest⟩ | ⟨rfl, rfl, items, rfl, hitems⟩
    · obtain ⟨before, negated, items, after, rfl, hitems, hnew⟩ := ih hrest
      refine ⟨⟨false, atom⟩ :: before, negated, items, after, rfl, hitems, ?_⟩
      intro interior' items' hl
      rw [hrest] at longest
      rw [List.append_assoc]
      exact .plain h longest.regroup (hnew interior' items' hl)
    · refine ⟨[], false, items, terms, rfl, hitems, ?_⟩
      intro interior' items' hl
      have hnew := SegmentText.plain (hgroup hl) trivial tail
      simpa using hnew
  | @negated gaps text rest atom terms hgaps h longest tail ih =>
    cases front with
    | nil => exact absurd (List.cons.inj heq).1 (by decide)
    | cons d front =>
      obtain ⟨rfl, hbehind⟩ := List.cons.inj heq
      have hopen : '[' ∉ gaps := fun hmem => absurd (hgaps _ hmem) (by decide)
      obtain ⟨front, rfl, hterm⟩ := Text.exists_append_of_notMem hopen hbehind
      rcases h.append_eq hclose hterm with ⟨front', rfl, hrest⟩ | ⟨rfl, rfl, items, rfl, hitems⟩
      · obtain ⟨before, negated, items, after, rfl, hitems, hnew⟩ := ih hrest
        refine ⟨⟨true, atom⟩ :: before, negated, items, after, rfl, hitems, ?_⟩
        intro interior' items' hl
        rw [hrest] at longest
        have hnew := SegmentText.negated hgaps h longest.regroup (hnew interior' items' hl)
        simpa using hnew
      · refine ⟨[], true, items, terms, rfl, hitems, ?_⟩
        intro interior' items' hl
        have hnew := SegmentText.negated hgaps (hgroup hl) trivial tail
        simpa using hnew

end Groups

end VoxelQuery
