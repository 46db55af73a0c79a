import VoxelQuery.Query.Lexeme
import VoxelQuery.Query.PropertyItem
import VoxelQuery.Query.Token

/-! The grammar of queries, read over the whole text at once. Commas outside groups separate
segments and commas inside a group separate its items, without any count of brackets. -/
namespace VoxelQuery

/-- What a term asks for, before its names are looked up. -/
inductive Atom where
  | bare (name : String)
  | marked (sigil : Sigil) (name : String)
  | group (items : List PropertyItem)
  deriving DecidableEq

structure Term where
  negated : Bool
  atom : Atom
  deriving DecidableEq

/-- One or more parts with commas between them. Blanks at the ends of a part do not count. -/
inductive Listed {α : Type} (part : List Char → α → Prop) : List Char → List α → Prop
  | last {raw : List Char} {a : α} (h : part (Text.trimChars raw) a) : Listed part raw [a]
  | more {raw rest : List Char} {a : α} {others : List α} (h : part (Text.trimChars raw) a)
      (tail : Listed part rest others) : Listed part (raw ++ ',' :: rest) (a :: others)

/-- Words between bars, perhaps with a name and an equals sign in front. -/
inductive ItemText : List Char → PropertyItem → Prop
  | unnamed {values : List (List Char)} (hne : values ≠ [])
      (words : ∀ value ∈ values, Text.isWord value = true) :
      ItemText (Text.joinWith '|' values) ⟨none, values.map String.ofList⟩
  | named {name before behind : List Char} {values : List (List Char)}
      (hname : Text.isWord name = true) (hbefore : ∀ c ∈ before, Text.isBlank c = true)
      (hbehind : ∀ c ∈ behind, Text.isBlank c = true) (hne : values ≠ [])
      (words : ∀ value ∈ values, Text.isWord value = true) :
      ItemText (name ++ (before ++ '=' :: (behind ++ Text.joinWith '|' values)))
        ⟨some (String.ofList name), values.map String.ofList⟩

/-- Names as they stand or behind a sigil, and lists of items in brackets. -/
inductive AtomText : List Char → Atom → Prop
  | bare {name : String} (h : Text.isIdentifier name.toList = true) :
      AtomText name.toList (.bare name)
  | marked {name : String} (sigil : Sigil) (h : Text.isWord name.toList = true) :
      AtomText (sigil.symbol :: name.toList) (.marked sigil name)
  | group {interior : List Char} {items : List PropertyItem} (opening : '[' ∉ interior)
      (closing : ']' ∉ interior) (h : Listed ItemText interior items) :
      AtomText ('[' :: (interior ++ [']'])) (.group items)

/-- The longest match: a name does not go on with the text behind it. -/
def Atom.EndsBefore : Atom → List Char → Prop
  | bare _, behind => ∀ c ∈ behind.head?, Text.isIdentifierPart c = false
  | marked _ _, behind => ∀ c ∈ behind.head?, Text.isWordPart c = false
  | group _, _ => True

/-- Terms with gaps in front of them, between them and behind them, and also behind a bang. -/
inductive SegmentText : List Char → List Term → Prop
  | nil : SegmentText [] []
  | gap {c : Char} {rest : List Char} {terms : List Term} (hc : isGap c = true)
      (tail : SegmentText rest terms) : SegmentText (c :: rest) terms
  | plain {text rest : List Char} {atom : Atom} {terms : List Term} (h : AtomText text atom)
      (longest : atom.EndsBefore rest) (tail : SegmentText rest terms) :
      SegmentText (text ++ rest) (⟨false, atom⟩ :: terms)
  | negated {gaps text rest : List Char} {atom : Atom} {terms : List Term}
      (hgaps : ∀ c ∈ gaps, isGap c = true) (h : AtomText text atom)
      (longest : atom.EndsBefore rest) (tail : SegmentText rest terms) :
      SegmentText ('!' :: (gaps ++ (text ++ rest))) (⟨true, atom⟩ :: terms)

/-- Segments with commas between them. -/
def QueryText : List Char → List (List Term) → Prop := Listed SegmentText

end VoxelQuery
