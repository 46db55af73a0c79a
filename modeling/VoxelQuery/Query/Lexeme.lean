import VoxelQuery.Text.Word

/-! Lexemes, the smallest parts of a segment: the bang, bare names, names behind a sigil, and
bracket groups. Scanning takes the longest lexeme in front of a text. -/
namespace VoxelQuery

inductive Sigil where
  | typeTag
  | strictTypeTag
  | material
  | reference
  deriving DecidableEq

namespace Sigil

def symbol : Sigil → Char
  | typeTag => '%'
  | strictTypeTag => '$'
  | material => '~'
  | reference => '@'

def ofSymbol? (c : Char) : Option Sigil :=
  if c = '%' then some typeTag
  else if c = '$' then some strictTypeTag
  else if c = '~' then some material
  else if c = '@' then some reference
  else none

@[simp] theorem ofSymbol?_symbol (sigil : Sigil) : ofSymbol? sigil.symbol = some sigil := by
  cases sigil <;> decide

theorem eq_symbol_of_ofSymbol? {c : Char} {sigil : Sigil} (h : ofSymbol? c = some sigil) :
    c = sigil.symbol := by
  unfold ofSymbol? at h
  grind [Sigil.symbol]

end Sigil

inductive Lexeme where
  | bang
  | bare (name : String)
  | marked (sigil : Sigil) (name : String)
  | group (interior : String)
  deriving DecidableEq

/-- What is wrong with the text of a segment. -/
inductive TextFault where
  | nameExpected (sigil : Char)
  | groupOpen
  | strayCharacter
  | bangRepeated
  | bangWithoutTerm
  | itemInvalid (item : String)
  deriving DecidableEq

namespace Lexeme

/-- The lexeme as it is written. -/
def chars : Lexeme → List Char
  | bang => ['!']
  | bare name => name.toList
  | marked sigil name => sigil.symbol :: name.toList
  | group interior => '[' :: (interior.toList ++ [']'])

def text (lexeme : Lexeme) : String := String.ofList lexeme.chars

/-- The lexeme without its sigil or its brackets. -/
def value : Lexeme → String
  | bang => ""
  | bare name => name
  | marked _ name => name
  | group interior => interior

/-- The lexeme in front of a text that starts with the character `c`, and what follows it. -/
def scan (c : Char) (rest : List Char) : Except TextFault (Lexeme × List Char) :=
  if c = '!' then .ok (bang, rest)
  else if Text.isIdentifierPart c then
    .ok (bare (String.ofList (c :: rest.takeWhile Text.isIdentifierPart)),
      rest.dropWhile Text.isIdentifierPart)
  else
    match Sigil.ofSymbol? c with
    | some sigil =>
      match rest.takeWhile Text.isWordPart with
      | [] => .error (.nameExpected c)
      | word => .ok (marked sigil (String.ofList word), rest.dropWhile Text.isWordPart)
    | none =>
      if c = '[' then
        match rest.dropWhile (· ≠ ']') with
        | [] => .error .groupOpen
        | _ :: behind => .ok (group (String.ofList (rest.takeWhile (· ≠ ']'))), behind)
      else .error .strayCharacter

/-- A lexeme and what follows it make up the text. -/
theorem chars_append_of_scan {c : Char} {rest behind : List Char} {lexeme : Lexeme}
    (h : scan c rest = .ok (lexeme, behind)) : lexeme.chars ++ behind = c :: rest := by
  unfold scan at h
  split at h
  · next hc => cases h; simp [chars, hc]
  · split at h
    · cases h; simp [chars]
    · split at h
      · next sigil hs =>
        split at h
        · cases h
        · cases h
          simp [chars, ← Sigil.eq_symbol_of_ofSymbol? hs]
      · split at h
        · next hc =>
          split at h
          · cases h
          · next close behind' hd =>
            cases h
            have hclose : close = ']' := by
              have := List.head?_dropWhile_not (fun x => decide (x ≠ ']')) rest
              rw [hd] at this
              simpa using this
            have := List.takeWhile_append_dropWhile (p := fun x => decide (x ≠ ']')) (l := rest)
            rw [hd, hclose] at this
            rw [chars, String.toList_ofList, hc]
            simp only [List.cons_append, List.append_assoc, List.nil_append]
            rw [this]
        · cases h

theorem length_lt_of_scan {c : Char} {rest behind : List Char} {lexeme : Lexeme}
    (h : scan c rest = .ok (lexeme, behind)) : behind.length < (c :: rest).length := by
  have hl := congrArg List.length (chars_append_of_scan h)
  have hpos : 0 < lexeme.chars.length := by
    unfold scan at h
    grind [chars, String.toList_ofList]
  rw [List.length_append] at hl
  omega

end Lexeme

end VoxelQuery
