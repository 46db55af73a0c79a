import VoxelQuery.Text.LetterCase

/-! Lower-casing without a locale. Two letters need more than the table: a dotted capital I becomes
two characters, and a capital sigma takes its final form at the end of a word. -/
namespace VoxelQuery.Text

/-- Ranges stand in order, so the search ends at the first one that starts later. -/
def inRanges (n : Nat) : List (Nat × Nat) → Bool
  | [] => false
  | r :: rest => if n < r.1 then false else if n ≤ r.2 then true else inRanges n rest

def isCased (c : Char) : Bool := inRanges c.toNat casedRanges

def isIgnorable (c : Char) : Bool := inRanges c.toNat ignorableRanges

def lowerCode (n : Nat) : List LowerRun → Nat
  | [] => n
  | r :: rest =>
    if n < r.first then n
    else if n ≤ r.last then
      if (n - r.first) % r.stride = 0 then r.target + (n - r.first) else n
    else lowerCode n rest

def lowerChar (c : Char) : Char := Char.ofNat (lowerCode c.toNat lowerRuns)

/-- Whether a cased letter stands next, ignorable characters passed over. -/
def casedNext (text : List Char) : Bool :=
  match text.dropWhile isIgnorable with
  | [] => false
  | c :: _ => isCased c

/-- The flag says whether a cased letter came last, ignorable characters passed over. -/
def lowerFrom (casedBefore : Bool) : List Char → List Char
  | [] => []
  | c :: rest =>
    let here :=
      if c = 'Σ' then (if casedBefore && !casedNext rest then ['ς'] else ['σ'])
      else if c = 'İ' then ['i', '\u0307']
      else [lowerChar c]
    here ++ lowerFrom (if isIgnorable c then casedBefore else isCased c) rest

def lowerChars (text : List Char) : List Char := lowerFrom false text

def lower (text : String) : String := String.ofList (lowerChars text.toList)

@[simp] theorem toList_lower (text : String) : (lower text).toList = lowerChars text.toList := by
  simp [lower]

example : lowerChars "ΑΣ ΑΣΑ Σ Α.Σ,İK".toList = "ας ασα σ α.ς,i\u0307k".toList := by decide +kernel

end VoxelQuery.Text
