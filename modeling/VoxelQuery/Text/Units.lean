/-! Lengths, offsets and order of texts counted in UTF-16 code units. A character of the first
plane is one unit, any other two, so offsets and order can differ from those by code point. -/
namespace VoxelQuery.Text

/-- The one or two units of a character. -/
def codeUnits (c : Char) : List Nat :=
  if c.toNat < 0x10000 then [c.toNat]
  else [0xD800 + (c.toNat - 0x10000) / 0x400, 0xDC00 + (c.toNat - 0x10000) % 0x400]

/-- The text of a sequence of units. A unit of a pair that stands alone becomes U+FFFD. -/
def ofUnits : List Nat → List Char
  | [] => []
  | [n] => [if 0xD800 ≤ n ∧ n < 0xE000 then '\uFFFD' else Char.ofNat n]
  | n :: m :: rest =>
    if 0xD800 ≤ n ∧ n < 0xDC00 ∧ 0xDC00 ≤ m ∧ m < 0xE000 then
      Char.ofNat (0x10000 + 0x400 * (n - 0xD800) + (m - 0xDC00)) :: ofUnits rest
    else (if 0xD800 ≤ n ∧ n < 0xE000 then '\uFFFD' else Char.ofNat n) :: ofUnits (m :: rest)

def width (c : Char) : Nat := if c.toNat < 0x10000 then 1 else 2

def unitLength : List Char → Nat
  | [] => 0
  | c :: rest => width c + unitLength rest

/-- What is left of a text after its first `n` units. -/
def dropUnits : Nat → List Char → List Char
  | _, [] => []
  | n, c :: rest => if n = 0 then c :: rest else dropUnits (n - width c) rest

/-- Lexicographic order of the code units. -/
def unitsLe (a b : String) : Bool :=
  decide (¬b.toList.flatMap codeUnits < a.toList.flatMap codeUnits)

@[simp] theorem length_codeUnits (c : Char) : (codeUnits c).length = width c := by
  unfold codeUnits width; split <;> rfl

@[simp] theorem unitLength_nil : unitLength [] = 0 := rfl

@[simp] theorem unitLength_cons (c : Char) (text : List Char) :
    unitLength (c :: text) = width c + unitLength text := rfl

@[simp] theorem unitLength_append (a b : List Char) :
    unitLength (a ++ b) = unitLength a + unitLength b := by
  induction a with
  | nil => simp
  | cons c a ih => simp [ih, Nat.add_assoc]

theorem width_pos (c : Char) : 0 < width c := by unfold width; split <;> decide

@[simp] theorem dropUnits_zero (text : List Char) : dropUnits 0 text = text := by
  cases text <;> simp [dropUnits]

/-- Dropping the units of a leading part leaves the rest. -/
@[simp] theorem dropUnits_unitLength_append (a b : List Char) :
    dropUnits (unitLength a) (a ++ b) = b := by
  induction a with
  | nil => simp
  | cons c a ih =>
    have h : width c + unitLength a ≠ 0 := by have := width_pos c; omega
    rw [unitLength_cons, List.cons_append, dropUnits, if_neg h, Nat.add_sub_cancel_left, ih]

end VoxelQuery.Text
