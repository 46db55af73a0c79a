import VoxelQuery.Table

/-! The order of named fields. A later field overwrites an earlier one of the same name, names that
are list indices come first and count upwards, all others stand in order of first writing. -/
namespace VoxelQuery.Record

/-- The index that a name writes in plain decimal, below `2 ^ 32 - 1`. -/
def index? (name : String) : Option Nat :=
  let chars := name.toList
  let n := chars.foldl (fun n c => 10 * n + (c.toNat - '0'.toNat)) 0
  if chars.all Char.isDigit && (toString n).toList == chars && n < 4294967295 then some n else none

/-- Indices in increasing order, then the remaining entries as they stand. -/
def indicesFirst {α : Type} (entries : List (String × α)) : List (String × α) :=
  let indexed := entries.filterMap fun e => (index? e.1).map fun n => (n, e)
  (indexed.mergeSort fun a b => decide (a.1 ≤ b.1)).map Prod.snd ++
    entries.filter fun e => (index? e.1).isNone

def fields {α : Type} (pairs : List (String × α)) : List (String × α) :=
  indicesFirst (Table.ofPairs pairs).entries

example : (["0", "10", "01", "", "-1", "4294967295"].map index?) =
    [some 0, some 10, none, none, none, none] := by decide +kernel

end VoxelQuery.Record
