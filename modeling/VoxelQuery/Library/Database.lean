import VoxelQuery.Library.Context
import VoxelQuery.Number.Decimal

/-! The database of saved queries. A query saved again keeps its identity, its time of creation
and its row, and gets the later text, description and time of change. -/
namespace VoxelQuery

structure SavedQuery where
  id : String
  name : String
  description : Option String
  text : String
  createdAt : String
  updatedAt : String
  deriving DecidableEq

/-- A fresh identity and the reading of the clock, taken when a query is saved. -/
structure Stamp where
  id : String
  time : String
  deriving DecidableEq

/-- Before the first migration there is no table. -/
structure Database where
  version : Int
  table? : Option (Table String SavedQuery)
  deriving DecidableEq

namespace Database

def schemaVersion : Int := 1

def blank : Database := ⟨0, none⟩

/-- The version is only ever raised, and saved rows stay. -/
def migrate (db : Database) : Database :=
  ⟨max db.version schemaVersion, some (db.table?.getD .empty)⟩

/-- The version that a number is taken for: the digits in front of its text, as an integer of 32
bits with a sign, and zero if they do not fit. -/
def versionOf (n : Number) : Int :=
  let (sign, digits) : Int × List Char :=
    match n.text.toList with
    | '-' :: rest => (-1, rest)
    | rest => (1, rest)
  let size := (digits.takeWhile Char.isDigit).foldl (fun n c => 10 * n + (c.toNat - '0'.toNat)) 0
  let version := sign * (size : Int)
  if -2147483648 ≤ version ∧ version ≤ 2147483647 then version else 0

def setVersion (db : Database) (n : Number) : Database := { db with version := versionOf n }

def rows (db : Database) : Except Failure (Table String SavedQuery) :=
  match db.table? with
  | some table => .ok table
  | none => .error .tableMissing

def savedRow (table : Table String SavedQuery) (stamp : Stamp) (q : QuerySpec) : SavedQuery :=
  match table.get? q.name with
  | some old => { old with description := q.description, text := q.text, updatedAt := stamp.time }
  | none => ⟨stamp.id, q.name, q.description, q.text, stamp.time, stamp.time⟩

def save (db : Database) (stamp : Stamp) (q : QuerySpec) :
    Except Failure (Database × SavedQuery) := do
  let table ← db.rows
  let row := savedRow table stamp q
  .ok ({ db with table? := some (table.put q.name row) }, row)

def find? (db : Database) (name : String) : Except Failure (Option SavedQuery) :=
  db.rows.map fun table => table.get? name

/-- By time of creation, and among equal times by row. -/
def all (db : Database) : Except Failure (List SavedQuery) :=
  db.rows.map fun table => table.values.mergeSort fun a b => decide (¬b.createdAt < a.createdAt)

end Database

end VoxelQuery
