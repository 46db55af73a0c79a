import VoxelQuery.Library.Failure
import VoxelQuery.Predicate.Basic
import VoxelQuery.Table

/-! The store of named predicates, which references in a query are looked up in. A name registered
again keeps its place and gets the later predicate, and a frozen store takes no more names. -/
namespace VoxelQuery

structure QueryStore where
  predicates : Table String Predicate
  frozen : Bool

namespace QueryStore

def empty : QueryStore := ⟨.empty, false⟩

def freeze (s : QueryStore) : QueryStore := { s with frozen := true }

def register (s : QueryStore) (name : String) (p : Predicate) : Except Failure QueryStore :=
  if s.frozen then .error .storeFrozen else .ok { s with predicates := s.predicates.put name p }

def lookup? (s : QueryStore) (name : String) : Option Predicate := s.predicates.get? name

def contains (s : QueryStore) (name : String) : Bool := s.predicates.contains name

def names (s : QueryStore) : List String := s.predicates.keys

def size (s : QueryStore) : Nat := s.predicates.size

end QueryStore

end VoxelQuery
