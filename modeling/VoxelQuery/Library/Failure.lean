import VoxelQuery.Query.Error

/-! The ways in which naming, saving and loading a query can fail. -/
namespace VoxelQuery

inductive Failure where
  | query (error : QueryError)
  | storeFrozen
  | tableMissing
  deriving DecidableEq

def Failure.message : Failure → String
  | query error => error.message
  | storeFrozen => "Cannot modify the predefined query store after it has been frozen"
  | tableMissing => "no such table: saved_queries"

end VoxelQuery
