import VoxelQuery.Library.Database

/-! A library is a context together with its saved queries. Saved queries are loaded in passes,
because a text may refer to a query that was saved after it. -/
namespace VoxelQuery

structure Library where
  context : Context
  database : Database

inductive Source where
  | preset
  | declared
  | saved
  deriving DecidableEq

structure Listing where
  name : String
  description : Option String
  source : Source
  text : Option String
  deriving DecidableEq

structure LoadReport where
  loaded : List String
  failed : List (SavedQuery × QueryError)

/-- The outcome of trying each pending query once. -/
structure LoadPass where
  context : Context
  loaded : List String
  failed : List (SavedQuery × QueryError)

namespace Library

/-- Compile, save, register. A store that is frozen is found out only after the query was saved,
so the library is given back also where the definition fails. -/
def define (l : Library) (stamp : Stamp) (q : QuerySpec) : Except Failure SavedQuery × Library :=
  match l.context.compile q.text with
  | .error e => (.error (.query e), l)
  | .ok p =>
    match l.database.save stamp q with
    | .error e => (.error e, l)
    | .ok (database, row) =>
      match l.context.store.register row.name p with
      | .error e => (.error e, { l with database := database })
      | .ok store =>
        (.ok row, { context := { l.context with store := store }, database := database })

/-- A query that does not compile is kept for a later pass; any other failure ends the loading. -/
def loadOnce (c : Context) : List SavedQuery → Except Failure LoadPass
  | [] => .ok ⟨c, [], []⟩
  | saved :: rest =>
    match c.register saved.name saved.text with
    | .ok (next, _) =>
      (loadOnce next rest).map fun pass => { pass with loaded := saved.name :: pass.loaded }
    | .error (.query e) =>
      (loadOnce c rest).map fun pass => { pass with failed := (saved, e) :: pass.failed }
    | .error other => .error other

/-- Passes go on as long as each of them registers something. -/
def loadPending (c : Context) (pending : List SavedQuery) :
    Except Failure (Context × LoadReport) := do
  let pass ← loadOnce c pending
  if pass.failed.length < pending.length then
    let (context, report) ← loadPending pass.context (pass.failed.map Prod.fst)
    .ok (context, { report with loaded := pass.loaded ++ report.loaded })
  else .ok (pass.context, ⟨pass.loaded, pass.failed⟩)
termination_by pending.length

def load (l : Library) : Except Failure (Library × LoadReport) := do
  let pending ← l.database.all
  let (context, report) ← loadPending l.context pending
  .ok ({ l with context := context }, report)

/-- The presets whose names are registered, then declared queries, then saved ones. -/
def list (l : Library) : Except Failure (List Listing) := do
  let presets := Preset.all.filter fun p => l.context.store.contains p.name
  let saved ← l.database.all
  .ok <|
    presets.map (fun p => ⟨p.name, some p.description, .preset, none⟩) ++
    l.context.declared.values.map (fun q => ⟨q.name, q.description, .declared, some q.text⟩) ++
    saved.map (fun q => ⟨q.name, q.description, .saved, some q.text⟩)

end Library

end VoxelQuery
