import VoxelQuery.Proofs.Library.Restart
import VoxelQuery.Service.Tool

/-! Serving. A library that was started from a catalog answers one call after the other. The only
call that changes it is a definition that succeeds, and that one registers a single name. -/
namespace VoxelQuery

/-- A call from outside, with the stamp that is at hand for it. -/
structure ToolCall where
  stamp : Stamp
  name : String
  arguments : Json

namespace Library

/-- A library behind its start: what a catalog declares, and what could be loaded of a database that
was migrated. -/
def Started (l : Library) : Prop :=
  ∃ (catalog : Catalog) (number : Nat) (context : Context) (db : Database) (report : LoadReport),
    catalog.context number = .ok context ∧ (∀ table, db.table? = some table → Keyed table) ∧
      load ⟨context, db.migrate⟩ = .ok (l, report)

def answer (l : Library) (call : ToolCall) : ToolAnswer :=
  (Tool.call l call.stamp call.name call.arguments).1

def after (l : Library) (call : ToolCall) : Library :=
  (Tool.call l call.stamp call.name call.arguments).2

def serve (l : Library) (calls : List ToolCall) : Library := calls.foldl after l

/-- The call defines a query of this name with success. -/
structure Defines (l : Library) (call : ToolCall) (name : String) : Prop where
  tool : call.name = Tool.defineQuery.name
  query : call.arguments.textAt "name" = name
  success : (l.answer call).isError = false

/-- No call of these defines a query of this name with success. -/
inductive Spares (name : String) : Library → List ToolCall → Prop
  | nil (l : Library) : Spares name l []
  | cons {l : Library} {call : ToolCall} {rest : List ToolCall} (h : ¬l.Defines call name)
      (tail : Spares name (l.after call) rest) : Spares name l (call :: rest)

/-- Definitions can be saved and registered. -/
structure Ready (l : Library) : Prop where
  frozen : l.context.store.frozen = false
  keyed : ∃ table, l.database.table? = some table ∧ Keyed table

theorem Started.ready {l : Library} (h : l.Started) : l.Ready := by
  obtain ⟨catalog, number, context, db, report, hcontext, hkeyed, hload⟩ := h
  have hfrozen := Catalog.frozen_of_context hcontext
  obtain ⟨rows, last, found, -, hspec, hloads⟩ := load_migrate_spec hfrozen db
  rw [hspec] at hload
  cases hload
  exact ⟨hloads.registers.frozen_eq.trans hfrozen, _, rfl, keyed_getD hkeyed⟩

variable {l : Library}

theorem Ready.define_of_compile_ok (h : l.Ready) (stamp : Stamp) {q : QuerySpec} {p : Predicate}
    (hp : l.context.compile q.text = .ok p) :
    ∃ row next, l.define stamp q = (.ok row, next) ∧ next.Ready ∧
      next.context = l.context.withStore (l.context.store.put q.name p) := by
  obtain ⟨context, version, table?⟩ := l
  obtain ⟨hfrozen, table, htable, hkeyed⟩ := h
  cases htable
  refine ⟨_, _, define_of_ok hfrozen hkeyed hp, ⟨hfrozen, _, rfl, ?_⟩, rfl⟩
  have hput := hkeyed.put (Database.savedRow table stamp q)
  rwa [hkeyed.name_savedRow] at hput

/-- What a call does to a library: nothing, or it registers the predicate of a text under a name. -/
theorem Ready.after_cases (h : l.Ready) (call : ToolCall) :
    l.after call = l ∨
      ∃ name p, l.Defines call name ∧ (l.after call).Ready ∧
        (l.after call).context = l.context.withStore (l.context.store.put name p) := by
  unfold after
  cases htool : Tool.find? call.name with
  | none =>
    left
    rw [Tool.call, htool]
  | some tool =>
    cases hissues : tool.schema.issues [] call.arguments with
    | cons issue more =>
      left
      simp only [Tool.call, htool, hissues]
    | nil =>
      have hcall : Tool.call l call.stamp call.name call.arguments =
          tool.run l call.stamp call.arguments := by
        simp only [Tool.call, htool, hissues]
      cases tool with
      | compileQuery => exact .inl (by rw [hcall]; rfl)
      | matchQuery => exact .inl (by rw [hcall]; rfl)
      | listQueries => exact .inl (by rw [hcall]; rfl)
      | defineQuery =>
        have hname : call.name = Tool.defineQuery.name := by
          have hfound := List.find?_some htool
          exact (of_decide_eq_true hfound).symm
        cases hp : l.context.compile (call.arguments.textAt "query") with
        | error e =>
          left
          have hdefine := @define_of_compile_error l call.stamp (Tool.readNamedQuery call.arguments)
            e hp
          rw [hcall, Tool.run, Tool.defineAnswer, hdefine]
        | ok p =>
          right
          obtain ⟨row, next, hdefine, hready, hnext⟩ := h.define_of_compile_ok call.stamp
            (q := Tool.readNamedQuery call.arguments) hp
          have hresult : Tool.call l call.stamp call.name call.arguments =
              (Tool.success (Tool.savedJson row).pretty, next) := by
            rw [hcall, Tool.run, Tool.defineAnswer, hdefine]
          rw [hresult]
          exact ⟨_, p, ⟨hname, rfl, by rw [answer, hresult]; rfl⟩, hready, hnext⟩

theorem Ready.after (h : l.Ready) (call : ToolCall) : (l.after call).Ready := by
  rcases h.after_cases call with heq | ⟨name, p, -, hready, -⟩
  · rw [heq]
    exact h
  · exact hready

theorem Ready.serve (h : l.Ready) (calls : List ToolCall) : (l.serve calls).Ready := by
  induction calls generalizing l with
  | nil => exact h
  | cons call rest ih => exact ih (h.after call)

theorem Ready.context_after (h : l.Ready) (call : ToolCall) :
    (l.after call).context = l.context.withStore (l.after call).context.store := by
  rcases h.after_cases call with heq | ⟨name, p, -, -, hcontext⟩
  · rw [heq]
    rfl
  · rw [hcontext]
    rfl

/-- Calls change nothing of the context but its store. -/
theorem Ready.context_serve (h : l.Ready) (calls : List ToolCall) :
    (l.serve calls).context = l.context.withStore (l.serve calls).context.store := by
  induction calls generalizing l with
  | nil => rfl
  | cons call rest ih =>
    have hrest := ih (h.after call)
    rw [h.context_after call] at hrest
    exact hrest

/-- What stays as it was as long as one name is spared. -/
structure Keeps (l : Library) (name : String) (next : Library) : Prop where
  registry : next.context.registry = l.context.registry
  fillBlock : next.context.fillBlock = l.context.fillBlock
  query : next.context.store.lookup? name = l.context.store.lookup? name

theorem Keeps.refl (l : Library) (name : String) : l.Keeps name l := ⟨rfl, rfl, rfl⟩

theorem Keeps.trans {next last : Library} {name : String} (h : l.Keeps name next)
    (h' : next.Keeps name last) : l.Keeps name last where
  registry := h'.registry.trans h.registry
  fillBlock := h'.fillBlock.trans h.fillBlock
  query := h'.query.trans h.query

theorem Ready.keeps_after (h : l.Ready) {call : ToolCall} {name : String}
    (hcall : ¬l.Defines call name) : l.Keeps name (l.after call) := by
  rcases h.after_cases call with heq | ⟨other, p, hdefines, -, hcontext⟩
  · rw [heq]
    exact .refl l name
  · have hne : other ≠ name := by
      rintro rfl
      exact hcall hdefines
    refine ⟨by rw [hcontext]; rfl, by rw [hcontext]; rfl, ?_⟩
    rw [hcontext]
    exact (QueryStore.lookup?_put _ _ _ _).trans (if_neg hne)

theorem Ready.keeps_serve (h : l.Ready) {calls : List ToolCall} {name : String}
    (hcalls : Spares name l calls) : l.Keeps name (l.serve calls) := by
  induction hcalls with
  | nil l => exact .refl l name
  | cons hcall tail ih => exact (h.keeps_after hcall).trans (ih (h.after _))

end Library

end VoxelQuery
