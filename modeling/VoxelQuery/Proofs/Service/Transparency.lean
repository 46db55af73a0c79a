import VoxelQuery.Proofs.Service.Serving

/-! Named queries are transparent. A text can be defined under a name if and only if it compiles,
and from then on the name answers as the text did, whatever becomes of the queries that the text
refers to. -/
namespace VoxelQuery

namespace Tool

def compileCall (stamp : Stamp) (text : String) : ToolCall :=
  ⟨stamp, compileQuery.name, .object [("query", .text text)]⟩

/-- Blocks and positions are whatever a client sends for them. -/
def matchCall (stamp : Stamp) (text : String) (blocks positions : Json) : ToolCall :=
  ⟨stamp, matchQuery.name,
    .object [("query", .text text), ("blocks", blocks), ("positions", positions)]⟩

def defineCall (stamp : Stamp) (q : QuerySpec) : ToolCall :=
  ⟨stamp, defineQuery.name,
    .object ([("name", .text q.name), ("query", .text q.text)] ++
      Json.fieldOf "description" (q.description.map .text))⟩

variable {l next : Library}

theorem answer_compileCall (l : Library) (stamp : Stamp) (text : String) :
    l.answer (compileCall stamp text) = compileAnswer l.context text := by
  have htool : find? compileQuery.name = some compileQuery := by decide
  have hissues : compileQuery.schema.issues [] (compileCall stamp text).arguments = [] := by
    simp [schema, compileCall, Schema.issues, Schema.fieldIssues, Json.field?, TextRule.accepts]
  have hname : (compileCall stamp text).name = compileQuery.name := rfl
  simp only [Library.answer, call, hname, htool, hissues]
  rfl

/-- The arguments fit the schema if the name is a word, and they are read as they were written. -/
theorem call_defineCall (l : Library) (stamp : Stamp) {q : QuerySpec}
    (hname : Text.isWord q.name.toList = true) :
    call l stamp defineQuery.name (defineCall stamp q).arguments = defineAnswer l stamp q := by
  have htool : find? defineQuery.name = some defineQuery := by decide
  obtain ⟨name, description, text⟩ := q
  have hissues :
      defineQuery.schema.issues [] (defineCall stamp ⟨name, description, text⟩).arguments = [] := by
    cases description <;>
      simp_all [schema, defineCall, Schema.issues, Schema.fieldIssues, Json.field?, Json.fieldOf,
        TextRule.accepts]
  have hread : readNamedQuery (defineCall stamp ⟨name, description, text⟩).arguments =
      ⟨name, description, text⟩ := by
    cases description <;> rfl
  simp only [call, htool, hissues, run, hread]

theorem matchAnswer_congr {c c' : Context} {text text' : String}
    (hcompile : c'.compile text' = c.compile text) (hregistry : c'.registry = c.registry)
    (hfill : c'.fillBlock = c.fillBlock) (placements : List Placement) (positions : List Position) :
    matchAnswer c' text' placements positions = matchAnswer c text placements positions := by
  have hworld : c'.world placements = c.world placements := by
    rw [Context.world, Context.world, hregistry, hfill]
  rw [matchAnswer, matchAnswer, hcompile, hworld]

/-- Two texts that compile alike are matched alike, if the worlds are made alike. -/
theorem answer_matchCall_congr {text text' : String}
    (hcompile : next.context.compile text' = l.context.compile text)
    (hregistry : next.context.registry = l.context.registry)
    (hfill : next.context.fillBlock = l.context.fillBlock) (stamp' stamp : Stamp)
    (blocks positions : Json) :
    next.answer (matchCall stamp' text' blocks positions) =
      l.answer (matchCall stamp text blocks positions) := by
  have htool : find? matchQuery.name = some matchQuery := by decide
  -- The schema asks nothing of the text of a query, so the issues are the same.
  have hissues : matchQuery.schema.issues [] (matchCall stamp' text' blocks positions).arguments =
      matchQuery.schema.issues [] (matchCall stamp text blocks positions).arguments := by
    simp [schema, matchCall, Schema.issues, Schema.fieldIssues, Json.field?, TextRule.accepts]
  have hname : (matchCall stamp text blocks positions).name = matchQuery.name := rfl
  have hname' : (matchCall stamp' text' blocks positions).name = matchQuery.name := rfl
  simp only [Library.answer, call, hname, hname', htool, hissues]
  cases matchQuery.schema.issues [] (matchCall stamp text blocks positions).arguments with
  | nil => exact matchAnswer_congr hcompile hregistry hfill _ _
  | cons issue more => rfl

end Tool

namespace Library

open Tool (compileCall matchCall defineCall)

/-- A name that stands for the predicate of a text answers as the text does, in a library with the
same entries. -/
theorem answer_reference {l last : Library} {name text : String} {p : Predicate}
    (hname : Text.isWord name.toList = true) (hp : l.context.compile text = .ok p)
    (hquery : last.context.store.lookup? name = some p)
    (hregistry : last.context.registry = l.context.registry)
    (hfill : last.context.fillBlock = l.context.fillBlock) (moment' moment : Stamp) :
    last.answer (compileCall moment' ("@" ++ name)) = l.answer (compileCall moment text) ∧
      ∀ blocks positions,
        last.answer (matchCall moment' ("@" ++ name) blocks positions) =
          l.answer (matchCall moment text blocks positions) := by
  have hreference : last.context.compile ("@" ++ name) = .ok p :=
    Environment.compile_reference hname hquery
  refine ⟨?_, fun blocks positions => ?_⟩
  · rw [Tool.answer_compileCall, Tool.answer_compileCall, Tool.compileAnswer, Tool.compileAnswer,
      hreference, hp]
  · exact Tool.answer_matchCall_congr (hreference.trans hp.symm) hregistry hfill _ _ blocks positions

/-- In a library that was started and has answered any calls, a definition succeeds if and only if
its text compiles, and fails with the same answer. After a success, and as long as the name is not
defined again, the name answers every request as its text answered it before the definition. -/
theorem define_transparent {l : Library} (hl : l.Started) (calls : List ToolCall) {q : QuerySpec}
    (hname : Text.isWord q.name.toList = true) (moment stamp : Stamp) :
    let now := l.serve calls
    let compiled := now.answer (compileCall moment q.text)
    let defined := now.answer (defineCall stamp q)
    let next := now.after (defineCall stamp q)
    defined.isError = compiled.isError ∧ (compiled.isError = true → defined = compiled) ∧
      (compiled.isError = false → ∀ later, Spares q.name next later → ∀ moment',
        (next.serve later).answer (compileCall moment' ("@" ++ q.name)) = compiled ∧
          ∀ blocks positions,
            (next.serve later).answer (matchCall moment' ("@" ++ q.name) blocks positions) =
              now.answer (matchCall moment q.text blocks positions)) := by
  intro now compiled defined next
  have hready : now.Ready := hl.ready.serve calls
  have hcompiled : compiled = Tool.compileAnswer now.context q.text :=
    Tool.answer_compileCall now moment q.text
  have hcall : Tool.call now stamp Tool.defineQuery.name (defineCall stamp q).arguments =
      Tool.defineAnswer now stamp q := Tool.call_defineCall now stamp hname
  have hdefined : defined = (Tool.defineAnswer now stamp q).1 := congrArg Prod.fst hcall
  have hnext : next = (Tool.defineAnswer now stamp q).2 := congrArg Prod.snd hcall
  cases hp : now.context.compile q.text with
  | error e =>
    have hsame : defined = compiled := by
      rw [hdefined, hcompiled, Tool.defineAnswer, define_of_compile_error hp, Tool.compileAnswer, hp]
      rfl
    have hfailed : compiled.isError = true := by
      rw [hcompiled, Tool.compileAnswer, hp]
      rfl
    refine ⟨congrArg ToolAnswer.isError hsame, fun _ => hsame, fun hsuccess => ?_⟩
    exact absurd (hsuccess.symm.trans hfailed) Bool.false_ne_true
  | ok p =>
    obtain ⟨row, saved, hok, hsaved, hcontext⟩ := hready.define_of_compile_ok stamp hp
    have hsuccess : defined.isError = false ∧ compiled.isError = false := by
      rw [hdefined, hcompiled, Tool.defineAnswer, hok, Tool.compileAnswer, hp]
      exact ⟨rfl, rfl⟩
    have hlibrary : next = saved := by rw [hnext, Tool.defineAnswer, hok]
    refine ⟨hsuccess.1.trans hsuccess.2.symm, fun hfailed => ?_, fun _ later hlater moment' => ?_⟩
    · exact absurd (hsuccess.2.symm.trans hfailed) Bool.false_ne_true
    · rw [hlibrary] at hlater ⊢
      have hkeeps := hsaved.keeps_serve hlater
      refine answer_reference hname hp ?_ ?_ ?_ moment' moment
      · rw [hkeeps.query, hcontext]
        exact (QueryStore.lookup?_put _ _ _ _).trans (if_pos rfl)
      · rw [hkeeps.registry, hcontext]
        rfl
      · rw [hkeeps.fillBlock, hcontext]
        rfl

theorem started_quarry :
    ∃ (l : Library) (context : Context) (report : LoadReport),
      Catalog.quarry.context 0 = .ok context ∧
        load ⟨context, Database.blank.migrate⟩ = .ok (l, report) ∧
        ((l.serve [defineCall ⟨"1", "2026"⟩ ⟨"rough", none, "stone, @soil"⟩]).answer
          (compileCall ⟨"1", "2026"⟩ "!@rough")).isError = false := by
  exact ⟨_, _, _, by cbv, by cbv, by cbv⟩

/-- What the text refers to is defined again behind its own definition. -/
theorem define_transparent_steep :
    ∃ l : Library, l.Started ∧
      let now := l.serve [defineCall ⟨"1", "2026"⟩ ⟨"rough", none, "stone, @soil"⟩]
      let next := now.after (defineCall ⟨"2", "2027"⟩ ⟨"steep", some "not rough", "!@rough"⟩)
      let last := next.serve [defineCall ⟨"3", "2028"⟩ ⟨"rough", none, "dirt"⟩]
      last.answer (compileCall ⟨"1", "2026"⟩ "@steep") =
          now.answer (compileCall ⟨"1", "2026"⟩ "!@rough") ∧
        ∀ blocks positions,
          last.answer (matchCall ⟨"1", "2026"⟩ "@steep" blocks positions) =
            now.answer (matchCall ⟨"1", "2026"⟩ "!@rough" blocks positions) := by
  obtain ⟨l, context, report, hcontext, hload, hsuccess⟩ := started_quarry
  have hl : l.Started :=
    ⟨Catalog.quarry, 0, context, Database.blank, report, hcontext, nofun, hload⟩
  refine ⟨l, hl, ?_⟩
  have htransparent := define_transparent hl
    [defineCall ⟨"1", "2026"⟩ ⟨"rough", none, "stone, @soil"⟩]
    (q := ⟨"steep", some "not rough", "!@rough"⟩) (by decide) ⟨"1", "2026"⟩ ⟨"2", "2027"⟩
  refine htransparent.2.2 hsuccess _ (.cons ?_ (.nil _)) ⟨"1", "2026"⟩
  intro hdefines
  exact absurd hdefines.query (by decide)

end Library

end VoxelQuery
