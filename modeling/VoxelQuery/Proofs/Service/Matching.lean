import VoxelQuery.Proofs.Library.Requests
import VoxelQuery.Proofs.Query.Meaning
import VoxelQuery.Proofs.Service.Transparency
import VoxelQuery.Proofs.World.Placement

/-! Matching from end to end. Behind any calls, a query is matched at positions by what it means in
the world of the placements, and it can fail in two ways only: the text does not compile, or a
placement has an unknown block. -/
namespace VoxelQuery

/-- All coordinates are integers. -/
def Position.IsInteger (p : Position) : Prop :=
  p.x.isInteger = true ∧ p.y.isInteger = true ∧ p.z.isInteger = true

/-- The fill block of a catalog is known to the registry of its context. -/
theorem Catalog.fillBlock_of_context {catalog : Catalog} {number : Nat} {c : Context}
    (h : catalog.context number = .ok c) :
    c.fillBlock = catalog.fillBlock ∧ (c.registry.block? catalog.fillBlock).isSome = true := by
  obtain ⟨r, hr, hdeclare⟩ := bind_eq_ok_iff.1 h
  obtain ⟨history, -, -, hhistory⟩ := exists_history .blank hdeclare
  obtain ⟨store, declared, hcontext⟩ := Library.context_foldl_record
    ⟨.create r catalog.defaultProperty catalog.fillBlock, .blank⟩ history
  rw [hhistory] at hcontext
  obtain rfl : c = _ := hcontext
  refine ⟨rfl, ?_⟩
  unfold registry at hr
  split at hr
  · cases hr
  · split at hr
    · next hfill =>
      cases hr
      exact hfill
    · cases hr

namespace Tool

def positionFields (p : Position) : List (String × Json) :=
  [("x", .number p.x), ("y", .number p.y), ("z", .number p.z)]

def positionJson (p : Position) : Json := .object (positionFields p)

def placementJson (p : Placement) : Json :=
  .object (positionFields p.position ++ [("block", .text p.block),
    ("properties", .object (p.properties.map fun e => (e.1, .text e.2)))])

/-- One entry of a result. -/
def entryJson (here : Position) (matched : Bool) : Json :=
  .object (positionFields here ++ [("matched", .boolean matched)])

/-- What a match of a text at some positions answers, among some placements: an error of the text, else
one of the first unknown block, else one entry for each position, in their order. -/
structure AnswersMatch (env : Environment) (r : Registry) (fillBlock text : String)
    (placements : List Placement) (positions : List Position) (answer : ToolAnswer) : Prop where
  isError_iff : answer.isError = true ↔
    (∃ e, env.compile text = .error e) ∨ ∃ p ∈ placements, r.block? p.block = none
  compileError : ∀ e, env.compile text = .error e → answer = queryError e.message
  unknownBlock : ∀ q, env.compile text = .ok q → ∀ p, World.unknown? r placements = some p →
    answer = queryError (QueryError.message ⟨p.block, .unknownBlock p.block⟩)
  entries : answer.isError = false → ∃ (scene : Scene) (matched : Position → Bool),
    scene.Shows r fillBlock placements ∧
      (∀ here, matched here = true ↔ env.QueryHolds scene here text) ∧
      answer = success (Json.list (positions.map fun here => entryJson here (matched here))).pretty

section Answer

variable {c : Context} {text : String} {placements : List Placement} {positions : List Position}

theorem matchAnswer_of_compile_error {e : QueryError} (he : c.compile text = .error e) :
    matchAnswer c text placements positions = queryError e.message := by
  rw [matchAnswer, he]
  rfl

theorem matchAnswer_of_world_error {p : Predicate} {e : QueryError} (hp : c.compile text = .ok p)
    (he : c.world placements = .error e) :
    matchAnswer c text placements positions = queryError e.message := by
  rw [matchAnswer, hp, he]
  rfl

theorem matchAnswer_of_world {p : Predicate} {w : World} (hp : c.compile text = .ok p)
    (hw : c.world placements = .ok w) :
    matchAnswer c text placements positions =
      success (Json.list (positions.map fun here => entryJson here (p.holds w.scene here))).pretty := by
  have hresults : (p.evaluateAll w.scene positions).map matchJson =
      positions.map fun here => entryJson here (p.holds w.scene here) := by
    rw [Predicate.evaluateAll, List.map_map]
    rfl
  rw [matchAnswer, hp, hw, ← hresults]
  rfl

theorem answersMatch_matchAnswer (hfill : (c.registry.block? c.fillBlock).isSome = true) :
    AnswersMatch c.environment c.registry c.fillBlock text placements positions
      (matchAnswer c text placements positions) := by
  obtain ⟨hunknown, hknown⟩ := World.ofPlacements_of_known hfill
  cases hp : c.compile text with
  | error e =>
    rw [matchAnswer_of_compile_error hp]
    refine ⟨iff_of_true rfl (.inl ⟨e, hp⟩), fun e' he' => ?_, fun q hq => ?_, nofun⟩
    · rw [Except.error.inj (hp.symm.trans he')]
    · cases hp.symm.trans hq
  | ok p =>
    -- Only now do the placements count: an error of the text would have come first.
    have hcompiles : ∀ e, c.compile text ≠ .error e := fun e he => by cases hp.symm.trans he
    cases hbad : World.unknown? c.registry placements with
    | some bad =>
      rw [matchAnswer_of_world_error hp (hunknown bad hbad)]
      have hexists : ∃ q ∈ placements, c.registry.block? q.block = none := by
        rw [← World.isSome_unknown?_iff, hbad]
        rfl
      refine ⟨iff_of_true rfl (.inr hexists), fun e he => absurd he (hcompiles e), ?_, nofun⟩
      intro q _ bad' hbad'
      rw [Option.some.inj (hbad.symm.trans hbad')]
    | none =>
      obtain ⟨w, hw⟩ := hknown hbad
      rw [matchAnswer_of_world hp hw]
      have hnone : ¬∃ q ∈ placements, c.registry.block? q.block = none := by
        rw [← World.isSome_unknown?_iff, hbad]
        simp
      refine ⟨iff_of_false Bool.false_ne_true ?_, fun e he => absurd he (hcompiles e), ?_, ?_⟩
      · rintro (⟨e, he⟩ | hbad)
        · exact hcompiles e he
        · exact hnone hbad
      · intro q _ bad hbad'
        cases hbad.symm.trans hbad'
      · intro _
        exact ⟨w.scene, p.holds w.scene, World.shows_of_ofPlacements hw,
          fun here => Environment.holds_iff_queryHolds hp, rfl⟩

end Answer

/-- The call asks for a match of a text at some positions, among some placements. -/
structure Asks (call : ToolCall) (text : String) (placements : List Placement)
    (positions : List Position) : Prop where
  tool : call.name = matchQuery.name
  accepted : matchQuery.schema.accepts call.arguments = true
  text : call.arguments.textAt "query" = text
  placements : (call.arguments.itemsAt "blocks").map readPlacement = placements
  positions : (call.arguments.itemsAt "positions").map readPosition = positions

theorem Asks.answer_eq {call : ToolCall} {text : String} {placements : List Placement}
    {positions : List Position} (h : Asks call text placements positions) (l : Library) :
    l.answer call = matchAnswer l.context text placements positions := by
  have htool : find? matchQuery.name = some matchQuery := by decide
  have hissues : matchQuery.schema.issues [] call.arguments = [] :=
    List.isEmpty_iff.1 h.accepted
  simp only [Library.answer, Tool.call, h.tool, htool, hissues, run, h.text, h.placements,
    h.positions]

section Encoding

theorem issues_list {item : Schema} {items : List Json} (path : List PathStep)
    (h : ∀ value ∈ items, ∀ path, item.issues path value = []) :
    (Schema.list item).issues path (.list items) = [] := by
  rw [Schema.issues, List.flatMap_eq_nil_iff]
  intro e he
  exact h e.1 (List.fst_mem_of_mem_zipIdx he) _

theorem issues_positionJson {p : Position} (h : p.IsInteger) (path : List PathStep) :
    (Schema.object coordinates).issues path (positionJson p) = [] := by
  obtain ⟨hx, hy, hz⟩ := h
  simp [positionJson, positionFields, coordinates, Schema.issues, Schema.fieldIssues, Json.field?,
    hx, hy, hz]

theorem issues_texts (path : List PathStep) (pairs : List (String × String)) :
    (Schema.record (.text .any)).issues path (.object (pairs.map fun e => (e.1, .text e.2))) = [] := by
  rw [Schema.issues, List.flatMap_eq_nil_iff]
  refine List.forall_mem_map.2 fun e _ => ?_
  rw [Schema.issues]
  rfl

theorem issues_placementJson {p : Placement} (h : p.position.IsInteger) (path : List PathStep) :
    (Schema.object (coordinates ++ [("block", true, .text .any),
      ("properties", false, .record (.text .any))])).issues path (placementJson p) = [] := by
  obtain ⟨hx, hy, hz⟩ := h
  have hproperties := issues_texts (path ++ [.field "properties"]) p.properties
  simpa [placementJson, positionFields, coordinates, Schema.issues, Schema.fieldIssues, Json.field?,
    hx, hy, hz, TextRule.accepts] using hproperties

theorem readProperties_texts {pairs : List (String × String)}
    (h : ∀ e ∈ pairs, e.1 ≠ reservedName) :
    readProperties (.object (pairs.map fun e => (e.1, .text e.2))) = pairs := by
  rw [readProperties, Json.fields, List.filterMap_map]
  conv_rhs => rw [← List.filterMap_some (l := pairs)]
  refine List.filterMap_congr fun e he => ?_
  exact if_neg (h e he)

theorem readPlacement_placementJson {p : Placement}
    (h : ∀ e ∈ p.properties, e.1 ≠ reservedName) : readPlacement (placementJson p) = p := by
  have hread : readPlacement (placementJson p) =
      ⟨p.position, p.block, readProperties (.object (p.properties.map fun e => (e.1, .text e.2)))⟩ :=
    rfl
  rw [hread, readProperties_texts h]

/-- Whatever is placed and looked at, at coordinates that are integers, can be asked for. -/
theorem asks_matchCall (stamp : Stamp) (text : String) {placements : List Placement}
    {positions : List Position} (hplacements : ∀ p ∈ placements, p.position.IsInteger)
    (hproperties : ∀ p ∈ placements, ∀ e ∈ p.properties, e.1 ≠ reservedName)
    (hpositions : ∀ p ∈ positions, p.IsInteger) :
    Asks (matchCall stamp text (.list (placements.map placementJson))
      (.list (positions.map positionJson))) text placements positions where
  tool := rfl
  accepted := by
    have hblocks := fun path => issues_list path
      (List.forall_mem_map.2 fun p hp => issues_placementJson (hplacements p hp))
    have hplaces := fun path => issues_list path
      (List.forall_mem_map.2 fun p hp => issues_positionJson (hpositions p hp))
    have htext : ∀ path, (Schema.text .any).issues path (.text text) = [] := by
      intro path
      rw [Schema.issues]
      rfl
    rw [Schema.accepts, schema, matchCall, Schema.issues]
    simp [Schema.fieldIssues, Json.field?, hblocks, hplaces, htext]
  text := rfl
  placements := by
    have hitems : (matchCall stamp text (.list (placements.map placementJson))
        (.list (positions.map positionJson))).arguments.itemsAt "blocks" =
          placements.map placementJson := rfl
    rw [hitems, List.map_map]
    exact (List.map_congr_left fun p hp => readPlacement_placementJson (hproperties p hp)).trans
      (List.map_id _)
  positions := by
    have hitems : (matchCall stamp text (.list (placements.map placementJson))
        (.list (positions.map positionJson))).arguments.itemsAt "positions" =
          positions.map positionJson := rfl
    rw [hitems, List.map_map]
    exact List.map_id _

end Encoding

end Tool

namespace Library

open Tool (Asks AnswersMatch matchCall placementJson positionJson)

/-- Behind the start from a catalog and a migrated table, and behind any calls, a match answers what
the text means among the placements, and it fails only for the text or for an unknown block. -/
theorem answersMatch_serve {catalog : Catalog} {number : Nat} {context : Context} {db : Database}
    (hcontext : catalog.context number = .ok context)
    (hkeyed : ∀ table, db.table? = some table → Keyed table) :
    ∃ l report, load ⟨context, db.migrate⟩ = .ok (l, report) ∧
      ∀ (calls : List ToolCall) (call : ToolCall) (text : String) (placements : List Placement)
        (positions : List Position), Asks call text placements positions →
          AnswersMatch (l.serve calls).context.environment context.registry catalog.fillBlock text
            placements positions ((l.serve calls).answer call) := by
  obtain ⟨hfillBlock, hfill⟩ := Catalog.fillBlock_of_context hcontext
  obtain ⟨rows, last, report, -, hload, -⟩ :=
    load_migrate_spec (Catalog.frozen_of_context hcontext) db
  refine ⟨_, report, hload, fun calls call text placements positions hasks => ?_⟩
  have hstarted : Started ⟨context.withStore last, db.migrate⟩ :=
    ⟨catalog, number, context, db, report, hcontext, hkeyed, hload⟩
  have hserve := hstarted.ready.context_serve calls
  rw [hasks.answer_eq, hserve]
  rw [← hfillBlock] at hfill ⊢
  exact Tool.answersMatch_matchAnswer hfill

/-- A position is written twice, and looked at twice. -/
def crowded : List Placement :=
  [⟨.ofInts 0 0 0, "dirt", []⟩, ⟨.ofInts 0 0 0, "stone", [("axis", "y")]⟩]

def watched : List Position := [.ofInts 0 0 0, .ofInts 1 0 0, .ofInts 0 0 0]

theorem answersMatch_serve_crowded :
    ∃ context, Catalog.quarry.context 0 = .ok context ∧
      (∀ table, Database.blank.table? = some table → Keyed table) ∧
      ∃ l report, load ⟨context, Database.blank.migrate⟩ = .ok (l, report) ∧
        AnswersMatch
          (l.serve [Tool.defineCall ⟨"1", "2026"⟩ ⟨"rough", none, "stone, @soil"⟩]).context.environment
          context.registry Catalog.quarry.fillBlock "!@rough, [axis=y]" crowded watched
          ((l.serve [Tool.defineCall ⟨"1", "2026"⟩ ⟨"rough", none, "stone, @soil"⟩]).answer
            (matchCall ⟨"2", "2027"⟩ "!@rough, [axis=y]" (.list (crowded.map placementJson))
              (.list (watched.map positionJson)))) := by
  have hcontext : ∃ context, Catalog.quarry.context 0 = .ok context := ⟨_, by cbv⟩
  obtain ⟨context, hcontext⟩ := hcontext
  have hblank : ∀ table, Database.blank.table? = some table → Keyed table := by
    intro table htable
    cases htable
  have hplacements : ∀ p ∈ crowded, p.position.IsInteger := by
    simp only [crowded, List.forall_mem_cons, Position.IsInteger]
    decide +kernel
  have hproperties : ∀ p ∈ crowded, ∀ e ∈ p.properties, e.1 ≠ Tool.reservedName := by
    decide
  have hpositions : ∀ p ∈ watched, p.IsInteger := by
    simp only [watched, List.forall_mem_cons, Position.IsInteger]
    decide +kernel
  obtain ⟨l, report, hload, hmatch⟩ := answersMatch_serve hcontext hblank
  exact ⟨context, hcontext, hblank, l, report, hload,
    hmatch _ _ _ _ _ (Tool.asks_matchCall _ _ hplacements hproperties hpositions)⟩

end Library

end VoxelQuery
