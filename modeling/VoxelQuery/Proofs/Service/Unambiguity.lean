import VoxelQuery.Proofs.Catalog.Addressing
import VoxelQuery.Proofs.Query.Wording
import VoxelQuery.Proofs.Service.Transparency

/-! Texts of predicates are unambiguous. The schema of catalogs keeps brackets out of the names of
blocks and materials, and properties are words, so only names of tags could close a bracket. If none
does, then the text that a client is shown for a query tells the predicate. -/
namespace VoxelQuery

/-- No name of an entry closes a bracket. -/
structure Registry.Unbracketed (r : Registry) : Prop where
  block : ∀ identifier, r.HasBlock identifier → ')' ∉ identifier.toList
  typeTag : ∀ tag, r.HasTypeTag tag → ')' ∉ tag.name.toList
  material : ∀ m, r.HasMaterial m → ')' ∉ m.name.toList

/-- Of the predicates that texts compile to in the two libraries, those with one text are one
predicate, and so are those that the tool answers with one answer. -/
structure Library.Unambiguous (l last : Library) : Prop where
  text : ∀ {a b : String} {p q : Predicate}, l.context.compile a = .ok p →
    last.context.compile b = .ok q → p.text = q.text → p = q
  answer : ∀ (moment moment' : Stamp) {a b : String} {p : Predicate},
    l.context.compile a = .ok p →
      l.answer (Tool.compileCall moment a) = last.answer (Tool.compileCall moment' b) →
        last.context.compile b = .ok p

namespace Context

variable {r : Registry}

theorem stable_legible (r : Registry) : Stable fun c => c.environment.Legible r where
  register {c next name text p} h hnext := by
    obtain ⟨hp, -, rfl⟩ := register_eq_ok_iff.1 hnext
    refine ⟨h.identifier, h.typeTag, h.material, fun other q hq => ?_, h.defaultName⟩
    rcases Table.get?_put_cases hq with ⟨rfl, rfl⟩ | hold
    · exact h.compile hp
    · exact h.query other q hold
  declared h _ := h

theorem legible_of_predicate? (hr : r.Sound) (hnames : r.Unbracketed) {preset : Preset}
    {p : Predicate} (hp : preset.predicate? r = some p) : p.Legible r := by
  cases preset with
  | anything =>
    cases hp
    exact .always
  | nothing =>
    cases hp
    exact .never
  | airAbove =>
    cases hp
    exact .emptyAbove
  | hasWater =>
    obtain ⟨m, hm, rfl⟩ := Option.map_eq_some_iff.1 hp
    have hhas := hr.hasMaterial_of_material? hm
    exact .adjacent (hnames.material m hhas) hhas

theorem legible_create (hr : r.Sound) (hnames : r.Unbracketed) {defaultProperty : String}
    (hword : Text.isWord defaultProperty.toList = true) (fillBlock : String) :
    (create r defaultProperty fillBlock).environment.Legible r where
  identifier _ identifier hid := hnames.block identifier (hr.hasBlock_of_identifier? hid)
  typeTag _ tag htag :=
    have hhas := hr.hasTypeTag_of_typeTag? htag
    ⟨hnames.typeTag tag hhas, hhas⟩
  material _ m hm :=
    have hhas := hr.hasMaterial_of_material? hm
    ⟨hnames.material m hhas, hhas⟩
  query name p hp := by
    obtain ⟨preset, -, hpreset⟩ := List.mem_filterMap.1 (Table.mem_of_get?_ofPairs hp)
    obtain ⟨q, hq, heq⟩ := Option.map_eq_some_iff.1 hpreset
    cases heq
    exact legible_of_predicate? hr hnames hq
  defaultName := hword

end Context

namespace Catalog.Builds

variable {catalog : Catalog} {number : Nat} {context : Context}
  (h : catalog.Builds number context)

include h

theorem unbracketed (hc : catalog.Conforms)
    (htags : ∀ entry ∈ catalog.typeTags, ')' ∉ entry.name.toList) :
    context.registry.Unbracketed where
  block identifier hblock := by
    obtain ⟨b, hb, rfl⟩ := hblock
    have haccepts := h.accepts_block hc (Table.mem_values_iff.2 ⟨_, hb⟩)
    intro hclose
    exact absurd (((Text.isIdentifier_iff _).1 haccepts).2 _ hclose) (by decide)
  typeTag tag htag := by
    have hget := htag tag tag.self_mem_lineage
    obtain ⟨entry, hentry, hname⟩ := h.exists_typeTag ((Table.mem_keys_iff _ _).2 ⟨tag, hget⟩)
    rw [← hname]
    exact htags entry hentry
  material m hm :=
    Text.notMem_of_isWord (by decide) (h.accepts_material hc (Table.mem_values_iff.2 ⟨_, hm⟩))

theorem legible (hc : catalog.Conforms)
    (htags : ∀ entry ∈ catalog.typeTags, ')' ∉ entry.name.toList) :
    context.environment.Legible context.registry :=
  stable_declareAll (Context.stable_legible _)
    (Context.legible_create h.closed.toSound (h.unbracketed hc htags) hc.defaultProperty _)
    h.declare

end Catalog.Builds

namespace Library

variable {l last : Library} {r : Registry}

theorem unambiguous_of_legible (h : l.context.environment.Legible r)
    (h' : last.context.environment.Legible r) : l.Unambiguous last := by
  have htext : ∀ {a b : String} {p q : Predicate}, l.context.compile a = .ok p →
      last.context.compile b = .ok q → p.text = q.text → p = q :=
    fun hp hq htext => (h.compile hp).eq_of_text (h'.compile hq) htext
  refine ⟨htext, fun moment moment' a b p hp hanswer => ?_⟩
  rw [Tool.answer_compileCall, Tool.answer_compileCall, Tool.compileAnswer, Tool.compileAnswer,
    hp] at hanswer
  cases hq : last.context.compile b with
  | error e =>
    rw [hq] at hanswer
    cases hanswer
  | ok q =>
    rw [hq] at hanswer
    rw [htext hp hq (congrArg ToolAnswer.text hanswer)]

/-- A context of a catalog in which no name of a tag closes a bracket is used in two ways, be they
the same or not. However the two stores were filled, a text tells the predicate, and so does the
answer of the tool that compiles. -/
theorem unambiguous_run {value : Json} {catalog : Catalog}
    (hparse : Catalog.parse value = .ok catalog)
    (htags : ∀ entry ∈ catalog.typeTags, ')' ∉ entry.name.toList) {number : Nat} {context : Context}
    (hcontext : catalog.context number = .ok context) (db db' : Database) {steps steps' : List Step}
    (hsteps : ∀ change, .registry change ∉ steps) (hsteps' : ∀ change, .registry change ∉ steps') :
    (run ⟨context, db⟩ steps).Unambiguous (run ⟨context, db'⟩ steps') := by
  have hlegible := (Catalog.context_eq_ok_iff.1 hcontext).legible
    (Catalog.conforms_of_parse hparse) htags
  have hstable := Context.stable_legible context.registry
  exact unambiguous_of_legible (@stable_run ⟨context, db⟩ _ hstable hlegible steps hsteps)
    (@stable_run ⟨context, db'⟩ _ hstable hlegible steps' hsteps')

/-- Properties with and without a name, a name that is defined twice, and a restart. -/
def wording : List Step :=
  [.database Database.blank.migrate, .declare ⟨"lit", none, "[on=TRUE|false, Red] !a"⟩,
    .define ⟨"1", "2026"⟩ ⟨"dim", none, "!@lit, %Ore $Stone ~rock"⟩,
    .define ⟨"2", "2027"⟩ ⟨"dim", some "again", "@dim, @nothing"⟩, .load]

theorem texts_wording :
    ∃ context p q, Catalog.colons.context 3 = .ok context ∧
      (run ⟨context, .blank⟩ wording).context.compile "@lit" = .ok p ∧
      (run ⟨context, .blank⟩ []).context.compile "[ON = true|FALSE|True, red]!core:a" = .ok q ∧
      p.text = q.text := ⟨_, _, _, by cbv, by cbv, by cbv, by cbv⟩

/-- A query that was declared, and one that was never stored. -/
theorem unambiguous_run_colons :
    ∃ context p q, Catalog.parse Catalog.colons.toJson = .ok Catalog.colons ∧
      (∀ entry ∈ Catalog.colons.typeTags, ')' ∉ entry.name.toList) ∧
      Catalog.colons.context 3 = .ok context ∧ (∀ change, .registry change ∉ wording) ∧
      (∀ change, Step.registry change ∉ []) ∧
      (run ⟨context, .blank⟩ wording).Unambiguous (run ⟨context, .blank⟩ []) ∧
      (run ⟨context, .blank⟩ wording).context.compile "@lit" = .ok p ∧
      (run ⟨context, .blank⟩ []).context.compile "[ON = true|FALSE|True, red]!core:a" = .ok q ∧
      p = q := by
  obtain ⟨context, p, q, hcontext, hp, hq, htext⟩ := texts_wording
  have hparse : Catalog.parse Catalog.colons.toJson = .ok Catalog.colons := by cbv
  have htags : ∀ entry ∈ Catalog.colons.typeTags, ')' ∉ entry.name.toList := by decide
  have hsteps : ∀ change, .registry change ∉ wording := by simp [wording]
  have hunambiguous := unambiguous_run hparse htags hcontext .blank .blank hsteps
    (fun _ => List.not_mem_nil)
  exact ⟨context, p, q, hparse, htags, hcontext, hsteps, fun _ => List.not_mem_nil, hunambiguous,
    hp, hq, hunambiguous.text hp hq htext⟩

end Library

end VoxelQuery
