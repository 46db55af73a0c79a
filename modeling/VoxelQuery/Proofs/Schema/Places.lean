import Mathlib.Data.List.Nodup
import VoxelQuery.Schema.Basic
import VoxelQuery.Table

/-! The places of a document at which a schema is broken. A rule can be broken only where the schema
and the document both lead, so nothing is said of what stands below a value of the wrong kind.
Checking finds each such place once, in the order of the fields of the schema and of the items of a
list. -/
namespace VoxelQuery

namespace Json

def step? (value : Json) : PathStep → Option Json
  | .field name => value.field? name
  | .item index => value.items[index]?

/-- What stands at the end of a path. -/
def at? : Json → List PathStep → Option Json
  | value, [] => some value
  | value, step :: rest => (value.step? step).bind fun found => found.at? rest

end Json

/-- An issue of a part of a document, with the path of the part in front. -/
def Issue.below (path : List PathStep) (issue : Issue) : Issue :=
  ⟨path ++ issue.path, issue.problem⟩

theorem Issue.below_append (path rest : List PathStep) (issue : Issue) :
    issue.below (path ++ rest) = (issue.below rest).below path := by
  rw [below, below, below, List.append_assoc]

namespace Schema

/-- Whether a field is required, and the schema of what it holds. -/
def field? (name : String) : Schema → Option (Bool × Schema)
  | object fields => (fields.find? fun e => decide (e.1 = name)).map Prod.snd
  | record value => some (false, value)
  | _ => none

def item? : Schema → Option Schema
  | list item => some item
  | _ => none

def step? (schema : Schema) : PathStep → Option Schema
  | .field name => (schema.field? name).map Prod.snd
  | .item _ => schema.item?

/-- The schema of what stands at the end of a path. -/
def at? : Schema → List PathStep → Option Schema
  | schema, [] => some schema
  | schema, step :: rest => (schema.step? step).bind fun place => place.at? rest

/-- A value breaks a rule of its own, whatever its parts are. -/
inductive Refuses : Schema → Json → Problem → Prop
  | kind {schema : Schema} {value : Json} (h : value.kind ≠ schema.kind) :
      Refuses schema value (.wrongKind schema.kind value.kind)
  | text {rule : TextRule} {value : String} (h : rule.accepts value = false) :
      Refuses (.text rule) (.text value) (.refused rule)
  | integer {value : Number} (h : value.isInteger = false) :
      Refuses .integer (.number value) .notInteger

/-- An object without a field that is required. -/
inductive Lacks (schema : Schema) : Json → String → Problem → Prop
  | field {name : String} {entry : Schema} {values : List (String × Json)}
      (hfield : schema.field? name = some (true, entry))
      (h : (Json.object values).field? name = none) :
      schema.Lacks (.object values) name (.missing entry.kind)

/-- The path leads to a place in the document where the rule that the problem names is broken, or to
a field that an object in the document lacks. -/
inductive BreaksAt (schema : Schema) (value : Json) : List PathStep → Problem → Prop
  | value {path : List PathStep} {place : Schema} {found : Json} {problem : Problem}
      (hplace : schema.at? path = some place) (hfound : value.at? path = some found)
      (h : place.Refuses found problem) : schema.BreaksAt value path problem
  | field {path : List PathStep} {name : String} {place : Schema} {found : Json} {problem : Problem}
      (hplace : schema.at? path = some place) (hfound : value.at? path = some found)
      (h : place.Lacks found name problem) :
      schema.BreaksAt value (path ++ [.field name]) problem

/-- Items of a list come in the order of their indices, and fields as the schema lists them. -/
inductive Precedes : Schema → List PathStep → List PathStep → Prop
  | item {item : Schema} {i j : Nat} {p q : List PathStep} (h : i < j) :
      Precedes (.list item) (.item i :: p) (.item j :: q)
  | inItem {item : Schema} {i : Nat} {p q : List PathStep} (h : Precedes item p q) :
      Precedes (.list item) (.item i :: p) (.item i :: q)
  | field {fields : List (String × Bool × Schema)} {m n : String} {p q : List PathStep}
      (h : [m, n].Sublist (fields.map Prod.fst)) :
      Precedes (.object fields) (.field m :: p) (.field n :: q)
  | inField {fields : List (String × Bool × Schema)} {name : String} {required : Bool}
      {entry : Schema} {p q : List PathStep} (hfield : (name, required, entry) ∈ fields)
      (h : Precedes entry p q) : Precedes (.object fields) (.field name :: p) (.field name :: q)

/-- Schemas without records, whose objects have no name twice. -/
inductive Plain : Schema → Prop
  | text (rule : TextRule) : Plain (.text rule)
  | boolean : Plain .boolean
  | integer : Plain .integer
  | list {item : Schema} (h : Plain item) : Plain (.list item)
  | object {fields : List (String × Bool × Schema)} (distinct : (fields.map Prod.fst).Nodup)
      (h : ∀ e ∈ fields, Plain e.2.2) : Plain (.object fields)

section Places

variable {schema item : Schema} {value : Json} {step : PathStep} {rest path : List PathStep}
  {problem : Problem} {fields : List (String × Bool × Schema)}

theorem field?_eq_some_iff (distinct : (fields.map Prod.fst).Nodup) {name : String}
    {entry : Bool × Schema} :
    (object fields).field? name = some entry ↔ (name, entry) ∈ fields :=
  Table.get?_eq_some_iff ⟨fields, distinct⟩ name entry

theorem forall_field?_iff (distinct : (fields.map Prod.fst).Nodup)
    {P : String → Bool → Schema → Prop} :
    (∀ name required entry, (object fields).field? name = some (required, entry) →
      P name required entry) ↔ ∀ e ∈ fields, P e.1 e.2.1 e.2.2 := by
  simp only [field?_eq_some_iff distinct]
  exact ⟨fun h e he => h _ _ _ he, fun h _ _ _ he => h _ he⟩

theorem breaksAt_nil_iff : schema.BreaksAt value [] problem ↔ schema.Refuses value problem := by
  constructor
  · intro h
    generalize hpath : [] = path at h
    cases h with
    | value hplace hfound h =>
      subst hpath
      cases hplace
      cases hfound
      exact h
    | field => simp at hpath
  · exact fun h => .value rfl rfl h

/-- What is broken is in the part that the first step leads to, or this part is missing. -/
theorem breaksAt_cons_iff :
    schema.BreaksAt value (step :: rest) problem ↔
      (∃ place found, schema.step? step = some place ∧ value.step? step = some found ∧
        place.BreaksAt found rest problem) ∨
      ∃ name, step = .field name ∧ rest = [] ∧ schema.Lacks value name problem := by
  constructor
  · intro h
    generalize hpath : step :: rest = path at h
    cases h with
    | value hplace hfound h =>
      subst hpath
      obtain ⟨place, hstep, hplace⟩ := Option.bind_eq_some_iff.1 hplace
      obtain ⟨found, hstep', hfound⟩ := Option.bind_eq_some_iff.1 hfound
      exact .inl ⟨place, found, hstep, hstep', .value hplace hfound h⟩
    | @field path name place found problem hplace hfound h =>
      cases path with
      | nil =>
        cases hpath
        cases hplace
        cases hfound
        exact .inr ⟨name, rfl, rfl, h⟩
      | cons first path =>
        cases hpath
        obtain ⟨place, hstep, hplace⟩ := Option.bind_eq_some_iff.1 hplace
        obtain ⟨found, hstep', hfound⟩ := Option.bind_eq_some_iff.1 hfound
        exact .inl ⟨place, found, hstep, hstep', .field hplace hfound h⟩
  · rintro (⟨place, found, hstep, hstep', h⟩ | ⟨name, rfl, rfl, h⟩)
    · cases h with
      | value hplace hfound h =>
        exact .value (Option.bind_eq_some_iff.2 ⟨_, hstep, hplace⟩)
          (Option.bind_eq_some_iff.2 ⟨_, hstep', hfound⟩) h
      | @field path name _ _ _ hplace hfound h =>
        rw [← List.cons_append]
        exact .field (Option.bind_eq_some_iff.2 ⟨_, hstep, hplace⟩)
          (Option.bind_eq_some_iff.2 ⟨_, hstep', hfound⟩) h
    · rw [← List.nil_append [PathStep.field name]]
      exact .field rfl rfl h

theorem kind_of_field? {name : String} {entry : Bool × Schema}
    (h : schema.field? name = some entry) : schema.kind = .object := by
  cases schema <;> first | rfl | cases h

/-- A step that both can take is one for values of their kind. -/
theorem kind_eq_of_step? {place : Schema} {found : Json} (hplace : schema.step? step = some place)
    (hfound : value.step? step = some found) : value.kind = schema.kind := by
  cases step with
  | field name =>
    obtain ⟨entry, hentry, -⟩ := Option.map_eq_some_iff.1 hplace
    rw [kind_of_field? hentry]
    cases value <;> first | rfl | cases hfound
  | item index =>
    cases schema <;> cases hplace
    cases value <;> first | rfl | simp [Json.step?, Json.items] at hfound

/-- A value of the wrong kind breaks no other rule, and nothing below it does. -/
theorem breaksAt_of_kind_ne (h : value.kind ≠ schema.kind) :
    schema.BreaksAt value path problem ↔
      path = [] ∧ problem = .wrongKind schema.kind value.kind := by
  cases path with
  | nil =>
    rw [breaksAt_nil_iff]
    constructor
    · intro hrefuses
      cases hrefuses with
      | kind => exact ⟨rfl, rfl⟩
      | text => exact absurd rfl h
      | integer => exact absurd rfl h
    · rintro ⟨-, rfl⟩
      exact .kind h
  | cons step rest =>
    refine iff_of_false (fun hbreaks => ?_) (by simp)
    rcases breaksAt_cons_iff.1 hbreaks with ⟨place, found, hplace, hfound, -⟩ | ⟨name, -, -, hlacks⟩
    · exact h (kind_eq_of_step? hplace hfound)
    · cases hlacks with
      | field hfield => exact h (kind_of_field? hfield).symm

theorem issues_of_kind_ne (h : value.kind ≠ schema.kind) :
    schema.issues path value = [⟨path, .wrongKind schema.kind value.kind⟩] := by
  cases schema <;> cases value <;> first | rfl | exact absurd rfl h

end Places

section Issues

variable {item : Schema} {fields : List (String × Bool × Schema)}

/-- The issues of one field of an object. -/
def fieldIssue (value : Json) (e : String × Bool × Schema) : List Issue :=
  match value.field? e.1 with
  | some found => (e.2.2.issues [] found).map (.below [.field e.1])
  | none => if e.2.1 then [⟨[.field e.1], .missing e.2.2.kind⟩] else []

mutual

/-- Where a value stands makes no difference to its issues but to their paths. -/
theorem issues_eq_map_below (path : List PathStep) (schema : Schema) (value : Json) :
    schema.issues path value = (schema.issues [] value).map (.below path) := by
  cases schema with
  | text rule =>
    cases value with
    | text value =>
      rw [issues, issues]
      split <;> simp [Issue.below]
    | _ => simp [issues, Issue.below]
  | boolean => cases value <;> simp [issues, Issue.below]
  | integer =>
    cases value with
    | number value =>
      rw [issues, issues]
      split <;> simp [Issue.below]
    | _ => simp [issues, Issue.below]
  | list item =>
    cases value with
    | list items =>
      rw [issues, issues, List.map_flatMap]
      refine List.flatMap_congr fun e _ => ?_
      have hlong := issues_eq_map_below (path ++ [.item e.2]) item e.1
      have hshort := issues_eq_map_below [.item e.2] item e.1
      rw [hlong, List.nil_append, hshort, List.map_map]
      exact List.map_congr_left fun issue _ => issue.below_append path [.item e.2]
    | _ => simp [issues, Issue.below]
  | record item =>
    cases value with
    | object values =>
      rw [issues, issues, List.map_flatMap]
      refine List.flatMap_congr fun e _ => ?_
      have hlong := issues_eq_map_below (path ++ [.field e.1]) item e.2
      have hshort := issues_eq_map_below [.field e.1] item e.2
      rw [hlong, List.nil_append, hshort, List.map_map]
      exact List.map_congr_left fun issue _ => issue.below_append path [.field e.1]
    | _ => simp [issues, Issue.below]
  | object fields =>
    cases value with
    | object values =>
      rw [issues, issues, fieldIssues_eq_map_below path, fieldIssues_eq_map_below [], List.map_map]
      rfl
    | _ => simp [issues, Issue.below]

theorem fieldIssues_eq_map_below (path : List PathStep) (value : Json)
    (fields : List (String × Bool × Schema)) :
    fieldIssues path value fields = (fields.flatMap (fieldIssue value)).map (.below path) := by
  match fields with
  | [] => rfl
  | (name, required, schema) :: rest =>
    rw [fieldIssues, List.flatMap_cons, List.map_append, fieldIssues_eq_map_below path value rest]
    congr 1
    rw [fieldIssue]
    cases value.field? name with
    | some found =>
      show schema.issues (path ++ [.field name]) found = _
      rw [issues_eq_map_below, List.map_map]
      exact List.map_congr_left fun issue _ => issue.below_append path [.field name]
    | none => cases required <;> rfl

end

theorem issues_list (item : Schema) (items : List Json) :
    (list item).issues [] (.list items) =
      items.zipIdx.flatMap fun e => (item.issues [] e.1).map (.below [.item e.2]) := by
  rw [issues]
  exact List.flatMap_congr fun e _ => issues_eq_map_below [.item e.2] item e.1

theorem issues_object (fields : List (String × Bool × Schema)) (values : List (String × Json)) :
    (object fields).issues [] (.object values) = fields.flatMap (fieldIssue (.object values)) := by
  rw [issues, fieldIssues_eq_map_below]
  exact List.map_id _

variable {schema : Schema} {value : Json} {path : List PathStep} {problem : Problem}

theorem mem_map_below_iff {step : PathStep} {l : List Issue} :
    Issue.mk path problem ∈ l.map (Issue.below [step]) ↔
      ∃ rest, path = step :: rest ∧ Issue.mk rest problem ∈ l := by
  rw [List.mem_map]
  constructor
  · rintro ⟨⟨rest, found⟩, hmem, heq⟩
    cases heq
    exact ⟨rest, rfl, hmem⟩
  · rintro ⟨rest, rfl, hmem⟩
    exact ⟨_, hmem, rfl⟩

theorem mem_fieldIssue_iff {e : String × Bool × Schema} :
    ⟨path, problem⟩ ∈ fieldIssue value e ↔
      (∃ found rest, value.field? e.1 = some found ∧ path = .field e.1 :: rest ∧
        ⟨rest, problem⟩ ∈ e.2.2.issues [] found) ∨
      value.field? e.1 = none ∧ e.2.1 = true ∧ path = [.field e.1] ∧
        problem = .missing e.2.2.kind := by
  rw [fieldIssue]
  cases hfound : value.field? e.1 with
  | some found => simp [mem_map_below_iff]
  | none => cases hrequired : e.2.1 <;> simp

theorem mem_issues_iff_of_kind_ne (h : value.kind ≠ schema.kind) :
    ⟨path, problem⟩ ∈ schema.issues [] value ↔ schema.BreaksAt value path problem := by
  rw [issues_of_kind_ne h, breaksAt_of_kind_ne h]
  simp

/-- Values without parts are broken as a whole or not at all. -/
theorem breaksAt_leaf_iff (hfield : ∀ name, schema.field? name = none)
    (hitem : schema.item? = none) :
    schema.BreaksAt value path problem ↔ path = [] ∧ schema.Refuses value problem := by
  cases path with
  | nil => simp [breaksAt_nil_iff]
  | cons step rest =>
    refine iff_of_false (fun h => ?_) (by simp)
    rcases breaksAt_cons_iff.1 h with ⟨place, found, hplace, -, -⟩ | ⟨name, -, -, hlacks⟩
    · cases step with
      | field name => simp [step?, hfield] at hplace
      | item index => simp [step?, hitem] at hplace
    · cases hlacks with
      | field hentry => simp [hfield] at hentry

theorem refuses_text_iff {rule : TextRule} {value : String} :
    (text rule).Refuses (.text value) problem ↔
      rule.accepts value = false ∧ problem = .refused rule := by
  constructor
  · intro h
    cases h with
    | kind h => exact absurd rfl h
    | text h => exact ⟨h, rfl⟩
  · rintro ⟨h, rfl⟩
    exact .text h

theorem refuses_integer_iff {value : Number} :
    integer.Refuses (.number value) problem ↔ value.isInteger = false ∧ problem = .notInteger := by
  constructor
  · intro h
    cases h with
    | kind h => exact absurd rfl h
    | integer h => exact ⟨h, rfl⟩
  · rintro ⟨h, rfl⟩
    exact .integer h

/-- Checking finds what is broken, and nothing else. -/
theorem mem_issues_iff (h : schema.Plain) :
    ⟨path, problem⟩ ∈ schema.issues [] value ↔ schema.BreaksAt value path problem := by
  induction h generalizing value path problem with
  | text rule =>
    cases value with
    | text value =>
      rw [breaksAt_leaf_iff (fun _ => rfl) rfl, issues, refuses_text_iff]
      cases rule.accepts value <;> simp
    | _ => exact mem_issues_iff_of_kind_ne nofun
  | boolean =>
    cases value with
    | boolean value =>
      rw [breaksAt_leaf_iff (fun _ => rfl) rfl, issues]
      refine iff_of_false List.not_mem_nil fun ⟨_, hrefuses⟩ => ?_
      cases hrefuses with
      | kind h => exact h rfl
    | _ => exact mem_issues_iff_of_kind_ne nofun
  | integer =>
    cases value with
    | number value =>
      rw [breaksAt_leaf_iff (fun _ => rfl) rfl, issues, refuses_integer_iff]
      cases value.isInteger <;> simp
    | _ => exact mem_issues_iff_of_kind_ne nofun
  | @list item _ ih =>
    cases value with
    | list items =>
      rw [issues_list, List.mem_flatMap]
      simp only [mem_map_below_iff, ih]
      constructor
      · rintro ⟨⟨found, index⟩, hmem, rest, rfl, h⟩
        exact breaksAt_cons_iff.2
          (.inl ⟨item, found, rfl, List.mem_zipIdx_iff_getElem?.1 hmem, h⟩)
      · intro h
        cases path with
        | nil =>
          cases breaksAt_nil_iff.1 h with
          | kind hkind => exact absurd rfl hkind
        | cons step rest =>
          rcases breaksAt_cons_iff.1 h with ⟨place, found, hplace, hfound, h⟩ | ⟨name, -, -, hlacks⟩
          · cases step with
            | field name => cases hplace
            | item index =>
              cases hplace
              exact ⟨(found, index), List.mem_zipIdx_iff_getElem?.2 hfound, rest, rfl, h⟩
          · cases hlacks
    | _ => exact mem_issues_iff_of_kind_ne nofun
  | @object fields distinct _ ih =>
    cases value with
    | object values =>
      rw [issues_object, List.mem_flatMap]
      simp only [mem_fieldIssue_iff]
      constructor
      · rintro ⟨⟨name, required, entry⟩, he, ⟨found, rest, hfound, rfl, h⟩ | ⟨hnone, rfl, rfl, rfl⟩⟩
        · have hplace : (object fields).step? (.field name) = some entry := by
            rw [step?, (field?_eq_some_iff distinct).2 he]
            rfl
          exact breaksAt_cons_iff.2 (.inl ⟨entry, found, hplace, hfound, (ih _ he).1 h⟩)
        · exact breaksAt_cons_iff.2
            (.inr ⟨name, rfl, rfl, .field ((field?_eq_some_iff distinct).2 he) hnone⟩)
      · intro h
        cases path with
        | nil =>
          cases breaksAt_nil_iff.1 h with
          | kind hkind => exact absurd rfl hkind
        | cons step rest =>
          rcases breaksAt_cons_iff.1 h with
            ⟨place, found, hplace, hfound, h⟩ | ⟨name, rfl, rfl, hlacks⟩
          · cases step with
            | item index => cases hplace
            | field name =>
              obtain ⟨⟨required, entry⟩, hfield, rfl⟩ := Option.map_eq_some_iff.1 hplace
              have he := (field?_eq_some_iff distinct).1 hfield
              exact ⟨_, he, .inl ⟨found, rest, hfound, rfl, (ih _ he).2 h⟩⟩
          · cases hlacks with
            | field hfield hnone =>
              have he := (field?_eq_some_iff distinct).1 hfield
              exact ⟨_, he, .inr ⟨hnone, rfl, rfl, rfl⟩⟩
    | _ => exact mem_issues_iff_of_kind_ne nofun

/-- All issues of a field start with its name. -/
theorem exists_path_of_mem_fieldIssue {e : String × Bool × Schema} {issue : Issue}
    (h : issue ∈ fieldIssue value e) : ∃ rest, issue.path = .field e.1 :: rest := by
  obtain ⟨path, problem⟩ := issue
  rcases mem_fieldIssue_iff.1 h with ⟨-, rest, -, rfl, -⟩ | ⟨-, -, rfl, -⟩
  · exact ⟨rest, rfl⟩
  · exact ⟨[], rfl⟩

theorem exists_path_of_mem_below {step : PathStep} {l : List Issue} {issue : Issue}
    (h : issue ∈ l.map (.below [step])) : ∃ rest, issue.path = step :: rest := by
  obtain ⟨found, -, rfl⟩ := List.mem_map.1 h
  exact ⟨found.path, rfl⟩

theorem pairwise_fieldIssue {e : String × Bool × Schema} (he : e ∈ fields)
    (ih : ∀ value, (e.2.2.issues [] value).Pairwise fun a b => e.2.2.Precedes a.path b.path) :
    (fieldIssue value e).Pairwise fun a b => (object fields).Precedes a.path b.path := by
  rw [fieldIssue]
  split
  · next found _ =>
    rw [List.pairwise_map]
    exact (ih found).imp fun h => .inField he h
  · split <;> simp

/-- Issues are found in the order of the places that they are about. -/
theorem pairwise_issues (h : schema.Plain) (value : Json) :
    (schema.issues [] value).Pairwise fun a b => schema.Precedes a.path b.path := by
  induction h generalizing value with
  | text rule =>
    cases value with
    | text value =>
      rw [issues]
      split <;> simp
    | _ => simp [issues]
  | boolean => cases value <;> simp [issues]
  | integer =>
    cases value with
    | number value =>
      rw [issues]
      split <;> simp
    | _ => simp [issues]
  | @list item _ ih =>
    cases value with
    | list items =>
      rw [issues_list, List.pairwise_flatMap]
      refine ⟨fun e _ => ?_, ?_⟩
      · rw [List.pairwise_map]
        exact (ih e.1).imp fun h => .inItem h
      · have hindex : items.zipIdx.Pairwise fun a b => a.2 < b.2 := by
          rw [← List.pairwise_map, List.zipIdx_map_snd]
          exact List.pairwise_lt_range'
        refine hindex.imp fun hlt x hx y hy => ?_
        obtain ⟨p, hp⟩ := exists_path_of_mem_below hx
        obtain ⟨q, hq⟩ := exists_path_of_mem_below hy
        rw [hp, hq]
        exact .item hlt
    | _ => simp [issues]
  | @object fields distinct _ ih =>
    cases value with
    | object values =>
      rw [issues_object, List.pairwise_flatMap]
      refine ⟨fun e he => pairwise_fieldIssue he (ih e he), ?_⟩
      refine List.pairwise_iff_forall_sublist.2 fun hsub x hx y hy => ?_
      obtain ⟨p, hp⟩ := exists_path_of_mem_fieldIssue hx
      obtain ⟨q, hq⟩ := exists_path_of_mem_fieldIssue hy
      rw [hp, hq]
      exact .field (hsub.map Prod.fst)
    | _ => simp [issues]

theorem Precedes.irrefl (h : schema.Plain) : ¬schema.Precedes path path := by
  induction h generalizing path with
  | text rule => nofun
  | boolean => nofun
  | integer => nofun
  | list _ ih =>
    intro hlt
    cases hlt with
    | item hlt => exact absurd hlt (Nat.lt_irrefl _)
    | inItem h => exact ih h
  | object distinct _ ih =>
    intro hlt
    cases hlt with
    | field hsub => exact List.nodup_iff_sublist.1 distinct _ hsub
    | inField hfield h => exact ih _ hfield h

/-- No place is found twice. -/
theorem nodup_issues (h : schema.Plain) (value : Json) :
    ((schema.issues [] value).map Issue.path).Nodup := by
  rw [List.Nodup, List.pairwise_map]
  refine (pairwise_issues h value).imp fun hlt heq => ?_
  rw [heq] at hlt
  exact hlt.irrefl h

end Issues

end Schema

end VoxelQuery
