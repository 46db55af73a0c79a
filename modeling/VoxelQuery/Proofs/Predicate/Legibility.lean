import VoxelQuery.Predicate.Text
import VoxelQuery.Proofs.Registry.Growth
import VoxelQuery.Proofs.Text.Cutting

/-! Reading predicates back. The text of a predicate is a keyword, which tells the form, with the
parts in brackets behind it. A name ends at the first closing bracket, and a list of children goes
on behind a comma and ends at the closing bracket. So a text tells the predicate and its own end. -/
namespace VoxelQuery

/-- The words that the texts of predicates start with. -/
inductive Keyword where
  | always
  | never
  | combination (connective : Connective)
  | negation
  | block
  | state
  | typeTag (strict : Bool)
  | property
  | material
  | adjacent
  | emptyAbove
  | altitude

namespace Keyword

def text : Keyword → String
  | always => "any"
  | never => "none"
  | combination connective => connective.text
  | negation => "not"
  | block => "block"
  | state => "state"
  | typeTag strict => if strict then "strictType" else "type"
  | property => "property"
  | material => "material"
  | adjacent => "adjacent"
  | emptyAbove => "airAbove"
  | altitude => "altitude"

def all : List Keyword :=
  [always, never, combination .and, combination .or, negation, block, state, typeTag false,
    typeTag true, property, material, adjacent, emptyAbove, altitude]

theorem mem_all (k : Keyword) : k ∈ all := by
  cases k with
  | combination connective => cases connective <;> simp [all]
  | typeTag strict => cases strict <;> simp [all]
  | _ => simp [all]

theorem text_injective : Function.Injective text := by
  have hnodup : (all.map text).Nodup := by decide
  intro k k' h
  exact List.inj_on_of_nodup_map hnodup (mem_all k) (mem_all k') h

theorem isAlpha_of_mem {k : Keyword} : ∀ c ∈ k.text.toList, c.isAlpha = true := by
  have hall : (all.all fun k => k.text.toList.all Char.isAlpha) = true := by decide +kernel
  exact List.all_eq_true.1 (List.all_eq_true.1 hall k (mem_all k))

end Keyword

/-- What can stand behind the text of a predicate: nothing, the next child, or the end of a list. -/
def Ends (behind : List Char) : Prop := ∀ c ∈ behind.head?, c = ',' ∨ c = ')'

theorem ends_nil : Ends [] := nofun

theorem ends_close (behind : List Char) : Ends (')' :: behind) := by
  rintro c ⟨⟩
  exact .inr rfl

namespace Predicate

/-- No part of the predicate can be taken for another by its text. Names of entries close no bracket
and stand for one entry of the registry, and properties are tested for words. -/
inductive Legible (r : Registry) : Predicate → Prop
  | always : Legible r .always
  | never : Legible r .never
  | combination (connective : Connective) {children : List Predicate} (hne : children ≠ [])
      (hall : ∀ child ∈ children, Legible r child) : Legible r (.combination connective children)
  | negation {child : Predicate} (h : Legible r child) : Legible r (.negation child)
  | block {identifier : String} (hclose : ')' ∉ identifier.toList) : Legible r (.block identifier)
  | typeTag {tag : TypeTag} (strict : Bool) (hclose : ')' ∉ tag.name.toList)
      (h : r.HasTypeTag tag) : Legible r (.typeTag tag strict)
  | property {name : String} {values : List String} (hname : Text.isWord name.toList = true)
      (hvalues : ∀ value ∈ values, Text.isWord value.toList = true) (hne : values ≠ []) :
      Legible r (.property name values)
  | material {m : Material} (hclose : ')' ∉ m.name.toList) (h : r.HasMaterial m) :
      Legible r (.material m)
  | adjacent {m : Material} (hclose : ')' ∉ m.name.toList) (h : r.HasMaterial m) :
      Legible r (.adjacent m)
  | emptyAbove : Legible r .emptyAbove

section Parts

def keyword : Predicate → Keyword
  | always => .always
  | never => .never
  | combination connective _ => .combination connective
  | negation _ => .negation
  | block _ => .block
  | state _ => .state
  | typeTag _ strict => .typeTag strict
  | property _ _ => .property
  | material _ => .material
  | adjacent _ => .adjacent
  | emptyAbove => .emptyAbove
  | altitude _ _ => .altitude

def inBrackets (text : String) : List Char := '(' :: (text.toList ++ [')'])

/-- What the text has behind the keyword. -/
def brackets : Predicate → List Char
  | always => []
  | never => []
  | combination _ children => inBrackets (", ".intercalate (children.map text))
  | negation child => inBrackets child.text
  | block identifier => inBrackets identifier
  | state key => inBrackets key
  | typeTag tag _ => inBrackets tag.name
  | property name values => inBrackets (name ++ "=" ++ "|".intercalate values)
  | material m => inBrackets m.name
  | adjacent m => inBrackets m.name
  | emptyAbove => []
  | altitude low high => inBrackets (low.text ++ ".." ++ high.text)

theorem toList_text (p : Predicate) : p.text.toList = p.keyword.text.toList ++ p.brackets := by
  cases p with
  | typeTag tag strict => cases strict <;> simp [text, keyword, brackets, inBrackets, Keyword.text]
  | _ => simp [text, keyword, brackets, inBrackets, Keyword.text]

variable {p q : Predicate} {behind after : List Char}

theorem brackets_cases (p : Predicate) :
    p.brackets = [] ∨ ∃ inside, p.brackets = inBrackets inside := by
  cases p with
  | always => exact .inl rfl
  | never => exact .inl rfl
  | emptyAbove => exact .inl rfl
  | _ => exact .inr ⟨_, rfl⟩

theorem isAlpha_head_brackets (p : Predicate) (hbehind : Ends behind) :
    ∀ c ∈ (p.brackets ++ behind).head?, c.isAlpha = false := by
  rcases p.brackets_cases with hnone | ⟨inside, hinside⟩
  · rw [hnone, List.nil_append]
    intro c hc
    rcases hbehind c hc with rfl | rfl <;> decide
  · rw [hinside]
    rintro c ⟨⟩
    decide

/-- The keyword ends where the letters end. -/
theorem keyword_inj (hbehind : Ends behind) (hafter : Ends after)
    (h : p.text.toList ++ behind = q.text.toList ++ after) :
    p.keyword = q.keyword ∧ p.brackets ++ behind = q.brackets ++ after := by
  rw [toList_text, toList_text, List.append_assoc, List.append_assoc] at h
  obtain ⟨hkeyword, hrest⟩ := Text.append_inj_of_head Keyword.isAlpha_of_mem Keyword.isAlpha_of_mem
    (p.isAlpha_head_brackets hbehind) (q.isAlpha_head_brackets hafter) h
  exact ⟨Keyword.text_injective (String.toList_inj.1 hkeyword), hrest⟩

theorem inBrackets_append (text : String) (behind : List Char) :
    inBrackets text ++ behind = '(' :: (text.toList ++ ')' :: behind) := by
  simp [inBrackets]

/-- A name ends at the first closing bracket. -/
theorem inBrackets_inj {a b : String} (ha : ')' ∉ a.toList) (hb : ')' ∉ b.toList)
    (h : inBrackets a ++ behind = inBrackets b ++ after) : a = b ∧ behind = after := by
  rw [inBrackets_append, inBrackets_append] at h
  obtain ⟨hname, hrest⟩ := Text.append_inj_of_head (Text.ne_of_notMem ha) (Text.ne_of_notMem hb)
    (by simp) (by simp) (List.cons.inj h).2
  exact ⟨String.toList_inj.1 hname, (List.cons.inj hrest).2⟩

end Parts

section Properties

variable {name : String} {values : List String}

theorem toList_propertyText (name : String) (values : List String) :
    (name ++ "=" ++ "|".intercalate values).toList =
      name.toList ++ '=' :: Text.joinWith '|' (values.map String.toList) := by
  rw [String.toList_append, String.toList_append, String.toList_intercalate,
    ← Text.intercalate_eq_joinWith]
  simp

theorem close_notMem_propertyText (hname : Text.isWord name.toList = true)
    (hvalues : ∀ value ∈ values, Text.isWord value.toList = true) :
    ')' ∉ (name ++ "=" ++ "|".intercalate values).toList := by
  have hjoin : ')' ∉ Text.joinWith '|' (values.map String.toList) :=
    Text.notMem_joinWith (by decide) <|
      List.forall_mem_map.2 fun value hv => Text.notMem_of_isWord (by decide) (hvalues value hv)
  rw [toList_propertyText]
  simp [hjoin, Text.notMem_of_isWord (by decide : Text.isWordPart ')' = false) hname]

/-- The name ends at the equals sign, and bars stand between the values only. -/
theorem propertyText_inj {name' : String} {values' : List String}
    (hname : Text.isWord name.toList = true) (hname' : Text.isWord name'.toList = true)
    (hvalues : ∀ value ∈ values, Text.isWord value.toList = true)
    (hvalues' : ∀ value ∈ values', Text.isWord value.toList = true) (hne : values ≠ [])
    (hne' : values' ≠ [])
    (h : name ++ "=" ++ "|".intercalate values = name' ++ "=" ++ "|".intercalate values') :
    name = name' ∧ values = values' := by
  have hpieces : ∀ {l : List String}, l ≠ [] →
      (∀ value ∈ l, Text.isWord value.toList = true) →
      Text.pieces '|' (Text.joinWith '|' (l.map String.toList)) = l.map String.toList := by
    intro l hl hwords
    refine Text.pieces_joinWith (by simpa using hl) (List.forall_mem_map.2 fun value hv => ?_)
    exact Text.notMem_of_isWord (by decide) (hwords value hv)
  have htext := congrArg String.toList h
  rw [toList_propertyText, toList_propertyText] at htext
  obtain ⟨hsame, hrest⟩ := Text.append_inj_of_head
    (Text.ne_of_notMem (Text.notMem_of_isWord (by decide : Text.isWordPart '=' = false) hname))
    (Text.ne_of_notMem (Text.notMem_of_isWord (by decide) hname')) (by simp) (by simp) htext
  have hjoin := congrArg (Text.pieces '|') (List.cons.inj hrest).2
  rw [hpieces hne hvalues, hpieces hne' hvalues'] at hjoin
  exact ⟨String.toList_inj.1 hsame,
    List.map_injective_iff.2 (fun _ _ => String.toList_inj.1) hjoin⟩

end Properties

section Children

variable {r : Registry}

/-- In front of anything that can stand behind it, the text is that of no other predicate. -/
def Told (r : Registry) (p : Predicate) : Prop :=
  ∀ q : Predicate, q.Legible r → ∀ behind after, Ends behind → Ends after →
    p.text.toList ++ behind = q.text.toList ++ after → p = q ∧ behind = after

/-- Only predicates of one keyword have to be told apart. -/
theorem told_of_brackets {p : Predicate}
    (h : ∀ q : Predicate, q.Legible r → p.keyword = q.keyword → ∀ behind after,
      p.brackets ++ behind = q.brackets ++ after → p = q ∧ behind = after) : p.Told r := by
  intro q hq behind after hbehind hafter htext
  obtain ⟨hkeyword, hrest⟩ := keyword_inj hbehind hafter htext
  exact h q hq hkeyword behind after hrest

/-- A child that is not the first one, with what stands in front of it. -/
def later (child : Predicate) : List Char := ',' :: ' ' :: child.text.toList

theorem toList_children (first : Predicate) (rest : List Predicate) :
    (", ".intercalate ((first :: rest).map text)).toList =
      first.text.toList ++ rest.flatMap later := by
  rw [String.toList_intercalate]
  induction rest generalizing first with
  | nil => simp [List.intercalate]
  | cons second more ih =>
    have hrest := ih second
    simp [List.intercalate, later] at hrest ⊢
    exact hrest

theorem ends_later (rest : List Predicate) (behind : List Char) :
    Ends (rest.flatMap later ++ ')' :: behind) := by
  cases rest with
  | nil => exact ends_close behind
  | cons child more =>
    rintro c ⟨⟩
    exact .inl rfl

/-- A comma behind a child announces the next one, and without it the list is at its end. -/
theorem later_inj {rest others : List Predicate} {behind after : List Char}
    (hrest : ∀ child ∈ rest, child.Told r) (hothers : ∀ other ∈ others, other.Legible r)
    (h : rest.flatMap later ++ ')' :: behind = others.flatMap later ++ ')' :: after) :
    rest = others ∧ behind = after := by
  induction rest generalizing others with
  | nil =>
    cases others with
    | nil => exact ⟨rfl, (List.cons.inj h).2⟩
    | cons other more => exact absurd (List.cons.inj h).1 (by decide)
  | cons child rest ih =>
    cases others with
    | nil => exact absurd (List.cons.inj h).1 (by decide)
    | cons other others =>
      obtain ⟨hchild, hmore⟩ := List.forall_mem_cons.1 hrest
      obtain ⟨hother, hlast⟩ := List.forall_mem_cons.1 hothers
      simp only [List.flatMap_cons, later, List.cons_append, List.append_assoc, List.cons.injEq,
        true_and] at h
      obtain ⟨rfl, htail⟩ := hchild other hother _ _ (ends_later rest behind)
        (ends_later others after) h
      obtain ⟨rfl, hbehind⟩ := ih hmore hlast htail
      exact ⟨rfl, hbehind⟩

theorem children_inj {children others : List Predicate} {behind after : List Char}
    (hne : children ≠ []) (hne' : others ≠ []) (hall : ∀ child ∈ children, child.Told r)
    (hothers : ∀ other ∈ others, other.Legible r)
    (h : inBrackets (", ".intercalate (children.map text)) ++ behind =
      inBrackets (", ".intercalate (others.map text)) ++ after) :
    children = others ∧ behind = after := by
  obtain ⟨first, rest, rfl⟩ := List.exists_cons_of_ne_nil hne
  obtain ⟨other, more, rfl⟩ := List.exists_cons_of_ne_nil hne'
  obtain ⟨hfirst, hrest⟩ := List.forall_mem_cons.1 hall
  obtain ⟨hother, hmore⟩ := List.forall_mem_cons.1 hothers
  rw [inBrackets_append, inBrackets_append, toList_children, toList_children, List.append_assoc,
    List.append_assoc] at h
  obtain ⟨rfl, htail⟩ := hfirst other hother _ _ (ends_later rest behind) (ends_later more after)
    (List.cons.inj h).2
  obtain ⟨rfl, hbehind⟩ := later_inj hrest hmore htail
  exact ⟨rfl, hbehind⟩

end Children

variable {r : Registry}

theorem Legible.told {p : Predicate} (hp : p.Legible r) : p.Told r := by
  refine told_of_brackets fun q hq hkeyword behind after h => ?_
  induction hp generalizing q behind after with
  | always =>
    cases hq with
    | always => exact ⟨rfl, h⟩
    | _ => cases hkeyword
  | never =>
    cases hq with
    | never => exact ⟨rfl, h⟩
    | _ => cases hkeyword
  | combination connective hne hall ih =>
    cases hq with
    | combination connective' hne' hall' =>
      have htold := fun child hchild => told_of_brackets (ih child hchild)
      obtain ⟨rfl, hlast⟩ := children_inj hne hne' htold hall' h
      cases hkeyword
      exact ⟨rfl, hlast⟩
    | _ => cases hkeyword
  | negation hchild ih =>
    cases hq with
    | negation hchild' =>
      simp only [brackets, inBrackets_append] at h
      obtain ⟨rfl, hlast⟩ := told_of_brackets ih _ hchild' _ _ (ends_close behind)
        (ends_close after) (List.cons.inj h).2
      exact ⟨rfl, (List.cons.inj hlast).2⟩
    | _ => cases hkeyword
  | block hclose =>
    cases hq with
    | block hclose' =>
      obtain ⟨rfl, hlast⟩ := inBrackets_inj hclose hclose' h
      exact ⟨rfl, hlast⟩
    | _ => cases hkeyword
  | typeTag strict hclose htag =>
    cases hq with
    | typeTag strict' hclose' htag' =>
      obtain ⟨hname, hlast⟩ := inBrackets_inj hclose hclose' h
      obtain rfl := (htag.eq_iff htag').2 hname
      cases hkeyword
      exact ⟨rfl, hlast⟩
    | _ => cases hkeyword
  | property hname hvalues hne =>
    cases hq with
    | property hname' hvalues' hne' =>
      obtain ⟨htext, hlast⟩ := inBrackets_inj (close_notMem_propertyText hname hvalues)
        (close_notMem_propertyText hname' hvalues') h
      obtain ⟨rfl, rfl⟩ := propertyText_inj hname hname' hvalues hvalues' hne hne' htext
      exact ⟨rfl, hlast⟩
    | _ => cases hkeyword
  | material hclose hm =>
    cases hq with
    | material hclose' hm' =>
      obtain ⟨hname, hlast⟩ := inBrackets_inj hclose hclose' h
      obtain rfl := (hm.eq_iff hm').2 hname
      exact ⟨rfl, hlast⟩
    | _ => cases hkeyword
  | adjacent hclose hm =>
    cases hq with
    | adjacent hclose' hm' =>
      obtain ⟨hname, hlast⟩ := inBrackets_inj hclose hclose' h
      obtain rfl := (hm.eq_iff hm').2 hname
      exact ⟨rfl, hlast⟩
    | _ => cases hkeyword
  | emptyAbove =>
    cases hq with
    | emptyAbove => exact ⟨rfl, h⟩
    | _ => cases hkeyword

/-- Among legible predicates the text tells the predicate. -/
theorem Legible.eq_of_text {p q : Predicate} (hp : p.Legible r) (hq : q.Legible r)
    (h : p.text = q.text) : p = q :=
  (hp.told q hq [] [] ends_nil ends_nil (by rw [h])).1

end Predicate

end VoxelQuery
