import VoxelQuery.Proofs.Query.Items
import VoxelQuery.Proofs.Query.Lexical

/-! The terms of a segment by way of its tokens. A segment of the grammar spells tokens that read
as its terms, and each text has at most one reading. -/
namespace VoxelQuery

/-- The lexemes that stand for an atom. No bang does. -/
inductive Lexeme.Reads : Lexeme → Atom → Prop
  | bare (name : String) : Reads (.bare name) (.bare name)
  | marked (sigil : Sigil) (name : String) : Reads (.marked sigil name) (.marked sigil name)
  | group {interior : String} {items : List PropertyItem}
      (h : Listed ItemText interior.toList items) : Reads (.group interior) (.group items)

/-- Lexemes that stand for terms, one or two for each. -/
inductive ReadAs : List Lexeme → List Term → Prop
  | nil : ReadAs [] []
  | plain {lexeme : Lexeme} {atom : Atom} {rest : List Lexeme} {terms : List Term}
      (h : lexeme.Reads atom) (tail : ReadAs rest terms) :
      ReadAs (lexeme :: rest) (⟨false, atom⟩ :: terms)
  | negated {lexeme : Lexeme} {atom : Atom} {rest : List Lexeme} {terms : List Term}
      (h : lexeme.Reads atom) (tail : ReadAs rest terms) :
      ReadAs (.bang :: lexeme :: rest) (⟨true, atom⟩ :: terms)

section Uniqueness

theorem ItemText.unique {text : List Char} {a b : PropertyItem} (ha : ItemText text a)
    (hb : ItemText text b) : a = b := by
  have hread : ∀ {item}, ItemText text item → PropertyItem.parse? (String.ofList text) = some item :=
    fun h => PropertyItem.parse?_eq_some_iff.2 (by rwa [String.toList_ofList])
  exact Option.some.inj ((hread ha).symm.trans (hread hb))

theorem Lexeme.Reads.unique {lexeme : Lexeme} {a b : Atom} (ha : lexeme.Reads a)
    (hb : lexeme.Reads b) : a = b := by
  cases ha with
  | bare name => cases hb; rfl
  | marked sigil name => cases hb; rfl
  | group h =>
    cases hb with
    | group h' =>
      have hright : Relator.RightUnique
          (fun item found => PropertyItem.parse? item = some found) :=
        fun item x y hx hy => Option.some.inj (hx.symm.trans hy)
      rw [hright.forall₂ (forall₂_parse?_iff.2 h) (forall₂_parse?_iff.2 h')]

theorem ReadAs.unique {lexemes : List Lexeme} {a b : List Term} (ha : ReadAs lexemes a)
    (hb : ReadAs lexemes b) : a = b := by
  induction ha generalizing b with
  | nil => cases hb; rfl
  | plain h tail ih =>
    cases hb with
    | plain h' tail' => rw [h.unique h', ih tail']
    | negated h' tail' => cases h
  | negated h tail ih =>
    cases hb with
    | plain h' tail' => cases h'
    | negated h' tail' => rw [h.unique h', ih tail']

end Uniqueness

section Atoms

variable {lexeme : Lexeme} {atom : Atom}

theorem Lexeme.Reads.atomText (h : lexeme.Reads atom) (hw : lexeme.WellFormed) :
    AtomText lexeme.chars atom := by
  cases h with
  | bare name => exact .bare hw
  | marked sigil name => exact .marked sigil hw
  | group h => exact .group (bracket_notMem_of_listed h).1 hw h

theorem Lexeme.Reads.endsBefore_iff (h : lexeme.Reads atom) (behind : List Char) :
    lexeme.EndsBefore behind ↔ atom.EndsBefore behind := by
  cases h <;> exact Iff.rfl

theorem AtomText.exists_lexeme {text : List Char} (h : AtomText text atom) :
    ∃ lexeme : Lexeme, lexeme.WellFormed ∧ lexeme.Reads atom ∧ lexeme.chars = text := by
  cases h with
  | @bare name h => exact ⟨.bare name, h, .bare name, rfl⟩
  | @marked name sigil h => exact ⟨.marked sigil name, h, .marked sigil name, rfl⟩
  | @group interior items opening closing h =>
    have hlist : (String.ofList interior).toList = interior := String.toList_ofList
    refine ⟨.group (String.ofList interior), ?_, .group (by rwa [hlist]), ?_⟩
    · rwa [Lexeme.WellFormed, hlist]
    · rw [Lexeme.chars, hlist]

end Atoms

namespace Token

theorem Spells.gaps {offset : Nat} {gaps text : List Char} {found : List Token}
    (hgaps : ∀ c ∈ gaps, isGap c = true) (tail : Spells (offset + gaps.length) text found) :
    Spells offset (gaps ++ text) found := by
  induction gaps generalizing offset with
  | nil => exact tail
  | cons c more ih =>
    refine .gap (hgaps c List.mem_cons_self) (ih (fun d hd => hgaps d (List.mem_cons_of_mem _ hd)) ?_)
    rwa [List.length_cons, Nat.add_comm more.length 1, ← Nat.add_assoc] at tail

/-- In front of the first token there are gaps only. -/
theorem Spells.exists_gaps {offset : Nat} {text : List Char} {t : Token} {found : List Token}
    (h : Spells offset text (t :: found)) :
    ∃ gaps rest next, (∀ c ∈ gaps, isGap c = true) ∧ text = gaps ++ (t.lexeme.chars ++ rest) ∧
      t.lexeme.WellFormed ∧ t.lexeme.EndsBefore rest ∧ Spells next rest found := by
  generalize hall : t :: found = all at h
  induction h with
  | nil => cases hall
  | @gap offset c text all hc tail ih =>
    obtain ⟨gaps, rest, next, hgaps, rfl, hw, he, hrest⟩ := ih hall
    refine ⟨c :: gaps, rest, next, ?_, rfl, hw, he, hrest⟩
    intro d hd
    rcases List.mem_cons.1 hd with rfl | hd
    · exact hc
    · exact hgaps d hd
  | @token offset lexeme text more hw he tail ih =>
    cases hall
    exact ⟨[], text, _, by simp, rfl, hw, he, tail⟩

theorem Spells.all_gaps {offset : Nat} {text : List Char} (h : Spells offset text []) :
    ∀ c ∈ text, isGap c = true := by
  generalize hnone : ([] : List Token) = none at h
  induction h with
  | nil => simp
  | @gap offset c text all hc tail ih =>
    intro d hd
    rcases List.mem_cons.1 hd with rfl | hd
    · exact hc
    · exact ih hnone d hd
  | token => cases hnone

end Token

theorem SegmentText.gaps {gaps text : List Char} {terms : List Term}
    (hgaps : ∀ c ∈ gaps, isGap c = true) (tail : SegmentText text terms) :
    SegmentText (gaps ++ text) terms := by
  induction gaps with
  | nil => exact tail
  | cons c more ih =>
    exact .gap (hgaps c List.mem_cons_self) (ih fun d hd => hgaps d (List.mem_cons_of_mem _ hd))

theorem segmentText_of_readAs {lexemes : List Lexeme} {terms : List Term} (h : ReadAs lexemes terms)
    {offset : Nat} {text : List Char} {found : List Token} (hs : Token.Spells offset text found)
    (hl : found.map Token.lexeme = lexemes) : SegmentText text terms := by
  induction h generalizing offset text found with
  | nil =>
    rw [List.map_eq_nil_iff.1 hl] at hs
    have htext := SegmentText.gaps hs.all_gaps .nil
    rwa [List.append_nil] at htext
  | plain h tail ih =>
    obtain ⟨t, rest, rfl, rfl, hrest⟩ := List.map_eq_cons_iff.1 hl
    obtain ⟨gaps, behind, next, hgaps, rfl, hw, he, htail⟩ := hs.exists_gaps
    exact SegmentText.gaps hgaps
      (.plain (h.atomText hw) ((h.endsBefore_iff behind).1 he) (ih htail hrest))
  | negated h tail ih =>
    obtain ⟨bang, others, rfl, hbang, hothers⟩ := List.map_eq_cons_iff.1 hl
    obtain ⟨t, rest, rfl, rfl, hrest⟩ := List.map_eq_cons_iff.1 hothers
    obtain ⟨gaps, behind, next, hgaps, rfl, -, -, htail⟩ := hs.exists_gaps
    obtain ⟨inner, behind, next, hinner, rfl, hw, he, htail⟩ := htail.exists_gaps
    rw [hbang]
    show SegmentText (gaps ++ '!' :: (inner ++ (t.lexeme.chars ++ behind))) _
    exact SegmentText.gaps hgaps
      (.negated hinner (h.atomText hw) ((h.endsBefore_iff behind).1 he) (ih htail hrest))

theorem SegmentText.exists_spells {text : List Char} {terms : List Term} (h : SegmentText text terms)
    (offset : Nat) :
    ∃ found, Token.Spells offset text found ∧ ReadAs (found.map Token.lexeme) terms := by
  induction h generalizing offset with
  | nil => exact ⟨[], .nil offset, .nil⟩
  | gap hc tail ih =>
    obtain ⟨found, hs, hread⟩ := ih (offset + 1)
    exact ⟨found, .gap hc hs, hread⟩
  | plain h longest tail ih =>
    obtain ⟨lexeme, hw, hatom, rfl⟩ := h.exists_lexeme
    obtain ⟨found, hs, hread⟩ := ih (offset + Text.unitLength lexeme.chars)
    exact ⟨⟨lexeme, offset⟩ :: found, .token hw ((hatom.endsBefore_iff _).2 longest) hs,
      .plain hatom hread⟩
  | @negated gaps text rest atom terms hgaps h longest tail ih =>
    obtain ⟨lexeme, hw, hatom, rfl⟩ := h.exists_lexeme
    obtain ⟨found, hs, hread⟩ :=
      ih (offset + 1 + gaps.length + Text.unitLength lexeme.chars)
    have hterm := Token.Spells.token hw ((hatom.endsBefore_iff _).2 longest) hs
    have hbang : Token.Spells offset (Lexeme.bang.chars ++ (gaps ++ (lexeme.chars ++ rest)))
        (⟨.bang, offset⟩ :: ⟨lexeme, offset + 1 + gaps.length⟩ :: found) :=
      .token trivial trivial (hterm.gaps hgaps)
    exact ⟨_, hbang, .negated hatom hread⟩

/-- A segment of the grammar is a text whose tokens read as the terms. -/
theorem segmentText_iff {text : List Char} {terms : List Term} :
    SegmentText text terms ↔
      ∃ found, Token.scan 0 text = .ok found ∧ ReadAs (found.map Token.lexeme) terms := by
  constructor
  · intro h
    obtain ⟨found, hs, hread⟩ := h.exists_spells 0
    exact ⟨found, Token.scan_eq_ok_iff.2 hs, hread⟩
  · rintro ⟨found, hs, hread⟩
    exact segmentText_of_readAs hread (Token.scan_eq_ok_iff.1 hs) rfl

theorem SegmentText.unique {text : List Char} {a b : List Term} (ha : SegmentText text a)
    (hb : SegmentText text b) : a = b := by
  obtain ⟨found, hs, hread⟩ := segmentText_iff.1 ha
  obtain ⟨found', hs', hread'⟩ := segmentText_iff.1 hb
  cases hs.symm.trans hs'
  exact hread.unique hread'

end VoxelQuery
