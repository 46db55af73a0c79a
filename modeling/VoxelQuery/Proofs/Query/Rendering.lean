import Mathlib.Data.List.Chain
import VoxelQuery.Proofs.Query.Spots
import VoxelQuery.Proofs.Query.Terms

/-! Renderings: lexemes written one after the other with gaps between them, which may be missing
where no lexeme goes on with the next one. Scanning a rendering gives back its lexemes with their
offsets, and a text that is no rendering cannot be scanned. -/
namespace VoxelQuery

theorem unitLength_of_gaps {gap : List Char} (h : ∀ c ∈ gap, isGap c = true) :
    Text.unitLength gap = gap.length := by
  induction gap with
  | nil => rfl
  | cons c rest ih =>
    obtain ⟨hc, hrest⟩ := List.forall_mem_cons.1 h
    simp [width_of_isGap hc, ih hrest, Nat.add_comm]

namespace Lexeme

/-- Written without a gap between them, the first lexeme would go on with the second. -/
def runsInto : Lexeme → Lexeme → Bool
  | bare _, bare _ => true
  | marked _ _, bare name => name.toList.head?.any Text.isWordPart
  | _, _ => false

theorem endsBefore_of_gap (a : Lexeme) {text : List Char}
    (h : ∀ c ∈ text.head?, isGap c = true) : a.EndsBefore text := by
  cases a with
  | bang => trivial
  | group interior => trivial
  | bare name => exact fun c hc => isIdentifierPart_of_isGap (h c hc)
  | marked sigil name => exact fun c hc => isWordPart_of_isGap (h c hc)

/-- Whether a lexeme ends in front of another one is decided by how the other one starts. -/
theorem endsBefore_chars_iff {a b : Lexeme} (hb : b.WellFormed) (text : List Char) :
    a.EndsBefore (b.chars ++ text) ↔ a.runsInto b = false := by
  obtain ⟨first, more, hchars⟩ := List.exists_cons_of_ne_nil (chars_ne_nil hb)
  cases a with
  | bang => simp [EndsBefore, runsInto]
  | group interior => simp [EndsBefore, runsInto]
  | bare name =>
    cases b with
    | bang => simp [EndsBefore, runsInto, chars]; decide
    | group interior => simp [EndsBefore, runsInto, chars]; decide
    | marked sigil word => simp [EndsBefore, runsInto, chars, sigil.isIdentifierPart_symbol]
    | bare word =>
      have hfirst := ((Text.isIdentifier_iff _).1 hb).2 first (by simp_all [chars])
      simp [EndsBefore, runsInto, hchars, hfirst]
  | marked mark name =>
    cases b with
    | bang => simp [EndsBefore, runsInto, chars]; decide
    | group interior => simp [EndsBefore, runsInto, chars]; decide
    | marked sigil word =>
      have hsymbol : Text.isWordPart sigil.symbol = false := by cases sigil <;> decide
      simp [EndsBefore, runsInto, chars, hsymbol]
    | bare word =>
      have hword : word.toList = first :: more := hchars
      simp [EndsBefore, runsInto, chars, hword]

end Lexeme

/-- A lexeme with the gap in front of it. -/
structure Piece where
  gap : List Char
  lexeme : Lexeme

namespace Piece

def written (trail : List Char) : List Piece → List Char
  | [] => trail
  | piece :: rest => piece.gap ++ (piece.lexeme.chars ++ written trail rest)

/-- The tokens of pieces that start at an offset. -/
def placed (offset : Nat) : List Piece → List Token
  | [] => []
  | piece :: rest =>
    let start := offset + Text.unitLength piece.gap
    ⟨piece.lexeme, start⟩ :: placed (start + Text.unitLength piece.lexeme.chars) rest

@[simp] theorem lexeme_placed (offset : Nat) (pieces : List Piece) :
    (placed offset pieces).map Token.lexeme = pieces.map Piece.lexeme := by
  induction pieces generalizing offset with
  | nil => rfl
  | cons piece rest ih => simp [placed, ih]

/-- Names are complete, gaps are gaps, and there is one in front of each piece that the piece before
it would go on with. -/
structure Legal (trail : List Char) (pieces : List Piece) : Prop where
  wellFormed : ∀ piece ∈ pieces, piece.lexeme.WellFormed
  gaps : ∀ piece ∈ pieces, ∀ c ∈ piece.gap, isGap c = true
  apart : pieces.IsChain fun a b => a.lexeme.runsInto b.lexeme = true → b.gap ≠ []
  trailing : ∀ c ∈ trail, isGap c = true

namespace Legal

variable {trail : List Char} {piece : Piece} {rest : List Piece} {c : Char}

theorem tail (h : Legal trail (piece :: rest)) : Legal trail rest where
  wellFormed := (List.forall_mem_cons.1 h.wellFormed).2
  gaps := (List.forall_mem_cons.1 h.gaps).2
  apart := h.apart.tail
  trailing := h.trailing

/-- Behind a piece there is nothing that its lexeme would go on with. -/
theorem endsBefore (h : Legal trail (piece :: rest)) :
    piece.lexeme.EndsBefore (written trail rest) := by
  cases rest with
  | nil => exact piece.lexeme.endsBefore_of_gap fun c hc => h.trailing c (List.mem_of_mem_head? hc)
  | cons next more =>
    cases hgap : next.gap with
    | nil =>
      have hnext := h.wellFormed next (by simp)
      have hapart := (List.isChain_cons_cons.1 h.apart).1
      rw [written, hgap, List.nil_append, Lexeme.endsBefore_chars_iff hnext]
      simpa [hgap] using hapart
    | cons c gap =>
      apply piece.lexeme.endsBefore_of_gap
      intro d hd
      obtain rfl : c = d := by simpa [written, hgap] using hd
      exact h.gaps next (by simp) c (by simp [hgap])

theorem spells {pieces : List Piece} (h : Legal trail pieces) (offset : Nat) :
    Token.Spells offset (written trail pieces) (placed offset pieces) := by
  induction pieces generalizing offset with
  | nil =>
    have hgaps := Token.Spells.gaps h.trailing (.nil (offset + trail.length))
    simpa [written, placed] using hgaps
  | cons piece rest ih =>
    have hgap := h.gaps piece (by simp)
    rw [written, placed, unitLength_of_gaps hgap]
    apply Token.Spells.gaps hgap
    exact .token (h.wellFormed piece (by simp)) h.endsBefore (ih h.tail _)

theorem cons_trail (h : Legal trail []) (hc : isGap c = true) : Legal (c :: trail) [] where
  wellFormed := h.wellFormed
  gaps := h.gaps
  apart := .nil
  trailing := List.forall_mem_cons.2 ⟨hc, h.trailing⟩

theorem cons_gap (h : Legal trail (piece :: rest)) (hc : isGap c = true) :
    Legal trail (⟨c :: piece.gap, piece.lexeme⟩ :: rest) where
  wellFormed := by simpa using h.wellFormed
  gaps := by simpa [hc] using h.gaps
  apart := by
    cases rest with
    | nil => exact .singleton _
    | cons next more => simpa [List.isChain_cons_cons] using h.apart
  trailing := h.trailing

theorem cons_lexeme {pieces : List Piece} (h : Legal trail pieces) {lexeme : Lexeme}
    (hw : lexeme.WellFormed) (he : lexeme.EndsBefore (written trail pieces)) :
    Legal trail (⟨[], lexeme⟩ :: pieces) where
  wellFormed := List.forall_mem_cons.2 ⟨hw, h.wellFormed⟩
  gaps := List.forall_mem_cons.2 ⟨by simp, h.gaps⟩
  apart := by
    cases pieces with
    | nil => exact .singleton _
    | cons next more =>
      refine List.isChain_cons_cons.2 ⟨fun hruns hgap => ?_, h.apart⟩
      rw [written, hgap, List.nil_append,
        Lexeme.endsBefore_chars_iff (h.wellFormed next (by simp))] at he
      simp [he] at hruns
  trailing := h.trailing

end Legal

/-- What spells tokens is written by pieces. -/
theorem exists_legal_of_spells {offset : Nat} {text : List Char} {found : List Token}
    (h : Token.Spells offset text found) :
    ∃ trail pieces, Legal trail pieces ∧ written trail pieces = text ∧
      placed offset pieces = found := by
  induction h with
  | nil offset => exact ⟨[], [], ⟨by simp, by simp, .nil, by simp⟩, rfl, rfl⟩
  | @gap offset c text found hc tail ih =>
    obtain ⟨trail, pieces, hlegal, rfl, rfl⟩ := ih
    cases pieces with
    | nil => exact ⟨c :: trail, [], hlegal.cons_trail hc, rfl, rfl⟩
    | cons piece rest =>
      refine ⟨trail, _, hlegal.cons_gap hc, rfl, ?_⟩
      simp [placed, width_of_isGap hc, Nat.add_assoc]
  | @token offset lexeme text found hw he tail ih =>
    obtain ⟨trail, pieces, hlegal, rfl, rfl⟩ := ih
    exact ⟨trail, _, hlegal.cons_lexeme hw he, rfl, rfl⟩

end Piece

/-- Lexemes that can be told apart by the gaps between them, and a gap behind the last one. -/
structure Rendering where
  pieces : List Piece
  trail : List Char
  legal : Piece.Legal trail pieces

namespace Rendering

def text (r : Rendering) : List Char := Piece.written r.trail r.pieces

def tokens (r : Rendering) : List Token := Piece.placed 0 r.pieces

end Rendering

/-- Each token is a part of the text at its offset, no two tokens overlap, and what is in no token
is a gap. The text itself starts at the given offset. -/
structure Token.Covers (start : Nat) (text : List Char) (found : List Token) : Prop where
  slice : ∀ t ∈ found, ∃ front behind, text = front ++ (t.lexeme.chars ++ behind) ∧
    t.offset = start + Text.unitLength front
  ordered : found.Pairwise fun a b => a.offset + a.width ≤ b.offset
  outside : ∀ front c behind, text = front ++ c :: behind →
    (∀ t ∈ found, start + Text.unitLength front < t.offset ∨
      t.offset + t.width ≤ start + Text.unitLength front) → isGap c = true

namespace Token

variable {start : Nat} {text : List Char} {found : List Token}

theorem covers_nil (start : Nat) : Covers start [] [] where
  slice := by simp
  ordered := .nil
  outside := by simp

theorem Covers.gap (h : Covers (start + 1) text found) {c : Char} (hc : isGap c = true) :
    Covers start (c :: text) found where
  slice t ht := by
    obtain ⟨front, behind, rfl, hoffset⟩ := h.slice t ht
    refine ⟨c :: front, behind, rfl, ?_⟩
    simp only [Text.unitLength_cons, width_of_isGap hc]
    omega
  ordered := h.ordered
  outside front d behind htext hnone := by
    cases front with
    | nil =>
      obtain ⟨rfl, -⟩ := List.cons.inj htext
      exact hc
    | cons first front =>
      obtain ⟨rfl, htail⟩ := List.cons.inj htext
      apply h.outside front d behind htail
      intro t ht
      have hplace := hnone t ht
      simp only [Text.unitLength_cons, width_of_isGap hc] at hplace
      omega

theorem Covers.token {lexeme : Lexeme}
    (h : Covers (start + Text.unitLength lexeme.chars) text found) :
    Covers start (lexeme.chars ++ text) (⟨lexeme, start⟩ :: found) where
  slice t ht := by
    rcases List.mem_cons.1 ht with rfl | ht
    · exact ⟨[], text, rfl, rfl⟩
    · obtain ⟨front, behind, rfl, hoffset⟩ := h.slice t ht
      refine ⟨lexeme.chars ++ front, behind, by simp, ?_⟩
      simp only [Text.unitLength_append]
      omega
  ordered := by
    refine List.pairwise_cons.2 ⟨fun t ht => ?_, h.ordered⟩
    obtain ⟨front, behind, -, hoffset⟩ := h.slice t ht
    simp only [width]
    omega
  outside front c behind htext hnone := by
    obtain ⟨hfirst, hrest⟩ := List.forall_mem_cons.1 hnone
    simp only [width] at hfirst
    -- The character is not in the first token, so it stands behind it.
    rcases List.append_eq_append_iff.1 htext with ⟨front', rfl, htail⟩ | ⟨inner, hchars, hinner⟩
    · apply h.outside front' c behind htail
      intro t ht
      have hplace := hrest t ht
      simp only [Text.unitLength_append] at hplace
      omega
    · cases inner with
      | nil =>
        apply h.outside [] c behind (by simpa using hinner.symm)
        intro t ht
        have hplace := hrest t ht
        rw [hchars]
        simpa using hplace
      | cons d inner =>
        have hwidth := Text.width_pos d
        rw [hchars] at hfirst
        simp only [Text.unitLength_append, Text.unitLength_cons] at hfirst
        omega

theorem Spells.covers (h : Spells start text found) : Covers start text found := by
  induction h with
  | nil start => exact covers_nil start
  | gap hc tail ih => exact ih.gap hc
  | token hw he tail ih => exact ih.token

end Token

theorem tokens_eq_ok_iff {fragment : String} {found : List Token} :
    tokens fragment = .ok found ↔ Token.Spells 0 fragment.toList found := by
  rw [← Token.scan_eq_ok_iff, tokens]
  cases Token.scan 0 fragment.toList <;> simp

theorem tokens_eq_ok_iff_rendering {fragment : String} {found : List Token} :
    tokens fragment = .ok found ↔ ∃ r : Rendering, r.text = fragment.toList ∧ r.tokens = found := by
  rw [tokens_eq_ok_iff]
  constructor
  · intro h
    obtain ⟨trail, pieces, hlegal, htext, hfound⟩ := Piece.exists_legal_of_spells h
    exact ⟨⟨pieces, trail, hlegal⟩, htext, hfound⟩
  · rintro ⟨r, htext, rfl⟩
    rw [← htext]
    exact r.legal.spells 0

theorem malformed_of_tokens_eq_error {fragment : String} {e : QueryError}
    (h : tokens fragment = .error e) :
    ∃ remainder fault, e = ⟨fragment, .malformed remainder fault⟩ := by
  unfold tokens at h
  split at h
  · cases h
  · next fault hscan =>
    obtain ⟨-, wrong, -, c, rest, -, -, -, -, -, -, rfl⟩ := Token.spots_of_scan_error hscan
    cases h
    exact ⟨_, _, rfl⟩

/-- Scanning undoes rendering, and what it finds is a rendering of the whole text. On all other
texts it stops with a syntax error. -/
theorem tokens_rendering :
    (∀ r : Rendering, tokens (String.ofList r.text) = .ok r.tokens) ∧
      ∀ fragment : String,
        (∀ found, tokens fragment = .ok found → Token.Covers 0 fragment.toList found ∧
          ∃ r : Rendering, r.text = fragment.toList ∧ r.tokens = found) ∧
        ((∀ r : Rendering, r.text ≠ fragment.toList) →
          ∃ remainder fault, tokens fragment = .error ⟨fragment, .malformed remainder fault⟩) := by
  refine ⟨fun r => ?_, fun fragment => ⟨fun found h => ⟨?_, ?_⟩, fun hnone => ?_⟩⟩
  · exact tokens_eq_ok_iff_rendering.2 ⟨r, by simp, rfl⟩
  · exact (tokens_eq_ok_iff.1 h).covers
  · exact tokens_eq_ok_iff_rendering.1 h
  · cases h : tokens fragment with
    | ok found =>
      obtain ⟨r, htext, -⟩ := tokens_eq_ok_iff_rendering.1 h
      exact absurd htext (hnone r)
    | error e =>
      obtain ⟨remainder, fault, rfl⟩ := malformed_of_tokens_eq_error h
      exact ⟨remainder, fault, rfl⟩

/-- A colon ends the name of a tag, so a block may stand next to it. Inside a group an opening
bracket is a character like others, and one outside the first plane counts twice. -/
def tight : Rendering where
  pieces := [⟨[' '], .marked .typeTag "a"⟩, ⟨[], .bare ":b"⟩, ⟨['\t'], .bare "c"⟩, ⟨[], .bang⟩,
    ⟨['\r', '\n'], .group "😀 [,"⟩, ⟨[], .marked .reference "d"⟩]
  trail := [' ']
  legal :=
    { wellFormed := by simp [Lexeme.WellFormed]; decide
      gaps := by simp [isGap]
      apart := by decide
      trailing := by simp [isGap] }

theorem tokens_rendering_tight :
    tokens " %a:b\tc!\r\n[😀 [,]@d " = .ok tight.tokens ∧
      tight.tokens.map Token.offset = [1, 3, 6, 7, 10, 17] ∧
      Token.Covers 0 " %a:b\tc!\r\n[😀 [,]@d ".toList tight.tokens ∧
      (∀ r : Rendering, r.text ≠ "a #".toList) ∧
      ∃ remainder fault, tokens "a #" = .error ⟨"a #", .malformed remainder fault⟩ := by
  have htext : String.ofList tight.text = " %a:b\tc!\r\n[😀 [,]@d " := by decide +kernel
  have hscan := tokens_rendering.1 tight
  rw [htext] at hscan
  have hcovers := ((tokens_rendering.2 _).1 _ hscan).1
  have hstray : ∀ r : Rendering, r.text ≠ "a #".toList := by
    intro r hr
    have hr' := tokens_rendering.1 r
    rw [hr] at hr'
    have herror : (tokens (String.ofList "a #".toList)).toOption = none := by decide +kernel
    rw [hr'] at herror
    cases herror
  exact ⟨hscan, by decide +kernel, hcovers, hstray, (tokens_rendering.2 "a #").2 hstray⟩

end VoxelQuery
