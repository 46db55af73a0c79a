import VoxelQuery.Proofs.Query.Segments
import VoxelQuery.Query.Compile

/-! Segments as texts of their own. Between its cuts a text has no comma at depth zero, so a segment
is not cut again, and it compiles like the text that consists of it alone. -/
namespace VoxelQuery

/-- No comma of the text stands at depth zero, if the text starts at the given depth. -/
def Uncut (depth : Nat) (text : List Char) : Prop := cutSegments depth text = [text]

section Cuts

variable {depth : Nat} {c : Char} {text : List Char}

theorem uncut_cons_iff :
    Uncut depth (c :: text) ↔ ¬(c = ',' ∧ depth = 0) ∧ Uncut (depthAfter depth c) text := by
  rw [Uncut, Uncut, cutSegments]
  split
  · next hcut => simp [hcut]
  · next hcut =>
    obtain ⟨first, rest, hpieces⟩ :=
      List.exists_cons_of_ne_nil (cutSegments_ne_nil (depthAfter depth c) text)
    rw [hpieces]
    simp [hcut, Text.extendFirst]

theorem Uncut.of_append {front behind : List Char} (h : Uncut depth (front ++ behind)) :
    Uncut depth front := by
  induction front generalizing depth with
  | nil => rfl
  | cons c rest ih =>
    obtain ⟨hcomma, hrest⟩ := uncut_cons_iff.1 h
    exact uncut_cons_iff.2 ⟨hcomma, ih hrest⟩

theorem Uncut.of_unmarked_append {front behind : List Char} (hfront : ∀ c ∈ front, isMark c = false)
    (h : Uncut depth (front ++ behind)) : Uncut depth behind := by
  induction front with
  | nil => exact h
  | cons c rest ih =>
    obtain ⟨hc, hrest⟩ := List.forall_mem_cons.1 hfront
    have htail := (uncut_cons_iff.1 h).2
    rw [depthAfter_of_unmarked hc] at htail
    exact ih hrest htail

/-- Blanks are no brackets, so the depth is the same without them. -/
theorem Uncut.trimChars (h : Uncut depth text) : Uncut depth (Text.trimChars text) := by
  obtain ⟨lead, trail, hlead, -, htext⟩ := Text.exists_blanks_append_trimChars text
  rw [htext] at h
  exact (h.of_unmarked_append fun c hc => isMark_of_isBlank (hlead c hc)).of_append

/-- The first piece goes on at the depth that the text starts at, and each later one starts anew. -/
theorem uncut_of_cutSegments {first : List Char} {rest : List (List Char)}
    (h : cutSegments depth text = first :: rest) :
    Uncut depth first ∧ ∀ piece ∈ rest, Uncut 0 piece := by
  induction text generalizing depth first rest with
  | nil =>
    cases h
    exact ⟨rfl, by simp⟩
  | cons c more ih =>
    rw [cutSegments] at h
    split at h
    · cases h
      obtain ⟨second, later, hpieces⟩ := List.exists_cons_of_ne_nil (cutSegments_ne_nil 0 more)
      obtain ⟨hsecond, hlater⟩ := ih hpieces
      rw [hpieces]
      exact ⟨rfl, List.forall_mem_cons.2 ⟨hsecond, hlater⟩⟩
    · next hcut =>
      obtain ⟨piece, later, hpieces⟩ :=
        List.exists_cons_of_ne_nil (cutSegments_ne_nil (depthAfter depth c) more)
      obtain ⟨hpiece, hlater⟩ := ih hpieces
      rw [hpieces] at h
      cases h
      exact ⟨uncut_cons_iff.2 ⟨hcut, hpiece⟩, hlater⟩

theorem uncut_of_mem {piece : List Char} (h : piece ∈ cutSegments 0 text) : Uncut 0 piece := by
  obtain ⟨first, rest, hpieces⟩ := List.exists_cons_of_ne_nil (cutSegments_ne_nil 0 text)
  rw [hpieces] at h
  obtain ⟨hfirst, hrest⟩ := uncut_of_cutSegments hpieces
  exact List.forall_mem_cons.2 ⟨hfirst, hrest⟩ piece h

end Cuts

/-- A segment is its own only segment. -/
theorem segments_of_mem {text segment : String} (h : segment ∈ segments text) :
    segments segment = [segment] := by
  obtain ⟨piece, hpiece, rfl⟩ := List.mem_map.1 h
  obtain ⟨raw, hraw, rfl⟩ := List.mem_map.1 (mem_of_mem_dropTrailingEmpty hpiece)
  have hcuts : cutSegments 0 (Text.trimChars raw) = [Text.trimChars raw] :=
    (uncut_of_mem hraw).trimChars
  rw [segments, segmentChars, String.toList_ofList, hcuts, List.map_singleton,
    Text.trimChars_trimChars]
  rfl

theorem Environment.exists_compile_segment_iff {env : Environment} {text segment : String}
    (h : segment ∈ segments text) :
    (∃ p, env.compile segment = .ok p) ↔ ∃ p, env.segmentPredicate segment = .ok p := by
  rw [compile, segments_of_mem h, List.mapM_cons, List.mapM_nil]
  cases env.segmentPredicate segment with
  | ok p => exact ⟨fun _ => ⟨p, rfl⟩, fun _ => ⟨_, rfl⟩⟩
  | error e => simp [bind, Except.bind, Except.map]

end VoxelQuery
