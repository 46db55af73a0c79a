/-! Cutting a text at a separator. The pieces keep everything between the separators, also the empty
text, so there is always at least one. -/
namespace VoxelQuery.Text

/-- Put a character in front of the first piece. -/
def extendFirst (c : Char) : List (List Char) → List (List Char)
  | [] => [[c]]
  | piece :: rest => (c :: piece) :: rest

def pieces (separator : Char) : List Char → List (List Char)
  | [] => [[]]
  | c :: rest =>
    if c = separator then [] :: pieces separator rest
    else extendFirst c (pieces separator rest)

/-- The pieces with the separator written between them. -/
def joinWith (separator : Char) : List (List Char) → List Char
  | [] => []
  | [piece] => piece
  | piece :: rest => piece ++ separator :: joinWith separator rest

theorem extendFirst_ne_nil (c : Char) (l : List (List Char)) : extendFirst c l ≠ [] := by
  cases l <;> simp [extendFirst]

theorem pieces_ne_nil (separator : Char) (text : List Char) : pieces separator text ≠ [] := by
  cases text with
  | nil => simp [pieces]
  | cons c rest => rw [pieces]; split <;> simp [extendFirst_ne_nil]

theorem joinWith_extendFirst (separator c : Char) (l : List (List Char)) (h : l ≠ []) :
    joinWith separator (extendFirst c l) = c :: joinWith separator l := by
  match l, h with
  | [_], _ => rfl
  | _ :: _ :: _, _ => rfl

/-- Nothing is lost by cutting. -/
@[simp] theorem joinWith_pieces (separator : Char) (text : List Char) :
    joinWith separator (pieces separator text) = text := by
  induction text with
  | nil => rfl
  | cons c rest ih =>
    rw [pieces]
    split
    · rename_i h
      match hp : pieces separator rest, pieces_ne_nil separator rest with
      | piece :: more, _ => rw [hp] at ih; simp [joinWith, ih, h]
    · rw [joinWith_extendFirst _ _ _ (pieces_ne_nil _ _), ih]

/-- No piece holds a separator. -/
theorem separator_notMem_of_mem_pieces (separator : Char) (text : List Char) :
    ∀ piece ∈ pieces separator text, separator ∉ piece := by
  induction text with
  | nil => simp [pieces]
  | cons c rest ih =>
    rw [pieces]
    split
    · simpa using ih
    · rename_i h
      match hp : pieces separator rest, pieces_ne_nil separator rest with
      | piece :: more, _ =>
        rw [hp] at ih
        intro p hm
        rcases List.mem_cons.1 hm with rfl | hm
        · have := ih piece (by simp)
          simp [this, Ne.symm h]
        · exact ih p (by simp [hm])

end VoxelQuery.Text
