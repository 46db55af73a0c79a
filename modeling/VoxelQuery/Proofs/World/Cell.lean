import Mathlib.Order.Nat
import VoxelQuery.Number.Integer
import VoxelQuery.World.Scene

/-! Cells of the grid. Coordinates that are kept exactly tell cells apart, and then the positions
next to a cell are those of the cells next to it. -/
namespace VoxelQuery

/-- A cell of the grid, or a way from one cell to another. -/
structure Cell where
  x : Int
  y : Int
  z : Int
  deriving DecidableEq

namespace Cell

def position (c : Cell) : Position := .ofInts c.x c.y c.z

def add (c d : Cell) : Cell := ⟨c.x + d.x, c.y + d.y, c.z + d.z⟩

instance : Add Cell := ⟨add⟩

/-- The coordinates are among the integers that numbers tell apart. -/
def Kept (c : Cell) : Prop :=
  c.x.natAbs ≤ exactLimit ∧ c.y.natAbs ≤ exactLimit ∧ c.z.natAbs ≤ exactLimit

/-- The coordinates are kept, and those of all cells next to it as well. -/
def Exact (c : Cell) : Prop :=
  c.x.natAbs < exactLimit ∧ c.y.natAbs < exactLimit ∧ c.z.natAbs < exactLimit

instance (c : Cell) : Decidable c.Exact := inferInstanceAs (Decidable (_ ∧ _ ∧ _))

variable {c other d : Cell}

@[simp] theorem x_add (c d : Cell) : (c + d).x = c.x + d.x := rfl

@[simp] theorem y_add (c d : Cell) : (c + d).y = c.y + d.y := rfl

@[simp] theorem z_add (c d : Cell) : (c + d).z = c.z + d.z := rfl

theorem add_right_comm (c o d : Cell) : c + o + d = c + d + o := by
  have hx : c.x + o.x + d.x = c.x + d.x + o.x := Int.add_right_comm _ _ _
  have hy : c.y + o.y + d.y = c.y + d.y + o.y := Int.add_right_comm _ _ _
  have hz : c.z + o.z + d.z = c.z + d.z + o.z := Int.add_right_comm _ _ _
  show Cell.mk _ _ _ = Cell.mk _ _ _
  simp only [x_add, y_add, z_add, hx, hy, hz]

theorem add_right_inj : c + d = other + d ↔ c = other := by
  cases c
  cases other
  show Cell.mk _ _ _ = Cell.mk _ _ _ ↔ _
  simp

theorem Exact.kept (h : c.Exact) : c.Kept := ⟨h.1.le, h.2.1.le, h.2.2.le⟩

/-- Kept cells are told apart by their positions. -/
theorem position_inj (hc : c.Kept) (hother : other.Kept) :
    c.position = other.position ↔ c = other := by
  obtain ⟨hx, hy, hz⟩ := hc
  obtain ⟨hx', hy', hz'⟩ := hother
  cases c
  cases other
  simp only [position, Position.ofInts, Position.mk.injEq, Cell.mk.injEq, Number.ofInt_inj hx hx',
    Number.ofInt_inj hy hy', Number.ofInt_inj hz hz']

/-- The way to a cell that is next to another one. -/
def Near (o : Cell) : Prop := o.x.natAbs ≤ 1 ∧ o.y.natAbs ≤ 1 ∧ o.z.natAbs ≤ 1

theorem Exact.kept_add (h : c.Exact) {o : Cell} (ho : o.Near) : (c + o).Kept := by
  obtain ⟨hx, hy, hz⟩ := h
  obtain ⟨hox, hoy, hoz⟩ := ho
  simp only [Kept, x_add, y_add, z_add]
  omega

/-- The ways to the horizontal neighbours, in the order in which they are looked at. -/
def sideways : List Cell := [⟨-1, 0, 0⟩, ⟨1, 0, 0⟩, ⟨0, 0, -1⟩, ⟨0, 0, 1⟩]

def upwards : Cell := ⟨0, 1, 0⟩

theorem near_of_mem_sideways {o : Cell} (h : o ∈ sideways) : o.Near := by
  simp only [sideways, List.mem_cons, List.not_mem_nil, or_false] at h
  rcases h with rfl | rfl | rfl | rfl <;> simp [Near]

theorem near_upwards : upwards.Near := by simp [Near, upwards]

theorem ofInt_add_step {i step : Int} (hi : i.natAbs < exactLimit) (hstep : step.natAbs ≤ 1) :
    Number.ofInt i + .ofInt step = .ofInt (i + step) :=
  Number.ofInt_add_ofInt hi.le (hstep.trans (by decide))

theorem neighbours_position (h : c.Exact) :
    c.position.neighbours = sideways.map fun o => (c + o).position := by
  obtain ⟨hx, hy, hz⟩ := h
  simp only [sideways, List.map_cons, List.map_nil, position, Position.ofInts, Position.neighbours,
    Position.west, Position.east, Position.north, Position.south, x_add, y_add, z_add,
    Int.add_zero]
  rw [ofInt_add_step hx (by decide), ofInt_add_step hx (by decide), ofInt_add_step hz (by decide),
    ofInt_add_step hz (by decide)]

theorem above_position (h : c.Exact) : c.position.above = (c + upwards).position := by
  simp only [position, Position.ofInts, Position.above, upwards, x_add, y_add, z_add, Int.add_zero]
  rw [ofInt_add_step h.2.1 (by decide)]

end Cell

end VoxelQuery
