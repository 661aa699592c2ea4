/-!
# The generalized Hilbert curve

A generalized Hilbert curve visits the cells of a rectangle of any size so that consecutive cells
are neighbours. `Hilbert.cell` gives the cell that has a given index on the curve.

The curve is described by frames. A `Frame` is a rectangle still to be walked: its first cell, a
unit step and a number of cells along the major axis, and the same across it. A long frame is walked
in two halves one behind the other; every other frame in three parts, up, along and down. Part sizes
are made even where that is possible, which keeps the end of one part next to the start of the
following one. Each part is shorter than its frame in the sum of both sides (`Frame.evenHalf_lt`),
so the descent ends in a frame with a side of one cell, which is a straight line.

The index is not limited to the rectangle: on the last straight line it may run past either end.
-/

namespace LoopNest.Curve

/-- A cell of the plane, or a step between cells. -/
structure Point where
  x : Int
  y : Int
  deriving DecidableEq

namespace Point

/-- The point `count` steps away. -/
def move (p : Point) (step : Point) (count : Int) : Point :=
  ⟨p.x + step.x * count, p.y + step.y * count⟩

/-- The opposite step. -/
def opposite (p : Point) : Point := ⟨-p.x, -p.y⟩

end Point

/-- A cell of space. -/
structure Cell where
  x : Int
  y : Int
  z : Int
  deriving DecidableEq

/-- A rectangle to be walked from `origin`: `length` cells in direction `along` and `width` cells in
direction `across`. -/
structure Frame where
  origin : Point
  along : Point
  length : Nat
  across : Point
  width : Nat

namespace Frame

/-- Half of `n` cells in a direction: rounded down in a positive direction, up in a negative one, so
that the cut lies at the same place for both. -/
def half (direction : Point) (n : Nat) : Nat :=
  if direction.x + direction.y < 0 then (n + 1) / 2 else n / 2

/-- Half of `n` cells, made even if there are more than two. -/
def evenHalf (direction : Point) (n : Nat) : Nat :=
  if half direction n % 2 = 1 ∧ 2 < n then half direction n + 1 else half direction n

theorem half_le (direction : Point) (n : Nat) : half direction n ≤ n := by
  unfold half
  split <;> omega

theorem evenHalf_pos (direction : Point) {n : Nat} (hn : 2 ≤ n) : 0 < evenHalf direction n := by
  unfold evenHalf half
  split <;> split <;> omega

theorem evenHalf_lt (direction : Point) {n : Nat} (hn : 2 ≤ n) : evenHalf direction n < n := by
  unfold evenHalf half
  split at * <;> split at * <;> omega

/-- The cell at index `i` of the walk through a frame. A frame without cells is walked in its
origin. -/
def cell (f : Frame) (i : Int) : Point :=
  if f.width = 1 then f.origin.move f.along i
  else if f.length = 1 then f.origin.move f.across i
  else if f.length = 0 ∧ f.width = 0 then f.origin
  else if 3 * f.width < 2 * f.length then
    let a := evenHalf f.along f.length
    let first : Int := a * f.width
    if i < first then cell ⟨f.origin, f.along, a, f.across, f.width⟩ i
    else
      cell ⟨f.origin.move f.along a, f.along, f.length - a, f.across, f.width⟩ (i - first)
  else
    let b := evenHalf f.across f.width
    let a := half f.along f.length
    let up : Int := b * a
    let middle : Int := f.length * (f.width - b : Nat)
    if i < up then cell ⟨f.origin, f.across, b, f.along, a⟩ i
    else if i - up < middle then
      cell ⟨f.origin.move f.across b, f.along, f.length, f.across, f.width - b⟩ (i - up)
    else
      cell ⟨(f.origin.move f.along (f.length - 1)).move f.across (b - 1),
        f.across.opposite, b, f.along.opposite, f.length - a⟩ (i - up - middle)
termination_by f.length + f.width
decreasing_by
  all_goals have hHalf := half_le f.along f.length
  · have := evenHalf_lt f.along (n := f.length) (by omega)
    omega
  · have := evenHalf_pos f.along (n := f.length) (by omega)
    omega
  · have := evenHalf_lt f.across (n := f.width) (by omega)
    omega
  · have := evenHalf_pos f.across (n := f.width) (by omega)
    omega
  · have := evenHalf_lt f.across (n := f.width) (by omega)
    omega

end Frame

namespace Hilbert

/-- The cell at index `i` of the curve on `w * h` cells. The curve starts in the corner at zero and
takes as its major axis the longer side on which the parities of `w` and `h` allow it to end without
a diagonal step. -/
def cell2 (i w h : Int) : Point :=
  let horizontal : Point := ⟨w.sign, 0⟩
  let vertical : Point := ⟨0, h.sign⟩
  let horizontalFits := w.tmod 2 = 0 ∨ h.tmod 2 = 1
  let verticalFits := w.tmod 2 = 1 ∨ h.tmod 2 = 0
  if (h ≤ w ∧ horizontalFits) ∨ ¬ verticalFits then
    Frame.cell ⟨⟨0, 0⟩, horizontal, w.natAbs, vertical, h.natAbs⟩ i
  else
    Frame.cell ⟨⟨0, 0⟩, vertical, h.natAbs, horizontal, w.natAbs⟩ i

/-- The cell at index `i` of the curve on `w * h * d` cells: the plane of `w * h` cells is one axis
of a second curve, whose other axis is the depth. -/
def cell (i w h d : Int) : Cell :=
  if d = 1 then
    let p := cell2 i w h
    ⟨p.x, p.y, 0⟩
  else
    let q := cell2 i (w * h) d
    let p := cell2 q.x w h
    ⟨p.x, p.y, q.y⟩

end Hilbert

end LoopNest.Curve
