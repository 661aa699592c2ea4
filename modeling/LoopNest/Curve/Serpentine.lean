import LoopNest.Curve.Hilbert
import LoopNest.Error

/-!
# The serpentine curve

The serpentine curve walks a box row by row and layer by layer, every second row and every second
layer backwards. Consecutive cells differ by one in exactly one coordinate, whatever the sides of
the box are.

`Serpentine.cell` is the walk itself. `Serpentine.checkedCell` refuses a layer without cells and an
index past the last layer.
-/

namespace LoopNest.Curve.Serpentine

/-- The cell at index `i` of the walk through layers of `w * h` cells. -/
def cell (i w h : Int) : Cell :=
  let plane := w * h
  let z := i.tdiv plane
  let rest := i.tmod plane
  let rest := if z.tmod 2 = 1 then plane - 1 - rest else rest
  let y := rest.tdiv w
  let x := rest.tmod w
  let x := if y.tmod 2 = 1 then w - 1 - x else x
  ⟨x, y, z⟩

/-- The cell at index `i` of the walk through a box of `w * h * d` cells. -/
def checkedCell (i w h d : Int) : Except Error Cell :=
  if w * h = 0 then .error (.undefined .nonzeroDivisor)
  else
    let cell := cell i w h
    if cell.z < d then .ok cell else .error (.undefined .depthInBox)

end LoopNest.Curve.Serpentine
