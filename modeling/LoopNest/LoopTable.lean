import LoopNest.Loop

/-!
# Loop tables

A loop list may be given attribute by attribute, one column for each attribute of a loop. All
columns have as many entries as there are axes; the columns of source strides may be left empty,
which means that nothing is packed.
-/

namespace LoopNest

/-- The attributes of a list of loops, column by column. -/
structure LoopTable where
  axes : List Axis
  modes : List Mode
  sizes : List Int
  left : List Int
  right : List Int
  outAux : List Int
  out : List Int
  sourceLeft : List Int
  sourceRight : List Int

namespace LoopTable

/-- Refuses a column whose length is not the number of loops. -/
def checkColumn (table : LoopTable) (column : LoopColumn) (length : Nat) (optional : Bool) :
    Except Error Unit :=
  if length = table.axes.length || (optional && length = 0) then .ok ()
  else .error (.lengthMismatch column table.axes.length length)

/-- Refuses the first column whose length is not the number of loops. -/
def check (table : LoopTable) : Except Error Unit := do
  table.checkColumn .modes table.modes.length false
  table.checkColumn .sizes table.sizes.length false
  table.checkColumn .left table.left.length false
  table.checkColumn .right table.right.length false
  table.checkColumn .outAux table.outAux.length false
  table.checkColumn .out table.out.length false
  table.checkColumn .sourceLeft table.sourceLeft.length true
  table.checkColumn .sourceRight table.sourceRight.length true

/-- The loop at an index. -/
def row (table : LoopTable) (index : Nat) : Loop :=
  { axis := table.axes.getD index .undefined
    mode := table.modes.getD index .seq
    size := table.sizes.getD index 1
    strides := {
      left := table.left.getD index 0
      right := table.right.getD index 0
      outAux := table.outAux.getD index 0
      out := table.out.getD index 0 }
    sourceLeft := table.sourceLeft.getD index 0
    sourceRight := table.sourceRight.getD index 0 }

/-- The loops of a table. -/
def toLoops (table : LoopTable) : Except Error (List Loop) := do
  table.check
  return (List.range table.axes.length).map table.row

end LoopTable

end LoopNest
