import LoopNest.Guarded
import LoopNest.Parallel.Share

/-!
# Movement along the parallel loops

The offset of a task is the sum of digit times stride over the loops of its axis, the digits taken
in mixed radix with the loop sizes (`mixedOffset`). A thread does not compute offsets task by task:
two consecutive tasks differ by one step on one axis, and the step is a single addition.

A step is stored as one byte, `2 * loop + direction`. The loop is the outermost one whose digit
changes, the direction is 0 forward and 1 backward. The strides of the SFC loops are replaced by
step offsets (`Layout.stepTable`): the stride of the loop less the way back that the inner loops
have made.

`Layout.setupInPlace` gives the work of every thread and leaves the table of step offsets in place of
the strides; `Layout.setup` is its use on a table of its own.
-/

namespace LoopNest

/-- The strides of each loop of a loop list. -/
abbrev StrideTable := List (Operands Int)

/-- The strides of the loops of a list. -/
def strideTable (loops : List Loop) : StrideTable := loops.map Loop.strides

/-- What a thread has to do: where it starts, its flat interval, its box, and the steps of its walk
through the box. The last step is padding. -/
structure Work where
  offset : Operands Int
  omp : Interval
  beginM : Int
  beginN : Int
  sizeM : Int
  sizeN : Int
  sizeK : Int
  moves : List Nat
  deriving DecidableEq

/-- Number of kernel-level tasks of one pass over a flat interval and a walk of `moves` steps. -/
def taskCount (omp : Interval) (moves : Nat) : Nat := omp.length.toNat * max moves 1

/-- The offset of number `id` in mixed radix, the sum of digit times stride over loops given
innermost first as size and stride. -/
def mixedOffset : List (Int × Operands Int) → Int → Operands Int
  | [], _ => 0
  | (size, stride) :: outer, id => stride.scale (id.tmod size) + mixedOffset outer (id.tdiv size)

namespace Layout

/-- The size of a loop. -/
def sizeOf (layout : Layout) (index : Nat) : Except Error Int :=
  (entry layout.loops index).map Loop.size

/-- Sizes and strides of the loops of a span, innermost first. -/
def radices (layout : Layout) (table : StrideTable) (span : Span) : List (Int × Operands Int) :=
  span.inward.map fun index => ((layout.loops.getD index .unit).size, table.getD index 0)

/-- The offset of number `id` on the loops of a span. -/
def offsetOn (layout : Layout) (table : StrideTable) (span : Span) (id : Int) : Operands Int :=
  mixedOffset (layout.radices table span) id

/-- The offset of an SFC task. -/
def sfcOffset (layout : Layout) (table : StrideTable) (task : Task) : Operands Int :=
  layout.offsetOn table layout.m task.m + layout.offsetOn table layout.n task.n +
    layout.offsetOn table layout.k task.k

/-- The offset of a flat OMP task. -/
def ompOffset (layout : Layout) (table : StrideTable) (id : Int) : Operands Int :=
  layout.offsetOn table layout.omp id

/-- Refuses spans with a loop of size zero, on which numbers have no digits. -/
def requireDigits (layout : Layout) (spans : List Span) : Except Error Unit :=
  if spans.any fun span => (layout.radices [] span).any fun radix => radix.1 = 0 then
    .error (.undefined .nonzeroDivisor)
  else .ok ()

/-- The offset of an SFC task, if the SFC loops have digits. -/
def checkedSfcOffset (layout : Layout) (table : StrideTable) (task : Task) :
    Except Error (Operands Int) := do
  layout.requireDigits [layout.m, layout.n, layout.k]
  return layout.sfcOffset table task

/-- The offset of a flat OMP task, if the OMP loops have digits. -/
def checkedOmpOffset (layout : Layout) (table : StrideTable) (id : Int) :
    Except Error (Operands Int) := do
  layout.requireDigits [layout.omp]
  return layout.ompOffset table id

/-- The byte of a step that changes loop `loop` in a direction. -/
def moveCode (loop : Nat) (direction : Int) : Nat :=
  2 * loop % 256 ||| (direction % 256).toNat

/-- The code of a step whose larger number is `id`, over loops given innermost first: the step
changes the innermost loop with a nonzero digit in `id`. -/
def moveOn (layout : Layout) (direction : Int) : List Nat → Int → Except Error Nat
  | [], _ => .ok 0
  | index :: outer, id => do
      let size ← layout.sizeOf index
      let digit ← remainder id size
      if digit ≠ 0 then return moveCode index direction
      else layout.moveOn direction outer (id.tdiv size)

/-- The code of the step from number `old` to `new` along the loops of a span. -/
def move (layout : Layout) (span : Span) (new old : Int) : Except Error Nat :=
  let direction := (old - new + 1) / 2
  layout.moveOn direction span.inward (new + direction)

/-- The code of the step from one SFC task to the next. -/
def moveBetween (layout : Layout) (old new : Task) : Except Error Nat :=
  if new.m ≠ old.m then layout.move layout.m new.m old.m
  else if new.n ≠ old.n then layout.move layout.n new.n old.n
  else layout.move layout.k new.k old.k

/-- The codes of the steps of a walk, one for each task; the last task has the code zero. -/
def movesOf (layout : Layout) : List Task → Except Error (List Nat)
  | [] => .ok []
  | [_] => .ok [0]
  | old :: new :: rest => do
      return (← layout.moveBetween old new) :: (← layout.movesOf (new :: rest))

/-- The work of a thread. -/
def work (layout : Layout) (table : StrideTable) (thread : Nat) : Except Error Work := do
  let share ← layout.share thread
  let moves ← layout.movesOf (share.path layout.kTasks)
  let offset ← layout.checkedSfcOffset table ⟨share.m.start, share.n.start, 0⟩
  return {
    offset := offset
    omp := share.omp
    beginM := share.m.start
    beginN := share.n.start
    sizeM := share.m.length
    sizeN := share.n.length
    sizeK := layout.kTasks
    moves := moves }

/-- A table after its strides at the given loops, innermost first, have become step offsets; `back`
is the way that the loops further in have made. -/
def stepTableOn (layout : Layout) : List Nat → Operands Int → StrideTable → StrideTable
  | [], _, table => table
  | index :: outer, back, table =>
      let stride := table.getD index 0
      let size := (layout.loops.getD index .unit).size
      layout.stepTableOn outer (back + stride.scale (size - 1)) (table.set index (stride - back))

/-- The table whose SFC strides are step offsets. -/
def stepTable (layout : Layout) (table : StrideTable) : StrideTable :=
  [layout.m, layout.n, layout.k].foldl
    (fun table span => layout.stepTableOn span.inward 0 table) table

/-- Gives the work of every thread and turns the SFC strides of the table into step offsets. Offsets
of the work refer to the table as it was, and the table is written last, when every thread has its
work. -/
def setupInPlace (layout : Layout) : ExceptT Error (StateM StrideTable) (List Work) := do
  let table ← get
  let works ← ((List.range layout.threads.total).mapM (layout.work table) : Except Error _)
  modify layout.stepTable
  return works

/-- The work of every thread, and the table of step offsets. -/
def setup (layout : Layout) (table : StrideTable) : Except Error (List Work × StrideTable) :=
  let (works, next) := layout.setupInPlace.run table
  works.map fun works => (works, next)

/-- A table is written if every thread has work, and otherwise left alone. -/
theorem setupInPlace_run (layout : Layout) (table : StrideTable) :
    layout.setupInPlace.run table =
      match (List.range layout.threads.total).mapM (layout.work table) with
      | .ok works => (.ok works, layout.stepTable table)
      | .error e => (.error e, table) := by
  show (do
    let works ← ((List.range layout.threads.total).mapM (layout.work table) : Except Error _)
    modify layout.stepTable
    return works : ExceptT Error (StateM StrideTable) (List Work)).run table = _
  cases (List.range layout.threads.total).mapM (layout.work table) <;> rfl

theorem setup_eq (layout : Layout) (table : StrideTable) :
    layout.setup table = do
      let works ← (List.range layout.threads.total).mapM (layout.work table)
      return (works, layout.stepTable table) := by
  rw [setup, setupInPlace_run]
  cases (List.range layout.threads.total).mapM (layout.work table) <;> rfl

end Layout

end LoopNest
