import LoopNest.Curve.Serpentine
import LoopNest.Parallel.Layout

/-!
# Shares of the parallel tasks

Every thread owns an interval of the flat OMP tasks and a box of the SFC tasks: an interval of M
tasks times an interval of N tasks times all K tasks. An axis with `total` tasks is cut at `id *
total / threads`, so the shares of an axis are consecutive and differ by at most one task. A thread
without a task on some axis is refused.

`Share.path` is the walk of a thread through its box. It follows the Hilbert curve, and the
serpentine curve if the Hilbert curve should take a diagonal step.
-/

namespace LoopNest

/-- The tasks with number at least `start` and below `stop`. -/
structure Interval where
  start : Int
  stop : Int
  deriving DecidableEq

/-- Number of tasks. -/
def Interval.length (interval : Interval) : Int := interval.stop - interval.start

/-- What one thread owns. -/
structure Share where
  m : Interval
  n : Interval
  omp : Interval
  deriving DecidableEq

/-- One SFC task: its numbers on the axes M, N and K. -/
structure Task where
  m : Int
  n : Int
  k : Int
  deriving DecidableEq

/-- Whether two cells differ by one in exactly one coordinate. -/
def Curve.Cell.isNext (a b : Curve.Cell) : Bool :=
  (a.x - b.x).natAbs + (a.y - b.y).natAbs + (a.z - b.z).natAbs = 1

/-- Whether every cell is followed by a neighbour. -/
def Curve.hasUnitSteps : List Curve.Cell → Bool
  | a :: b :: rest => a.isNext b && hasUnitSteps (b :: rest)
  | _ => true

/-- The cells of a curve at the indices of a box of `w * h * d` cells. -/
def Curve.walk (cell : Int → Curve.Cell) (w h d : Int) : List Curve.Cell :=
  (List.range (w * h * d).toNat).map fun (i : Nat) => cell i

namespace Share

/-- The share of position `id` among `threads` shares of an axis. -/
def onAxis (thread id threads : Nat) (total : Int) (axis : ThreadAxis) : Except Error Interval :=
  let interval : Interval := ⟨(id * total).tdiv threads, ((id + 1) * total).tdiv threads⟩
  if interval.start < interval.stop then .ok interval
  else .error (.emptyThreadShare thread axis)

/-- The walk through the box of a share with `depth` tasks on the K axis. -/
def path (share : Share) (depth : Int) : List Task :=
  let w := share.m.length
  let h := share.n.length
  let hilbert := Curve.walk (fun i => Curve.Hilbert.cell i w h depth) w h depth
  let cells :=
    if Curve.hasUnitSteps hilbert then hilbert
    else Curve.walk (fun i => Curve.Serpentine.cell i w h) w h depth
  cells.map fun cell => ⟨share.m.start + cell.x, share.n.start + cell.y, cell.z⟩

end Share

namespace Layout

/-- The share of a thread. Threads are numbered with M fastest and OMP slowest. -/
def share (layout : Layout) (thread : Nat) : Except Error Share := do
  let grid := layout.threads
  let m ← Share.onAxis thread (thread % grid.m) grid.m layout.mTasks .m
  let n ← Share.onAxis thread (thread / grid.m % grid.n) grid.n layout.nTasks .n
  let omp ← Share.onAxis thread (thread / grid.m / grid.n) grid.omp layout.ompTasks .omp
  return ⟨m, n, omp⟩

/-- The SFC tasks of a thread in the order in which it visits them. -/
def traversal (layout : Layout) (thread : Nat) : Except Error (List Task) := do
  return (← layout.share thread).path layout.kTasks

end Layout

end LoopNest
