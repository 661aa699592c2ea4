import LoopNest.Loop

/-!
# Layout of the parallel loops

The parallel part of a loop list is a run of OMP loops followed by a run of SFC loops: N loops, then
M loops, then K loops. `Layout.ofLoops` checks this and records the index intervals of the four runs
together with the number of tasks of each, the product of its loop sizes.

The scan goes through the loops once from the outside in. A loop that may not be parallel, that
comes in the wrong order, or whose index does not fit a movement code is refused where it stands;
gaps are found at the end by comparing the extent of a run with the number of its loops.
-/

namespace LoopNest

/-- The loops with index at least `start` and below `stop`. -/
structure Span where
  start : Nat := 0
  stop : Nat := 0
  deriving DecidableEq

namespace Span

/-- Number of loops. -/
def length (span : Span) : Nat := span.stop - span.start

/-- Whether there are no loops. -/
def isEmpty (span : Span) : Bool := span.start = span.stop

/-- The span that reaches to the loop `index`, and begins there if it was empty. -/
def extend (span : Span) (index : Nat) : Span :=
  ⟨if span.isEmpty then index else span.start, index + 1⟩

/-- The loop indices, innermost first. -/
def inward (span : Span) : List Nat := (List.range' span.start span.length).reverse

end Span

/-- Numbers of threads in the three directions. -/
structure ThreadGrid where
  omp : Nat
  m : Nat
  n : Nat
  deriving DecidableEq

namespace ThreadGrid

/-- Number of threads in all directions together. -/
def total (grid : ThreadGrid) : Nat := grid.omp * grid.m * grid.n

/-- At least one thread in every direction. -/
def atLeastOne (grid : ThreadGrid) : ThreadGrid := ⟨max grid.omp 1, max grid.m 1, max grid.n 1⟩

end ThreadGrid

/-- The parallel loops of a loop list and the threads that share them. -/
structure Layout where
  loops : List Loop
  threads : ThreadGrid
  omp : Span := {}
  m : Span := {}
  n : Span := {}
  k : Span := {}
  ompTasks : Int := 1
  mTasks : Int := 1
  nTasks : Int := 1
  kTasks : Int := 1

namespace Layout

/-- Largest loop index that fits a movement code. -/
def maxLoopIndex : Nat := 127

/-- Number of SFC loops. -/
def sfcCount (layout : Layout) : Nat := layout.n.length + layout.m.length + layout.k.length

/-- The scan of a loop list: the layout so far, how many parallel loops were met, the first SFC
loop, and the rank of the last SFC axis (N, M, K have ranks 1, 2, 3). -/
structure Scan where
  layout : Layout
  ompLoops : Nat := 0
  sfcLoops : Nat := 0
  sfcFirst : Option Nat := none
  sfcRank : Nat := 0

namespace Scan

/-- Takes in an OMP loop. -/
def omp (scan : Scan) (index : Nat) (loop : Loop) : Except Error Scan :=
  if loop.axis = .k then .error (.parallelLayout index .ompReduction)
  else
    .ok { scan with
      layout := { scan.layout with
        omp := scan.layout.omp.extend index
        ompTasks := scan.layout.ompTasks * loop.size }
      ompLoops := scan.ompLoops + 1 }

/-- The layout with one more SFC loop, and the rank of its axis. -/
def sfcLayout (layout : Layout) (index : Nat) (loop : Loop) : Option (Nat × Layout) :=
  match loop.axis with
  | .n => some (1, { layout with n := layout.n.extend index, nTasks := layout.nTasks * loop.size })
  | .m => some (2, { layout with m := layout.m.extend index, mTasks := layout.mTasks * loop.size })
  | .k => some (3, { layout with k := layout.k.extend index, kTasks := layout.kTasks * loop.size })
  | _ => none

/-- Takes in an SFC loop. -/
def sfc (scan : Scan) (index : Nat) (loop : Loop) : Except Error Scan :=
  match sfcLayout scan.layout index loop with
  | none => .error (.parallelLayout index .sfcAxis)
  | some (rank, layout) =>
      if rank < scan.sfcRank then .error (.parallelLayout index .sfcOrder)
      else
        .ok { scan with
          layout := layout
          sfcLoops := scan.sfcLoops + 1
          sfcFirst := some (scan.sfcFirst.getD index)
          sfcRank := rank }

/-- Takes in one loop. -/
def step (scan : Scan) (index : Nat) (loop : Loop) : Except Error Scan := do
  let next ←
    match loop.mode with
    | .omp => scan.omp index loop
    | .sfc => scan.sfc index loop
    | .seq | .prim => .ok scan
  if loop.isParallel && maxLoopIndex < index then
    .error (.parallelLayout index .indexTooLarge)
  else .ok next

/-- Takes in the loops from `index` on. -/
def run (scan : Scan) (index : Nat) : List Loop → Except Error Scan
  | [] => .ok scan
  | loop :: rest => do (← scan.step index loop).run (index + 1) rest

/-- Refuses runs with gaps. -/
def finish (scan : Scan) : Except Error Layout :=
  let layout := scan.layout
  if layout.omp.length ≠ scan.ompLoops then
    .error (.parallelLayout layout.omp.start .ompGap)
  else
    match scan.sfcFirst with
    | none => .ok layout
    | some first =>
        let last := max (max layout.n.stop layout.m.stop) layout.k.stop
        if layout.sfcCount ≠ scan.sfcLoops ∨ last - first ≠ scan.sfcLoops then
          .error (.parallelLayout first .sfcGap)
        else if 0 < scan.ompLoops ∧ layout.omp.stop ≠ first then
          .error (.parallelLayout first .sfcDetached)
        else .ok layout

end Scan

/-- The layout of the parallel loops of a loop list. -/
def ofLoops (loops : List Loop) (threads : ThreadGrid) : Except Error Layout := do
  (← Scan.run { layout := { loops := loops, threads := threads.atLeastOne } } 0 loops).finish

/-- Axis of a loop. -/
def axisOf (layout : Layout) (index : Nat) : Axis := (layout.loops.getD index .unit).axis

/-- Packing slots per thread and operand: enough for the shorter side of a thread's box, at least
one and at most `maxSlots`. -/
def cachingSlots (layout : Layout) (maxSlots : Int) : Nat :=
  let share (tasks : Int) (threads : Nat) : Int := (tasks + threads - 1).tdiv threads
  let sides := min (share layout.mTasks layout.threads.m) (share layout.nTasks layout.threads.n)
  (max (min sides maxSlots) 1).toNat

end Layout

end LoopNest
