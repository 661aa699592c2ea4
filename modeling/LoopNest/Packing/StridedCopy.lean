import LoopNest.Buffer
import LoopNest.Ordering

/-!
# Strided copies

A strided copy moves the elements of a strided block into another strided block: one copy loop for
each direction, with a number of steps and a stride on both sides. `StridedCopy.ofLoops` brings the
copy loops into order, the largest destination stride outermost, joins loops that continue each
other on both sides, and turns an innermost loop over adjacent elements into a block that is copied
at once.

`StridedCopy.moves` lists the cells copied, `StridedCopy.fill` fills a buffer with them and
`StridedCopy.run` copies them from one buffer into another. Cells may be elements or bytes: `unit` is
the number of cells of an element.
-/

namespace LoopNest

/-- One loop of a copy. -/
structure CopyLoop where
  size : Int
  source : Int
  target : Int
  deriving DecidableEq

/-- A copy: its loops, outermost first, and the number of adjacent cells copied in each innermost
step. -/
structure StridedCopy where
  loops : List CopyLoop
  block : Int
  deriving DecidableEq

namespace CopyLoop

/-- Whether a loop continues the loop `inner` on both sides. -/
def continues (outer inner : CopyLoop) : Bool :=
  outer.source = inner.source * inner.size ∧ outer.target = inner.target * inner.size

/-- Joins a loop to the loops further in, given outermost first, if it continues the outermost of
them. -/
def join (loop : CopyLoop) : List CopyLoop → List CopyLoop
  | [] => [loop]
  | inner :: rest =>
      if loop.continues inner then { inner with size := inner.size * loop.size } :: rest
      else loop :: inner :: rest

end CopyLoop

namespace StridedCopy

/-- The loops in order and joined, with strides in cells. -/
def normalize (loops : List CopyLoop) (unit : Int) : List CopyLoop :=
  let kept := (loops.filter fun loop => 1 < loop.size).map fun loop =>
    { loop with source := loop.source * unit, target := loop.target * unit }
  (sortBy (fun a b => b.target ≤ a.target) kept).foldr CopyLoop.join []

/-- The copy along loops given in elements of `unit` cells each. -/
def ofLoops (loops : List CopyLoop) (unit : Int) : StridedCopy :=
  let joined := normalize loops unit
  match joined.getLast? with
  | some inner =>
      if inner.source = unit ∧ inner.target = unit then ⟨joined.dropLast, unit * inner.size⟩
      else ⟨joined, unit⟩
  | none => ⟨joined, unit⟩

/-- Source and target offsets of the innermost steps of a loop list, in order. -/
def steps : List CopyLoop → List (Int × Int)
  | [] => [(0, 0)]
  | loop :: inner =>
      (upTo loop.size).flatMap fun i =>
        (steps inner).map fun (source, target) =>
          (i * loop.source + source, i * loop.target + target)

/-- Source and target offsets of the cells copied, in order. -/
def moves (copy : StridedCopy) : List (Int × Int) :=
  (steps copy.loops).flatMap fun (source, target) =>
    (upTo copy.block).map fun i => (source + i, target + i)

/-- The target buffer after the copy of a block to `targetBase`, with the cells of the block given by
their source offsets. Where there is no such cell, nothing is copied. -/
def fill {α : Type} (copy : StridedCopy) (cell : Int → Option α) (target : Buffer α)
    (targetBase : Int) : Buffer α :=
  copy.moves.foldl
    (fun target (sourceOffset, targetOffset) =>
      match cell sourceOffset with
      | some x => Buffer.update target ⟨targetBase + targetOffset, fun _ => x⟩
      | none => target)
    target

/-- The target buffer after the copy of the block at `sourceBase` to `targetBase`. Cells outside the
source are not copied. -/
def run {α : Type} (copy : StridedCopy) (source : Buffer α) (sourceBase : Int)
    (target : Buffer α) (targetBase : Int) : Buffer α :=
  copy.fill (fun offset => Buffer.read? source (sourceBase + offset)) target targetBase

end StridedCopy

end LoopNest
