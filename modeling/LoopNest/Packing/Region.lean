import LoopNest.Loop
import LoopNest.Packing.StridedCopy

/-!
# Packed regions

An input that is packed along some loops is copied into a scratch buffer in front of one loop, and
every loop from there on reads the copy. That loop, the packing loop, is the outermost packed one,
or lies further out if the loops in between do not move through the input and are not parallel.

`PackedRegion.ofLoops` finds the packing loop and makes the copy. A region may not begin inside the
kernel loops, contain a parallel loop, or contain a loop that moves through the input without being
packed.
-/

namespace LoopNest

/-- The packed part of one input. -/
structure PackedRegion where
  /-- The loop in front of which the input is copied. -/
  loop : Nat
  /-- Extent of one copy in elements. -/
  cells : Int
  copy : StridedCopy
  deriving DecidableEq

namespace PackedRegion

/-- The packing loop and the reach of the packing buffer, for loops from `index` on, outermost
first. -/
def locate (side : Side) : (index : Nat) → List Loop → Option Nat × Int
  | _, [] => (none, 0)
  | index, loop :: inner =>
      let (start, reach) := locate side (index + 1) inner
      if loop.isPacked side then (some index, reach + loop.stride side * (loop.size - 1))
      else if loop.stride side = 0 ∧ start = some (index + 1) ∧ !loop.isParallel then
        (some index, reach)
      else (start, reach)

/-- Refuses loops that may not stand inside a packed region; `index` is the index of the first
loop. -/
def checkInside (side : Side) (index : Nat) : List Loop → Except Error Unit
  | [] => .ok ()
  | loop :: inner =>
      if loop.isParallel then .error (.invalidPacking index side .parallelLoop)
      else if loop.stride side ≠ 0 ∧ !loop.isPacked side then
        .error (.invalidPacking index side .unpackedLoop)
      else checkInside side (index + 1) inner

/-- The copy loops of an input: through the caller's buffer and through the packing buffer. -/
def copyLoops (side : Side) (loops : List Loop) : List CopyLoop :=
  (loops.filter fun loop => loop.isPacked side).map fun loop =>
    ⟨loop.size, loop.source side, loop.stride side⟩

/-- The packed region of one input, `none` if the input is not packed. -/
def ofLoops (side : Side) (loops : List Loop) : Except Error (Option PackedRegion) :=
  match locate side 0 loops with
  | (none, _) => .ok none
  | (some start, reach) => do
      if 0 < start ∧ (loops[start - 1]?.map Loop.isPrim) = some true then
        .error (.invalidPacking start side .insideKernel)
      checkInside side start (loops.drop start)
      return some ⟨start, reach + 1, StridedCopy.ofLoops (copyLoops side loops) 1⟩

end PackedRegion

end LoopNest
