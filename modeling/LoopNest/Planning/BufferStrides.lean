import LoopNest.Loop

/-!
# Strides of packing buffers

A packed input is copied into a contiguous buffer before the kernel reads it. Along each loop that
is packed, the stride through the buffer becomes the stride of the loop and the old stride becomes
its source stride. Buffer strides are running products of loop sizes, handed out from the innermost
position of the buffer on (`bufferOrder`).
-/

namespace LoopNest

/-- Where the packed lanes stand in a packing buffer. -/
inductive LanePosition where
  | innermost
  | outermost
  deriving DecidableEq

/-- The loops of a packing buffer from its innermost position on, as distances from the end of the
loop list: M, N and K, with the packed lanes in front or behind, then the batch or complex loop,
then `extra` further packed loops. -/
def bufferOrder (kernel : KernelTag) (lanes : LanePosition) (extra : Nat) : List Nat :=
  let core := [3, 2, 1]
  let laneCount := if kernel.hasPackedLanes then 1 else 0
  let withLanes :=
    if kernel.hasPackedLanes then
      match lanes with
      | .innermost => 4 :: core
      | .outermost => core ++ [4]
    else core
  let middle := if kernel = .brMadd ∨ kernel.hasComplexLoop then 1 else 0
  withLanes ++ List.range' (4 + laneCount) (middle + extra)

/-- A loop with its stride in one input replaced by a buffer stride. -/
def Loop.repack (loop : Loop) (side : Side) (stride : Int) : Loop :=
  match side with
  | .left =>
      { loop with
        sourceLeft := loop.strides.left
        strides := { loop.strides with left := stride } }
  | .right =>
      { loop with
        sourceRight := loop.strides.right
        strides := { loop.strides with right := stride } }

/-- Hands out buffer strides of one input to the loops at the given distances from the end of the
list; `running` is the stride of the next loop. Loops that do not move through the input are left as
they are. -/
def assignBufferStrides (side : Side) : List Nat → Int → List Loop → List Loop
  | [], _, loops => loops
  | distance :: order, running, loops =>
      if distance ≤ loops.length then
        let index := loops.length - distance
        match loops[index]? with
        | some loop =>
            if 0 < loop.stride side then
              assignBufferStrides side order (running * loop.size)
                (loops.set index (loop.repack side running))
            else assignBufferStrides side order running loops
        | none => assignBufferStrides side order running loops
      else assignBufferStrides side order running loops

end LoopNest
