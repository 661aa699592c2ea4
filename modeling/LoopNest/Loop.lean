import LoopNest.Error

/-!
# Loops

A contraction is a list of loops, outermost first. A `Loop` has an axis, a mode, a number of
iterations and one stride per operand stream. When an input is packed, the loop steps through the
packing buffer by its stride and through the caller's buffer by its source stride; a source stride
of zero means that the input is not packed.

`Loop.bufferStride` is the stride through the caller's buffer in both cases. `sizePerAxis` is the
product of the sizes for each of the four axes of a matrix product, the quantity that planning
preserves.
-/

namespace LoopNest

/-- One loop of a contraction. -/
structure Loop where
  axis : Axis
  mode : Mode
  size : Int
  strides : Operands Int
  /-- Stride through the left input when the left input is packed, otherwise 0. -/
  sourceLeft : Int
  /-- Stride through the right input when the right input is packed, otherwise 0. -/
  sourceRight : Int
  deriving DecidableEq

namespace Loop

/-- A sequential loop of one iteration that moves in no operand. -/
def unit : Loop := ⟨.undefined, .seq, 1, 0, 0, 0⟩

/-- The stride in one input. -/
def stride (loop : Loop) : Side → Int
  | .left => loop.strides.left
  | .right => loop.strides.right

/-- The source stride of one input. -/
def source (loop : Loop) : Side → Int
  | .left => loop.sourceLeft
  | .right => loop.sourceRight

/-- Whether an input is packed along the loop. -/
def isPacked (loop : Loop) (side : Side) : Bool := loop.source side ≠ 0

/-- The stride through the caller's buffer of one input. -/
def bufferStride (loop : Loop) (side : Side) : Int :=
  if loop.isPacked side then loop.source side else loop.stride side

/-- Sum of the strides in left, right and out, the weight by which loops are ordered. -/
def weight (loop : Loop) : Int := loop.strides.left + loop.strides.right + loop.strides.out

/-- Whether the iterations are distributed over threads. -/
def isParallel (loop : Loop) : Bool := loop.mode.isParallel

/-- Whether the loop is folded into the kernel call. -/
def isPrim (loop : Loop) : Bool := loop.mode = .prim

end Loop

/-- Product of the sizes of the loops of one axis. -/
def sizeOfAxis (loops : List Loop) (axis : Axis) : Int :=
  ((loops.filter fun loop => loop.axis = axis).map Loop.size).foldl (· * ·) 1

/-- Products of the sizes for the axes C, M, N and K. -/
def sizePerAxis (loops : List Loop) : List Int := [Axis.c, .m, .n, .k].map (sizeOfAxis loops)

/-- Refuses the first loop with a size below one; `index` is the index of the first loop of the
list. -/
def checkSizes (index : Nat) : List Loop → Except Error Unit
  | [] => .ok ()
  | loop :: rest =>
      if loop.size < 1 then .error (.invalidSize index loop.axis loop.size)
      else checkSizes (index + 1) rest

end LoopNest
