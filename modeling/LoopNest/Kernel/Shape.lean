import LoopNest.Loop

/-!
# Shape of the kernel loops

The innermost loops of a nest are executed by the kernel. `KernelShape` describes the blocks of the
operands that one kernel call works on: sizes, strides of every kernel loop in every operand, and
the leading dimensions of the blocks viewed as column-major matrices.

`KernelShape.ofLoops` reads the shape off the end of a loop list. It refuses loops that do not fit
the kernel and blocks that are no matrices: the left and the right block need stride one (or the
number of packed lanes) in one of their two directions, the output block in M.
-/

namespace LoopNest

/-- The blocks that one kernel call works on, in elements. -/
structure KernelShape where
  m : Int := 1
  n : Int := 1
  k : Int := 1
  /-- Number of reduction blocks. -/
  br : Int := 1
  /-- Number of packed lanes. -/
  lanes : Int := 1
  /-- Number of planes: 1 for real, 2 for complex elements. -/
  planes : Int := 1
  transposedLeft : Bool := false
  transposedRight : Bool := false
  leadingLeft : Int := 1
  leadingRight : Int := 1
  leadingOut : Int := 1
  auxM : Int := 0
  auxN : Int := 0
  strideM : Operands Int := 0
  strideN : Operands Int := 0
  strideK : Operands Int := 0
  strideBr : Operands Int := 0
  strideLane : Operands Int := 0
  stridePlane : Operands Int := 0
  deriving DecidableEq

namespace KernelShape

/-- The kernel loops of a list: its longest end that consists of kernel loops, innermost first. -/
def trailing (loops : List Loop) : List Loop := loops.reverse.takeWhile Loop.isPrim

/-- Axis of the fourth kernel loop from the end. -/
def fourthAxis : KernelTag → Option Axis
  | .brMadd => some .k
  | .packedMadd | .cpxPackedMadd => some .c
  | .cpxMadd => some .cpx
  | _ => none

/-- Checks number and axes of the kernel loops, given innermost first. -/
def checkAxes (kernel : KernelTag) (prims : List Loop) : Except Error Unit := do
  let expected := kernel.primCount.getD 0
  if prims.length ≠ expected then
    .error (.kernelShape kernel (.count expected prims.length))
  if (prims.take 3).map Loop.axis ≠ [.k, .n, .m] then .error (.kernelShape kernel .order)
  match fourthAxis kernel with
  | some axis =>
      if (prims[3]?.map Loop.axis) ≠ some axis then
        .error (.kernelShape kernel (.fourth axis))
  | none => .ok ()
  if kernel = .cpxPackedMadd ∧ (prims[4]?.map Loop.axis) ≠ some .cpx then
    .error (.kernelShape kernel .fifth)

/-- Whether a loop may be the contiguous direction of a block: it has one iteration, or a stride of
one element or one vector of lanes. -/
def isContiguous (size stride lanes : Int) : Bool := size = 1 || stride = lanes || stride = 1

/-- Orientation and leading dimension of the left block. -/
def leftLayout (m k : Loop) (lanes : Int) : Option (Bool × Int) :=
  if isContiguous m.size m.strides.left lanes then
    some (false, if k.size = 1 then m.size * lanes else k.strides.left)
  else if isContiguous k.size k.strides.left lanes then some (true, m.strides.left)
  else none

/-- Orientation and leading dimension of the right block. -/
def rightLayout (n k : Loop) (lanes : Int) : Option (Bool × Int) :=
  if isContiguous k.size k.strides.right lanes then
    some (false, if n.size = 1 then k.size * lanes else n.strides.right)
  else if isContiguous n.size n.strides.right lanes then some (true, k.strides.right)
  else none

/-- Leading dimension of the output block. -/
def outLayout (m n : Loop) (lanes : Int) : Option Int :=
  if m.size = 1 ∨ m.strides.out = lanes then
    some (if n.size = 1 then m.size * lanes else n.strides.out)
  else none

/-- Strides of the auxiliary block in M and N. -/
def auxLayout (m n : Loop) (lanes : Int) : Option (Int × Int) :=
  if m.size = 1 ∨ m.strides.outAux ≤ lanes then
    some (if m.size = 1 then lanes else m.strides.outAux,
      if n.size = 1 then m.size * lanes else n.strides.outAux)
  else none

/-- The value of an optional layout, or the fault in its place. -/
def require {α : Type} (kernel : KernelTag) (fault : ShapeFault) : Option α → Except Error α
  | some x => .ok x
  | none => .error (.kernelShape kernel fault)

/-- The shape of M, N and K loops with further kernel loops `outer`, innermost first. -/
def ofPrims (kernel : KernelTag) (m n k : Loop) (outer : List Loop) :
    Except Error KernelShape := do
  let fourth := outer.getD 0 .unit
  let lanes := if kernel.hasPackedLanes then fourth.size else 1
  let (transposedLeft, leadingLeft) ← require kernel .leftStride (leftLayout m k lanes)
  let (transposedRight, leadingRight) ← require kernel .rightStride (rightLayout n k lanes)
  let leadingOut ← require kernel .outStride (outLayout m n lanes)
  let (auxM, auxN) ← require kernel .auxStride (auxLayout m n lanes)
  let complex := outer.getD (if kernel.hasPackedLanes then 1 else 0) .unit
  if kernel.hasComplexLoop && complex.size ≠ 2 then
    .error (.invalidComplex (.kernelLoop complex.size))
  return {
    m := m.size
    n := n.size
    k := k.size
    br := if kernel = .brMadd then fourth.size else 1
    lanes := lanes
    planes := if kernel.hasComplexLoop then 2 else 1
    transposedLeft := transposedLeft
    transposedRight := transposedRight
    leadingLeft := leadingLeft
    leadingRight := leadingRight
    leadingOut := leadingOut
    auxM := auxM
    auxN := auxN
    strideM := m.strides
    strideN := n.strides
    strideK := k.strides
    strideBr := if kernel = .brMadd then fourth.strides else 0
    strideLane := if kernel.hasPackedLanes then fourth.strides else 0
    stridePlane := if kernel.hasComplexLoop then complex.strides else 0 }

/-- The shape of the kernel loops at the end of a list. -/
def ofLoops (kernel : KernelTag) (loops : List Loop) : Except Error KernelShape := do
  let prims := trailing loops
  checkAxes kernel prims
  match prims with
  | k :: n :: m :: outer => ofPrims kernel m n k outer
  | _ => .error (.kernelShape kernel .order)

end KernelShape

end LoopNest
