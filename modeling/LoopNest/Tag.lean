/-!
# Tags of loops, elements and kernels

Every loop of a contraction carries an `Axis`, which says what operands it indexes, and a `Mode`,
which says how it is executed. Kernels are chosen by a `KernelTag`: main kernels multiply and add,
touch kernels prepare or finish an output tile.

The predicates on tags are the whole interface between the planner, the compiler and the kernels:
`KernelTag.primCount` is the number of innermost loops a main kernel consumes, `KernelTag.isTouch`
and `KernelTag.readsAux` classify the touch kernels, `KernelTag.isComplex` names the kernels that
work on two planes.
-/

namespace LoopNest

/-- What a loop indexes. -/
inductive Axis where
  /-- Batch: left, right and out. -/
  | c
  /-- Left and out. -/
  | m
  /-- Right and out. -/
  | n
  /-- Reduction: left and right. -/
  | k
  /-- Real and imaginary plane. -/
  | cpx
  /-- Left only. -/
  | i
  /-- Right only. -/
  | j
  /-- No declared meaning. -/
  | undefined
  deriving DecidableEq

namespace Axis

/-- Position of an axis in the order of loop kinds. -/
def rank : Axis → Nat
  | c => 0
  | m => 1
  | n => 2
  | k => 3
  | cpx => 4
  | i => 5
  | j => 6
  | undefined => 99

/-- The name an axis has in messages. -/
def name : Axis → String
  | c => "C"
  | m => "M"
  | n => "N"
  | k => "K"
  | cpx => "Cpx"
  | i => "I"
  | j => "J"
  | undefined => "Undefined"

end Axis

/-- How a loop is executed. -/
inductive Mode where
  /-- Distributed over threads by a flat index. -/
  | omp
  /-- One iteration after the other. -/
  | seq
  /-- Distributed over threads along a space-filling curve. -/
  | sfc
  /-- Folded into the kernel call. -/
  | prim
  deriving DecidableEq

/-- Whether the iterations of a loop are distributed over threads. -/
def Mode.isParallel : Mode → Bool
  | .omp | .sfc => true
  | .seq | .prim => false

/-- Element types. -/
inductive ElementType where
  | fp32
  | fp64
  deriving DecidableEq

namespace ElementType

/-- Bytes of one element. -/
def bytes : ElementType → Nat
  | fp32 => 4
  | fp64 => 8

/-- The name an element type has in messages. -/
def name : ElementType → String
  | fp32 => "Fp32"
  | fp64 => "Fp64"

end ElementType

/-- Tags of touch kernels and main kernels. -/
inductive KernelTag where
  | zero
  | relu
  | add
  | copy
  | madd
  | cpxZero
  | cpxAdd
  | cpxMadd
  | cpxCopy
  | brMadd
  | packedMadd
  | cpxPackedMadd
  | undefined
  deriving DecidableEq

namespace KernelTag

/-- The numeric code of a tag. -/
def code : KernelTag → Nat
  | zero => 0
  | relu => 1
  | add => 2
  | copy => 3
  | madd => 4
  | cpxZero => 6
  | cpxAdd => 7
  | cpxMadd => 8
  | cpxCopy => 9
  | brMadd => 12
  | packedMadd => 13
  | cpxPackedMadd => 14
  | undefined => 99

/-- The name of a tag. -/
def name : KernelTag → String
  | zero => "Zero"
  | relu => "Relu"
  | add => "Add"
  | copy => "Copy"
  | madd => "Madd"
  | cpxZero => "CpxZero"
  | cpxAdd => "CpxAdd"
  | cpxMadd => "CpxMadd"
  | cpxCopy => "CpxCopy"
  | brMadd => "BrMadd"
  | packedMadd => "PackedMadd"
  | cpxPackedMadd => "CpxPackedMadd"
  | undefined => "Undefined"

/-- Number of innermost loops a main kernel consumes; `none` for every other tag. -/
def primCount : KernelTag → Option Nat
  | madd => some 3
  | brMadd | cpxMadd | packedMadd => some 4
  | cpxPackedMadd => some 5
  | _ => none

/-- Whether a tag names a unary kernel on the output tile. -/
def isTouch : KernelTag → Bool
  | zero | relu | add | copy | cpxZero | cpxAdd | cpxCopy => true
  | _ => false

/-- Whether a touch kernel reads the auxiliary output tensor. -/
def readsAux : KernelTag → Bool
  | add | copy | cpxAdd | cpxCopy => true
  | _ => false

/-- Whether a kernel works on a real and an imaginary plane. -/
def isComplex : KernelTag → Bool
  | cpxZero | cpxAdd | cpxMadd | cpxCopy | cpxPackedMadd => true
  | _ => false

/-- Whether a main kernel takes a packed batch loop. -/
def hasPackedLanes : KernelTag → Bool
  | packedMadd | cpxPackedMadd => true
  | _ => false

/-- Whether a main kernel takes a complex loop. -/
def hasComplexLoop : KernelTag → Bool
  | cpxMadd | cpxPackedMadd => true
  | _ => false

end KernelTag

end LoopNest
