import LoopNest.Operands
import LoopNest.Tag

/-!
# Why a request is refused

`Error` lists the causes for which planning, compiling or launching a contraction is refused, with
the data that led to each. `Error.message` is the one place where a cause is put into words, and
`Error.code` sorts the causes into the two classes of failure that callers distinguish.

A request that lies outside the domain of an operation, such as a division by an extent of zero, is
the cause `Error.undefined`; it carries the condition that was not met.
-/

namespace LoopNest

/-- What is wrong with the complex dimension. -/
inductive ComplexFault where
  /-- The complex loop has size `size` and the requested main kernel is `kernel`. -/
  | loop (size : Int) (kernel : KernelTag)
  | several
  | absent
  | kernelLoop (size : Int)
  | planes (kernel : KernelTag)
  deriving DecidableEq

/-- How the innermost loops fail to match the main kernel. -/
inductive ShapeFault where
  | count (expected found : Nat)
  | order
  | fourth (axis : Axis)
  | fifth
  | leftStride
  | rightStride
  | outStride
  | auxStride
  deriving DecidableEq

/-- How the parallel loops are misplaced. -/
inductive LayoutFault where
  | ompReduction
  | sfcAxis
  | sfcOrder
  | indexTooLarge
  | ompGap
  | sfcGap
  | sfcDetached
  deriving DecidableEq

/-- How a packed region is misplaced. -/
inductive PackingFault where
  | insideKernel
  | parallelLoop
  | unpackedLoop
  deriving DecidableEq

/-- One of the three directions in which threads are counted. -/
inductive ThreadAxis where
  | m
  | n
  | omp
  deriving DecidableEq

/-- A settings field with a least value of one. -/
inductive SettingField where
  | targetM
  | targetN
  | targetK
  | extraPacking
  | kBlocking
  | slots
  | aliasing
  deriving DecidableEq

/-- A column of a loop table given attribute by attribute. -/
inductive LoopColumn where
  | modes
  | sizes
  | left
  | right
  | outAux
  | out
  | sourceLeft
  | sourceRight
  deriving DecidableEq

/-- The condition that a request outside the domain of an operation does not meet. -/
inductive Precondition where
  | nonzeroDivisor
  | indexInRange
  | rangeInBuffer
  | depthInBox
  | sliceForEachThread
  | representableSize
  deriving DecidableEq

/-- The cause for which a request is refused. -/
inductive Error where
  | unsupportedMainKernel (kernel : KernelTag)
  | unsupportedTouchKernel (kernel : KernelTag)
  | unsupportedElementTypes (left right comp out : ElementType)
  | invalidComplex (fault : ComplexFault)
  | kernelShape (kernel : KernelTag) (fault : ShapeFault)
  | parallelLayout (loop : Nat) (fault : LayoutFault)
  | emptyThreadShare (thread : Nat) (axis : ThreadAxis)
  | invalidPacking (loop : Nat) (side : Side) (fault : PackingFault)
  | lengthMismatch (column : LoopColumn) (expected actual : Nat)
  | invalidSize (loop : Nat) (axis : Axis) (size : Int)
  | invalidSetting (field : SettingField) (value : Int)
  | threadMemory (threads slices required shortest : Nat)
  | threadPool (reason : String)
  | notCompiled
  | elementTypeMismatch (expected actual : ElementType)
  | bufferTooSmall (operand : Operand) (required actual : Nat)
  | missingAuxiliary (kernel : KernelTag)
  | undefined (condition : Precondition)
  deriving DecidableEq

/-- A complex-dimension fault in words. -/
def ComplexFault.text : ComplexFault → String
  | loop size kernel => s!"size {size} with main kernel {kernel.name}"
  | several => "more than one complex dimension"
  | absent => "complex kernel without complex dimension"
  | kernelLoop size => s!"kernel complex dimension has size {size}"
  | planes kernel => s!"kernel {kernel.name} needs a complex dimension of size 2"

/-- A kernel-shape fault in words. -/
def ShapeFault.text : ShapeFault → String
  | count expected found => s!"expected {expected} trailing kernel loops, found {found}"
  | order => "kernel loops must be M, N, K"
  | fourth axis => s!"fourth kernel loop must be {axis.name}"
  | fifth => "fifth kernel loop must be CPX"
  | leftStride => "left operand has no unit stride in M or K"
  | rightStride => "right operand has no unit stride in K or N"
  | outStride => "output M stride must match the packed lanes"
  | auxStride => "auxiliary M stride exceeds the packed lanes"

/-- A layout fault in words. -/
def LayoutFault.text : LayoutFault → String
  | ompReduction => "OMP loop of kind K"
  | sfcAxis => "SFC loop must be of kind M, N or K"
  | sfcOrder => "SFC loops must be ordered N, M, K"
  | indexTooLarge => "parallel loop index exceeds movement encoding"
  | ompGap => "OMP loops are not contiguous"
  | sfcGap => "SFC loops are not contiguous"
  | sfcDetached => "SFC loops must directly follow the OMP loops"

/-- A packing fault in words. -/
def PackingFault.text : PackingFault → String
  | insideKernel => "packing loop inside the kernel loops"
  | parallelLoop => "parallel loop inside the packed region"
  | unpackedLoop => "unpacked loop inside the packed region"

/-- The written name of a thread direction. -/
def ThreadAxis.name : ThreadAxis → String
  | m => "m"
  | n => "n"
  | omp => "omp"

/-- The written name of a settings field. -/
def SettingField.name : SettingField → String
  | targetM => "target_m"
  | targetN => "target_n"
  | targetK => "target_k"
  | extraPacking => "target_extra_packing"
  | kBlocking => "target_k_blocking"
  | slots => "max_cached_slots"
  | aliasing => "aliasing_stride"

/-- The written name of a loop-table column. -/
def LoopColumn.name : LoopColumn → String
  | modes => "exec_kinds"
  | sizes => "sizes"
  | left => "strides_left"
  | right => "strides_right"
  | outAux => "strides_out_aux"
  | out => "strides_out"
  | sourceLeft => "packing_strides_left"
  | sourceRight => "packing_strides_right"

/-- An unmet condition in words. -/
def Precondition.text : Precondition → String
  | nonzeroDivisor => "division by zero"
  | indexInRange => "index out of range"
  | rangeInBuffer => "range end past the end of the buffer"
  | depthInBox => "index past the last layer of the box"
  | sliceForEachThread => "fewer scratch slices than threads"
  | representableSize => "buffer size is not representable"

namespace Error

/-- A cause in words. -/
def message : Error → String
  | unsupportedMainKernel kernel => s!"unsupported main kernel {kernel.name}"
  | unsupportedTouchKernel kernel => s!"unsupported touch kernel {kernel.name}"
  | unsupportedElementTypes left right comp out =>
      s!"unsupported data type combination: left {left.name}, right {right.name}, " ++
        s!"comp {comp.name}, out {out.name}"
  | invalidComplex fault => s!"invalid complex dimension: {fault.text}"
  | kernelShape kernel fault => s!"kernel shape mismatch for {kernel.name}: {fault.text}"
  | parallelLayout loop fault => s!"invalid parallel loop layout at loop {loop}: {fault.text}"
  | emptyThreadShare thread axis => s!"thread {thread} has an empty share of the {axis.name} axis"
  | invalidPacking loop side fault =>
      s!"invalid packing loop {loop} for {side.name} operand: {fault.text}"
  | lengthMismatch column expected actual =>
      s!"descriptor length mismatch: expected {expected}, got {actual} for {column.name}"
  | invalidSize loop axis size => s!"dimension {loop} of kind {axis.name} has invalid size {size}"
  | invalidSetting field value =>
      s!"invalid configuration: {field.name} = {value}, must be at least 1"
  | threadMemory threads slices required shortest =>
      s!"thread memory too small: {slices} slices for {threads} threads, " ++
        s!"shortest {shortest} of {required} bytes"
  | threadPool reason => s!"failed to build thread pool: {reason}"
  | notCompiled => "contraction has not been compiled"
  | elementTypeMismatch expected actual =>
      s!"data type mismatch: compiled for {expected.name}, got {actual.name}"
  | bufferTooSmall operand required actual =>
      s!"{operand.name} buffer too small: plan reaches {required} elements, got {actual}"
  | missingAuxiliary kernel =>
      s!"touch kernel {kernel.name} requires an auxiliary output tensor"
  | undefined condition => condition.text

/-- Class of a failure: 2 for a fault of the complex dimension, 1 for every other cause. -/
def code : Error → Nat
  | invalidComplex _ => 2
  | _ => 1

end Error

end LoopNest
