import LoopNest.Kernel.Touch

/-!
# Kernel providers

A provider makes the kernels of a contraction from their tags and the shape of the kernel loops, and
refuses tags that it does not know. The strided provider has plain loops for every tag; the
matrix-product provider multiplies real blocks matrix by matrix and leaves the rest to the strided
one. The recording provider takes every tag and makes kernels that compute nothing, for looking at
the calls themselves.
-/

namespace LoopNest

/-- Where kernels come from. -/
inductive Provider where
  | strided
  | matrix
  | recording
  deriving DecidableEq

namespace Provider

/-- Refuses complex kernels on real blocks. -/
def checkPlanes (kernel : KernelTag) (shape : KernelShape) : Except Error Unit :=
  if kernel.isComplex && shape.planes ≠ 2 then .error (.invalidComplex (.planes kernel))
  else .ok ()

/-- The strided main kernel of a tag. -/
def stridedMain (kernel : KernelTag) (shape : KernelShape) : Except Error MainKernel := do
  checkPlanes kernel shape
  match kernel with
  | .madd | .brMadd | .packedMadd => return ⟨.real, shape⟩
  | .cpxMadd | .cpxPackedMadd => return ⟨.complex, shape⟩
  | _ => .error (.unsupportedMainKernel kernel)

/-- The strided touch kernel of a tag. -/
def stridedTouch (kernel : KernelTag) (shape : KernelShape) : Except Error TouchKernel := do
  checkPlanes kernel shape
  match kernel with
  | .zero | .cpxZero => return ⟨.zero, shape⟩
  | .relu => return ⟨.relu, shape⟩
  | .copy | .cpxCopy => return ⟨.copy, shape⟩
  | .add | .cpxAdd => return ⟨.add, shape⟩
  | _ => .error (.unsupportedTouchKernel kernel)

/-- The main kernel of a tag. -/
def mainKernel (provider : Provider) (kernel : KernelTag) (shape : KernelShape) :
    Except Error MainKernel :=
  match provider with
  | .strided => stridedMain kernel shape
  | .matrix =>
      match kernel with
      | .madd | .brMadd | .packedMadd => .ok ⟨.blocks, shape⟩
      | _ => stridedMain kernel shape
  | .recording => .ok ⟨.idle, shape⟩

/-- The touch kernel of a tag. -/
def touchKernel (provider : Provider) (kernel : KernelTag) (shape : KernelShape) :
    Except Error TouchKernel :=
  match provider with
  | .strided | .matrix => stridedTouch kernel shape
  | .recording => .ok ⟨.idle, shape⟩

end Provider

end LoopNest
