import LoopNest.Kernel.Main

/-!
# Touch kernels

A touch kernel changes every element of an output block by itself: it clears the block, clamps it at
zero, copies the auxiliary block into it or adds the auxiliary block to it. It is called before the
first and after the last main kernel call on a block.
-/

namespace LoopNest

/-- What a touch kernel does to an element. -/
inductive TouchMethod where
  | zero
  | relu
  | copy
  | add
  /-- Computes nothing. -/
  | idle
  deriving DecidableEq

/-- The new value of an element, from its old value and the auxiliary element. -/
def TouchMethod.apply {α : Type} [Scalar α] (method : TouchMethod) (aux old : α) : α :=
  match method with
  | .zero => Scalar.zero
  | .relu => if Scalar.isLess old Scalar.zero then Scalar.zero else old
  | .copy => aux
  | .add => Scalar.add old aux
  | .idle => old

/-- A touch kernel for blocks of a given shape. -/
structure TouchKernel where
  method : TouchMethod
  shape : KernelShape
  deriving DecidableEq

namespace KernelShape

/-- The elements of the output block in all planes, M fastest and planes slowest. -/
def planePoints (shape : KernelShape) : List (Int × TilePoint) :=
  (upTo shape.planes).flatMap fun plane => shape.tile.map fun p => (plane, p)

/-- Address in the output block. -/
def touchAddress (shape : KernelShape) (plane : Int) (p : TilePoint) : Int :=
  plane * shape.stridePlane.out + shape.outAddress p

/-- Address in the auxiliary block. -/
def auxAddress (shape : KernelShape) (plane : Int) (p : TilePoint) : Int :=
  plane * shape.stridePlane.outAux + p.lane * shape.strideLane.outAux + p.n * shape.auxN +
    p.m * shape.auxM

end KernelShape

/-- The updates of the output block by one call. -/
def TouchKernel.updates {α : Type} [Scalar α] (kernel : TouchKernel) (aux : Int → α) :
    List (Update α) :=
  match kernel.method with
  | .idle => []
  | method =>
      kernel.shape.planePoints.map fun (plane, p) =>
        ⟨kernel.shape.touchAddress plane p,
          fun old => method.apply (aux (kernel.shape.auxAddress plane p)) old⟩

end LoopNest
