import LoopNest.Buffer
import LoopNest.Kernel.Scalar
import LoopNest.Kernel.Shape

/-!
# Main kernels

A main kernel adds the product of a left and a right block to an output block. The three main
kernels compute the same sums: `realUpdates` adds a finished sum over all reduction steps to each
output element, `blockUpdates` adds the sum of one reduction block at a time, as a matrix product
does, and `complexUpdates` multiplies complex numbers whose real and imaginary parts lie in two
planes.

A kernel reads its inputs through functions from addresses to elements and answers with the updates
of the output block. Addresses are relative to the first element of each block.
-/

namespace LoopNest

/-- One element of the output block of a lane. -/
structure TilePoint where
  lane : Int
  n : Int
  m : Int
  deriving DecidableEq

/-- One step of the reduction. -/
structure ReductionStep where
  br : Int
  k : Int
  deriving DecidableEq

namespace KernelShape

/-- The M and N positions of one lane of the output block. -/
def lanePoints (shape : KernelShape) (lane : Int) : List TilePoint :=
  (upTo shape.n).flatMap fun n => (upTo shape.m).map fun m => ⟨lane, n, m⟩

/-- The elements of the output block, M fastest and lanes slowest. -/
def tile (shape : KernelShape) : List TilePoint := (upTo shape.lanes).flatMap shape.lanePoints

/-- The steps of the reduction within one block. -/
def blockSteps (shape : KernelShape) (br : Int) : List ReductionStep :=
  (upTo shape.k).map fun k => ⟨br, k⟩

/-- The steps of the reduction, K fastest. -/
def steps (shape : KernelShape) : List ReductionStep := (upTo shape.br).flatMap shape.blockSteps

/-- Address in the left block. -/
def leftAddress (shape : KernelShape) (p : TilePoint) (s : ReductionStep) : Int :=
  p.lane * shape.strideLane.left + p.m * shape.strideM.left + s.br * shape.strideBr.left +
    s.k * shape.strideK.left

/-- Address in the right block. -/
def rightAddress (shape : KernelShape) (p : TilePoint) (s : ReductionStep) : Int :=
  p.lane * shape.strideLane.right + p.n * shape.strideN.right + s.br * shape.strideBr.right +
    s.k * shape.strideK.right

/-- Address in the output block. -/
def outAddress (shape : KernelShape) (p : TilePoint) : Int :=
  p.lane * shape.strideLane.out + p.m * shape.strideM.out + p.n * shape.strideN.out

section Updates

variable {α : Type} [Scalar α] (shape : KernelShape) (left right : Int → α)

/-- The sum of the products over a list of reduction steps, from the first to the last. -/
def dot (p : TilePoint) (steps : List ReductionStep) : α :=
  steps.foldl
    (fun sum s =>
      Scalar.add sum (Scalar.mul (left (shape.leftAddress p s)) (right (shape.rightAddress p s))))
    Scalar.zero

/-- Adds a sum to an output element. -/
def addAt (address : Int) (sum : α) : Update α := ⟨address, fun old => Scalar.add old sum⟩

/-- Updates that add the whole reduction to every output element at once. -/
def realUpdates : List (Update α) :=
  let steps := shape.steps
  shape.tile.map fun p => addAt (shape.outAddress p) (shape.dot left right p steps)

/-- Updates that add one reduction block after the other. -/
def blockUpdates : List (Update α) :=
  (upTo shape.lanes).flatMap fun lane =>
    (upTo shape.br).flatMap fun br =>
      let steps := shape.blockSteps br
      (shape.lanePoints lane).map fun p =>
        addAt (shape.outAddress p) (shape.dot left right p steps)

/-- The complex sum of the products over a list of reduction steps, real part first. -/
def complexDot (p : TilePoint) (steps : List ReductionStep) : α × α :=
  steps.foldl
    (fun sum s =>
      let l := shape.leftAddress p s
      let r := shape.rightAddress p s
      let lRe := left l
      let lIm := left (l + shape.stridePlane.left)
      let rRe := right r
      let rIm := right (r + shape.stridePlane.right)
      (Scalar.add sum.1 (Scalar.sub (Scalar.mul lRe rRe) (Scalar.mul lIm rIm)),
        Scalar.add sum.2 (Scalar.add (Scalar.mul lRe rIm) (Scalar.mul lIm rRe))))
    (Scalar.zero, Scalar.zero)

/-- Updates of the real and the imaginary plane. -/
def complexUpdates : List (Update α) :=
  let steps := shape.steps
  shape.tile.flatMap fun p =>
    let sum := shape.complexDot left right p steps
    let address := shape.outAddress p
    [addAt address sum.1, addAt (address + shape.stridePlane.out) sum.2]

end Updates

end KernelShape

/-- How a main kernel computes. -/
inductive MainMethod where
  | real
  | blocks
  | complex
  /-- Computes nothing. -/
  | idle
  deriving DecidableEq

/-- A main kernel for blocks of a given shape. -/
structure MainKernel where
  method : MainMethod
  shape : KernelShape
  deriving DecidableEq

/-- The updates of the output block by one call. -/
def MainKernel.updates {α : Type} [Scalar α] (kernel : MainKernel) (left right : Int → α) :
    List (Update α) :=
  match kernel.method with
  | .real => kernel.shape.realUpdates left right
  | .blocks => kernel.shape.blockUpdates left right
  | .complex => kernel.shape.complexUpdates left right
  | .idle => []

end LoopNest
