import LoopNest.Kernel.Provider
import LoopNest.Packing.Region
import LoopNest.Parallel.Movement

/-!
# Compiled programs

A program is a loop list made ready to run. The loops outside the kernel have become a list of
levels: a sequential loop is a level of its own, the OMP loops are one level, the SFC loops are one
level. The kernels have been made, the packed regions located, and the work of every thread laid
out.

All strides and offsets of a program are in elements.
-/

namespace LoopNest

/-- How a level is executed. -/
inductive LevelKind where
  | sequential
  | flat
  | curve
  deriving DecidableEq

/-- Loops that are executed together: those with index at least `start` and below `next`. -/
structure Level where
  kind : LevelKind
  start : Nat
  next : Nat
  deriving DecidableEq

/-- The levels in front of the first kernel loop, for the loops from `index` on, of which the first
`skip` belong to the level before. An OMP level takes `omp` loops and an SFC level takes `sfc`. -/
def levelsFrom (omp sfc : Nat) : (skip index : Nat) → List Loop → List Level
  | _, _, [] => []
  | skip + 1, index, _ :: rest => levelsFrom omp sfc skip (index + 1) rest
  | 0, index, loop :: rest =>
      match loop.mode with
      | .seq => ⟨.sequential, index, index + 1⟩ :: levelsFrom omp sfc 0 (index + 1) rest
      | .omp => ⟨.flat, index, index + omp⟩ :: levelsFrom omp sfc (omp - 1) (index + 1) rest
      | .sfc => ⟨.curve, index, index + sfc⟩ :: levelsFrom omp sfc (sfc - 1) (index + 1) rest
      | .prim => []

/-- The levels of a loop list with a given parallel layout. -/
def Layout.levels (layout : Layout) : List Level :=
  levelsFrom layout.omp.length layout.sfcCount 0 0 layout.loops

/-- The kernels of a program, and the shape that they were made for. -/
structure KernelSet where
  shape : KernelShape
  main : MainKernel
  first : Option TouchKernel
  last : Option TouchKernel
  deriving DecidableEq

/-- The tags of the kernels of a contraction. An undefined touch kernel is none. -/
structure KernelTags where
  first : KernelTag
  main : KernelTag
  last : KernelTag
  deriving DecidableEq

namespace KernelTags

/-- Refuses a touch kernel that is defined and does not touch the output only. -/
def checkTouch (kernel : KernelTag) : Except Error Unit :=
  if kernel ≠ .undefined ∧ !kernel.isTouch then .error (.unsupportedTouchKernel kernel) else .ok ()

/-- Refuses tags at a place where they cannot stand. -/
def check (tags : KernelTags) : Except Error Unit := do
  checkTouch tags.first
  checkTouch tags.last
  if tags.main.primCount.isNone then .error (.unsupportedMainKernel tags.main)

/-- The touch kernel of a tag, if it is defined. -/
def makeTouch (provider : Provider) (shape : KernelShape) (kernel : KernelTag) :
    Except Error (Option TouchKernel) :=
  if kernel = .undefined then .ok none else some <$> provider.touchKernel kernel shape

/-- The kernels for the kernel loops at the end of a list. -/
def make (tags : KernelTags) (provider : Provider) (loops : List Loop) :
    Except Error KernelSet := do
  let shape ← KernelShape.ofLoops tags.main loops
  let main ← provider.mainKernel tags.main shape
  let first ← makeTouch provider shape tags.first
  let last ← makeTouch provider shape tags.last
  return ⟨shape, main, first, last⟩

/-- The first of the two touch kernels that reads the auxiliary tensor. -/
def readsAux (tags : KernelTags) : Option KernelTag :=
  [tags.first, tags.last].find? KernelTag.readsAux

end KernelTags

/-- A loop list made ready to run. -/
structure Program where
  layout : Layout
  /-- The strides of the loops; those of the SFC loops are step offsets. -/
  strides : StrideTable
  kernels : KernelSet
  left : Option PackedRegion
  right : Option PackedRegion
  slotsLeft : Nat
  slotsRight : Nat
  /-- Number of elements that a launch reaches in each buffer. -/
  extents : Operands Nat
  works : List Work

namespace Program

/-- Number of elements between the first and the last one that loops reach with the given strides,
ends included. -/
def extentBy (loops : List Loop) (stride : Loop → Int) : Nat :=
  ((loops.map fun loop => (stride loop).natAbs * (loop.size - 1)).foldl (· + ·) 0 + 1).toNat

/-- Number of elements that the loops reach in each buffer. -/
def extentsOf (loops : List Loop) : Operands Nat :=
  { left := extentBy loops fun loop => loop.bufferStride .left
    right := extentBy loops fun loop => loop.bufferStride .right
    outAux := extentBy loops fun loop => loop.strides.outAux
    out := extentBy loops fun loop => loop.strides.out }

/-- Product of the sizes of the loops with a property. -/
def sizeWhere (loops : List Loop) (p : Loop → Bool) : Int :=
  ((loops.filter p).map Loop.size).foldl (· * ·) 1

/-- At least one thread in each direction, and no more than there are tasks. -/
def clampThreads (loops : List Loop) (threads : ThreadGrid) : ThreadGrid :=
  let clamp (count : Nat) (tasks : Int) : Nat := min (max count 1) tasks.toNat
  { omp := clamp threads.omp (sizeWhere loops fun loop => loop.mode = .omp)
    m := clamp threads.m (sizeWhere loops fun loop => loop.mode = .sfc && loop.axis = .m)
    n := clamp threads.n (sizeWhere loops fun loop => loop.mode = .sfc && loop.axis = .n) }

/-- The program of a loop list. -/
def build (loops : List Loop) (kernels : KernelSet) (threads : ThreadGrid) (maxSlots : Int) :
    Except Error Program := do
  let left ← PackedRegion.ofLoops .left loops
  let right ← PackedRegion.ofLoops .right loops
  let layout ← Layout.ofLoops loops threads
  let (works, strides) ← layout.setup (strideTable loops)
  let slots := layout.cachingSlots maxSlots
  return {
    layout := layout
    strides := strides
    kernels := kernels
    left := left
    right := right
    slotsLeft := if left.isSome then slots else 0
    slotsRight := if right.isSome then slots else 0
    extents := extentsOf loops
    works := works }

variable (program : Program)

/-- The packed region of an input. -/
def region : Side → Option PackedRegion
  | .left => program.left
  | .right => program.right

/-- Number of packing slots of an input. -/
def slots : Side → Nat
  | .left => program.slotsLeft
  | .right => program.slotsRight

/-- Elements of one packing slot of an input. -/
def slotCells (side : Side) : Int :=
  match program.region side with
  | some region => region.cells
  | none => 0

/-- First scratch element of a packing slot. The slots of the right input follow those of the
left. -/
def slotAddress (side : Side) (slot : Nat) : Int :=
  match side with
  | .left => slot * program.slotCells .left
  | .right => program.slotCells .left * program.slotsLeft + slot * program.slotCells .right

/-- Scratch elements of one thread. -/
def scratchCells : Int :=
  program.slotCells .left * program.slotsLeft + program.slotCells .right * program.slotsRight

/-- Bytes of scratch memory of one thread, for elements of `width` bytes. A packing buffer of
negative extent has no size. -/
def scratchBytes (width : Nat) : Except Error Nat :=
  if program.slotCells .left < 0 ∨ program.slotCells .right < 0 then
    .error (.undefined .representableSize)
  else .ok (program.scratchCells.toNat * width)

end Program

end LoopNest
