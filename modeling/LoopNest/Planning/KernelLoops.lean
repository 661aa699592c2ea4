import LoopNest.Planning.BufferStrides
import LoopNest.Planning.Split
import LoopNest.Planning.Targets

/-!
# Installing the kernel loops

The candidates are split to their target sizes and the inner parts are appended to the loop list, so
that the kernel loops stand at its end: a complex loop, the batch loop, the packed lanes, then M, N
and K. A slot that the kernel needs and that has no loop of more than one iteration is filled with a
loop of one iteration.

The complex loop is taken out before anything else (`takeComplex`): a complex kernel needs exactly
one, of size two, and a real kernel none.
-/

namespace LoopNest

/-- A loop list whose last loops are the kernel loops, and the kernel they belong to. -/
structure Kerneled where
  loops : List Loop
  kernel : KernelTag
  deriving DecidableEq

/-- Takes the complex loop out of a list. -/
def takeComplex (kernel : KernelTag) (loops : List Loop) :
    Except Error (Option Loop × List Loop) :=
  match lightest loops .cpx none with
  | some found =>
      let rest := loops.eraseIdx found.index
      if found.loop.size ≠ 2 ∨ kernel ≠ .cpxMadd then
        .error (.invalidComplex (.loop found.loop.size kernel))
      else if (lightest rest .cpx none).isSome then .error (.invalidComplex .several)
      else .ok (some found.loop, rest)
  | none => if kernel = .cpxMadd then .error (.invalidComplex .absent) else .ok (none, loops)

/-- The main kernel for the loops that were chosen. -/
def refineKernel (kernel : KernelTag) (complex : Bool) (targets : Slots Int) : KernelTag :=
  if complex then (if 1 < targets.c then .cpxPackedMadd else .cpxMadd)
  else if 1 < targets.c then .packedMadd
  else if 1 < targets.br then .brMadd
  else kernel

/-- A kernel loop of one iteration. -/
def placeholder (axis : Axis) : Loop := { Loop.unit with axis := axis, mode := .prim }

/-- Fills one kernel slot: with the inner part of its candidate if the target asks for more than one
iteration, with a placeholder if the slot may not stay empty. -/
def installSlot (axis : Axis) (required : Bool) (candidate : Option Found) (target : Int)
    (loops : List Loop) : Except Error (List Loop) :=
  match candidate with
  | some found =>
      if 1 < target then splitAt loops found.index target .prim
      else .ok (if required then loops ++ [placeholder axis] else loops)
  | none => .ok (if required then loops ++ [placeholder axis] else loops)

/-- Splits a further packed loop and appends its inner part. -/
def installExtra (candidate : Option Found) (target : Int) (loops : List Loop) :
    Except Error (List Loop) :=
  match candidate with
  | some found => splitAt loops found.index target .seq
  | none => .ok loops

/-- Fills all kernel slots, from the outermost to the innermost. -/
def installSlots (chosen : Candidates) (targets : Slots Int) (loops : List Loop) :
    Except Error (List Loop) := do
  let loops ← installSlot .k chosen.batchRequired chosen.slots.br targets.br loops
  let loops ← installSlot .c false chosen.slots.c targets.c loops
  let loops ← installSlot .m true chosen.slots.m targets.m loops
  let loops ← installSlot .n true chosen.slots.n targets.n loops
  installSlot .k true chosen.slots.k targets.k loops

/-- Gives the packed inputs the strides of their packing buffers. -/
def packInputs (settings : Settings) (kernel : KernelTag) (chosen : Candidates)
    (loops : List Loop) : List Loop :=
  let lanes := if settings.packedSupport = .allStrideOne then .innermost else .outermost
  let extraLoops := chosen.extraLeft.toList ++ chosen.extraRight.toList
  let order := bufferOrder kernel lanes extraLoops.length
  let loops := if chosen.packLeft then assignBufferStrides .left order 1 loops else loops
  if chosen.packRight then assignBufferStrides .right order 1 loops else loops

/-- Chooses the kernel loops of a list and installs them at its end. -/
def installKernel (settings : Settings) (kernel : KernelTag) (loops : List Loop) :
    Except Error Kerneled := do
  if kernel ≠ .madd ∧ kernel ≠ .cpxMadd then .error (.unsupportedMainKernel kernel)
  let (complex, loops) ← takeComplex kernel loops
  let chosen ← candidates settings loops
  let targets ← targetSizes settings chosen loops
  let loops ← installExtra chosen.extraRight targets.extraPacking loops
  let loops ← installExtra chosen.extraLeft targets.extraPacking loops
  let kernel := refineKernel kernel complex.isSome targets.slots
  let loops := loops ++ (complex.map fun loop => { loop with mode := .prim }).toList
  let loops ← installSlots chosen targets.slots loops
  return ⟨packInputs settings kernel chosen loops, kernel⟩

end LoopNest
