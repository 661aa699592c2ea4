import LoopNest.Guarded
import LoopNest.Planning.Search
import LoopNest.Settings

/-!
# Candidates for the kernel loops

A kernel multiplies an M by K block of the left input with a K by N block of the right input,
possibly for a batch of reduction blocks and for a vector of packed lanes. `candidates` picks a loop
for each of these slots.

The loop with output stride one decides. If it is a batch loop and the kernels support packed lanes,
it becomes the lane loop and the search goes on at the stride behind it. The M loop is the one
innermost in the output; if it is not innermost in the left input, the left block is transposed. The
N loop and the K loop follow from the right input where possible. An input whose innermost loop is
left over is packed, and that loop is packed with it.
-/

namespace LoopNest

/-- One value for each kernel slot: batch reduction, packed lanes, M, N and K. -/
structure Slots (α : Type) where
  br : α
  c : α
  m : α
  n : α
  k : α
  deriving DecidableEq

/-- A function applied in every slot. -/
def Slots.map {α β : Type} (f : α → β) (slots : Slots α) : Slots β :=
  ⟨f slots.br, f slots.c, f slots.m, f slots.n, f slots.k⟩

/-- The last loops with given strides in left, right and out. -/
structure Innermost where
  left : Option Found
  right : Option Found
  out : Option Found
  deriving DecidableEq

/-- The last loops with given strides in left, right and out. -/
def innermost (loops : List Loop) (left right out : Int) : Innermost :=
  { left := lastWith loops fun loop => loop.strides.left = left
    right := lastWith loops fun loop => loop.strides.right = right
    out := lastWith loops fun loop => loop.strides.out = out }

/-- What was decided on the kernel loops: the loop of each slot, which inputs are packed, which
further loop of an input is packed with it, whether the batch slot must be filled, and whether an
input is transposed. -/
structure Candidates where
  slots : Slots (Option Found) := ⟨none, none, none, none, none⟩
  packLeft : Bool := false
  packRight : Bool := false
  extraLeft : Option Found := none
  extraRight : Option Found := none
  batchRequired : Bool := false
  transposedLeft : Bool := false
  transposedRight : Bool := false
  deriving DecidableEq

namespace Candidates

/-- Picks the packed lanes, and the innermost loops behind them. -/
def lanes (support : PackedSupport) (loops : List Loop) : Candidates × Innermost :=
  let inner := innermost loops 1 1 1
  match inner.out with
  | some found =>
      if support ≠ .none ∧ found.loop.axis = .c then
        let everywhere : Bool := support = .allStrideOne
        let packLeft := everywhere && inner.left ≠ some found
        let packRight := everywhere && inner.right ≠ some found
        let size := found.loop.size
        let chosen : Candidates := {
          slots := ⟨none, some found, none, none, none⟩
          packLeft := packLeft
          packRight := packRight }
        (chosen,
          innermost loops (if everywhere && !packLeft then size else 1)
            (if everywhere && !packRight then size else 1) size)
      else ({}, inner)
  | none => ({}, inner)

/-- Picks the M loop. -/
def pickM (chosen : Candidates) (inner : Innermost) : Candidates :=
  if Found.hasAxis inner.out .m then
    { chosen with
      slots := { chosen.slots with m := inner.out }
      transposedLeft := inner.out ≠ inner.left }
  else chosen

/-- Picks the N loop. -/
def pickN (chosen : Candidates) (loops : List Loop) (inner : Innermost) : Candidates :=
  if Found.hasAxis inner.right .n then
    { chosen with slots := { chosen.slots with n := inner.right }, transposedRight := true }
  else { chosen with slots := { chosen.slots with n := lightest loops .n none } }

/-- Packs the left input along its innermost loop. -/
def withExtraLeft (chosen : Candidates) (inner : Innermost) : Candidates :=
  { chosen with packLeft := true, extraLeft := inner.left }

/-- Packs the right input along its innermost loop. -/
def withExtraRight (chosen : Candidates) (inner : Innermost) : Candidates :=
  { chosen with packRight := true, extraRight := inner.right }

/-- Picks the K loop: from the right input unless it is transposed, from the left input if that is
transposed, else the lightest one. -/
def pickK (chosen : Candidates) (loops : List Loop) (inner : Innermost) : Candidates :=
  if !chosen.transposedRight && Found.hasAxis inner.right .k then
    let chosen := { chosen with slots := { chosen.slots with k := inner.right } }
    if chosen.transposedLeft && inner.left ≠ inner.right then chosen.withExtraLeft inner
    else chosen
  else if chosen.transposedLeft && Found.hasAxis inner.left .k then
    let chosen := { chosen with slots := { chosen.slots with k := inner.left } }
    if chosen.transposedRight then chosen else chosen.withExtraRight inner
  else
    match lightest loops .k none with
    | none => chosen
    | some found =>
        let chosen := { chosen with slots := { chosen.slots with k := some found } }
        let chosen := if chosen.transposedLeft then chosen.withExtraLeft inner else chosen
        if chosen.transposedRight then chosen else chosen.withExtraRight inner

/-- Picks the batch loop if the kernels reduce over batches and there are no packed lanes. A further
packed loop that is a K loop becomes the batch loop. -/
def pickBatch (chosen : Candidates) (batchReduce : Bool) (loops : List Loop) : Candidates :=
  if batchReduce && Found.size chosen.slots.c ≤ 1 then
    if Found.hasAxis chosen.extraLeft .k then
      { chosen with
        slots := { chosen.slots with br := chosen.extraLeft }
        extraLeft := none
        batchRequired := true }
    else if Found.hasAxis chosen.extraRight .k then
      { chosen with
        slots := { chosen.slots with br := chosen.extraRight }
        extraRight := none
        batchRequired := true }
    else
      match chosen.slots.k with
      | some found =>
          { chosen with
            slots := { chosen.slots with br := lightest loops .k (some found.index) } }
      | none => chosen
  else chosen

/-- Whether a loop of more than one iteration has a stride on a multiple of `aliasing`. -/
def aliases (found : Option Found) (side : Side) (aliasing : Int) : Except Error Bool :=
  match found with
  | none => .ok false
  | some f => do return 1 < f.loop.size && (← remainder (f.loop.stride side) aliasing) = 0

/-- Packs the inputs whose kernel strides fall on multiples of `aliasing`, and a transposed left
input. -/
def packAliasing (chosen : Candidates) (aliasing : Int) : Except Error Candidates := do
  let kLeft ← aliases chosen.slots.k .left aliasing
  let mLeft ← aliases chosen.slots.m .left aliasing
  let kRight ← aliases chosen.slots.k .right aliasing
  let nRight ← aliases chosen.slots.n .right aliasing
  return { chosen with
    packLeft := chosen.packLeft || kLeft || mLeft || chosen.transposedLeft
    packRight := chosen.packRight || kRight || nRight }

/-- The sizes of the candidates, 1 for an empty slot. -/
def sizes (chosen : Candidates) : Slots Int := chosen.slots.map Found.size

end Candidates

/-- Picks the kernel loops of a list and the inputs to pack. -/
def candidates (settings : Settings) (loops : List Loop) : Except Error Candidates :=
  let (chosen, inner) := Candidates.lanes settings.packedSupport loops
  let chosen := chosen.pickM inner
  let chosen := chosen.pickN loops inner
  let chosen := chosen.pickK loops inner
  let chosen := chosen.pickBatch settings.batchReduce loops
  chosen.packAliasing settings.aliasing

end LoopNest
