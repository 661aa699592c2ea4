import LoopNest.Proofs.Kernel.Nest

/-!
# Kernel loops with contiguous directions

The shape of kernel loops exists as soon as each block has a contiguous direction: a loop of one
iteration, or a stride of one element or of one vector of packed lanes (`Contiguous`). Left and
right blocks may be contiguous in either of their directions, the output block in M, where its
stride is exactly one vector of lanes.
-/

namespace LoopNest

/-- A stride of one element or of one vector of packed lanes. -/
def Contiguous (lanes stride : Int) : Prop := stride = lanes ∨ stride = 1

theorem Contiguous.pos {lanes stride : Int} (h : Contiguous lanes stride) (hlanes : 1 ≤ lanes) :
    0 < stride := by
  rcases h with hlane | hone
  · omega
  · omega

namespace KernelShape

theorem isContiguous_eq_true {size stride lanes : Int} :
    isContiguous size stride lanes = true ↔ size = 1 ∨ Contiguous lanes stride := by
  simp [isContiguous, Contiguous, or_assoc]

/-! ## Input blocks -/

/-- A direction of a block: the size of a loop and its stride in the operand. -/
structure Direction where
  size : Int
  stride : Int

/-- Orientation and leading dimension of an input block. -/
def inputLayout (lanes : Int) (row column : Direction) : Option (Bool × Int) :=
  if isContiguous row.size row.stride lanes then
    some (false, if column.size = 1 then row.size * lanes else column.stride)
  else if isContiguous column.size column.stride lanes then some (true, row.stride)
  else none

theorem leftLayout_eq (m k : Loop) (lanes : Int) : leftLayout m k lanes =
    inputLayout lanes ⟨m.size, m.strides.left⟩ ⟨k.size, k.strides.left⟩ :=
  rfl

theorem rightLayout_eq (n k : Loop) (lanes : Int) : rightLayout n k lanes =
    inputLayout lanes ⟨k.size, k.strides.right⟩ ⟨n.size, n.strides.right⟩ :=
  rfl

theorem exists_inputLayout {lanes : Int} {row column : Direction}
    (h : (row.size = 1 ∨ Contiguous lanes row.stride) ∨
      column.size = 1 ∨ Contiguous lanes column.stride) :
    ∃ layout, inputLayout lanes row column = some layout := by
  rcases h with hrow | hcolumn
  · exact ⟨_, if_pos (isContiguous_eq_true.2 hrow)⟩
  · unfold inputLayout
    split
    · exact ⟨_, rfl⟩
    · exact ⟨_, if_pos (isContiguous_eq_true.2 hcolumn)⟩

/-! ## Kernel loops that have a shape -/

/-- The directions of the blocks of M, N and K loops are contiguous where they have to be. -/
structure Fits (lanes : Int) (m n k : Loop) : Prop where
  left : (m.size = 1 ∨ Contiguous lanes m.strides.left) ∨
    k.size = 1 ∨ Contiguous lanes k.strides.left
  right : (k.size = 1 ∨ Contiguous lanes k.strides.right) ∨
    n.size = 1 ∨ Contiguous lanes n.strides.right
  out : m.size = 1 ∨ m.strides.out = lanes
  outAux : m.size = 1 ∨ m.strides.outAux ≤ lanes

namespace Fits

variable {lanes : Int} {m n k : Loop}

theorem exists_layouts (h : Fits lanes m n k) :
    (∃ layout, leftLayout m k lanes = some layout) ∧ (∃ layout, rightLayout n k lanes = some layout) ∧
      (∃ layout, outLayout m n lanes = some layout) ∧ ∃ layout, auxLayout m n lanes = some layout := by
  rw [leftLayout_eq, rightLayout_eq]
  exact ⟨exists_inputLayout h.left, exists_inputLayout h.right, ⟨_, if_pos h.out⟩,
    ⟨_, if_pos h.outAux⟩⟩

/-- Real kernel loops whose blocks have contiguous directions have a shape. -/
theorem exists_shape {kernel : KernelTag} {outer : List Loop}
    (h : Fits (if kernel.hasPackedLanes then (outer.getD 0 .unit).size else 1) m n k)
    (hreal : kernel.hasComplexLoop = false) : ∃ shape, ofPrims kernel m n k outer = .ok shape := by
  obtain ⟨⟨left, hleft⟩, ⟨right, hright⟩, ⟨out, hout⟩, ⟨aux, haux⟩⟩ := h.exists_layouts
  unfold ofPrims
  dsimp only
  rw [hleft, hright, hout, haux, hreal]
  exact ⟨_, rfl⟩

end Fits

end KernelShape

end LoopNest
