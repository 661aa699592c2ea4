import LoopNest.Proofs.Kernel.Contiguity

/-!
# Leading dimensions

A shape describes the blocks of a kernel call twice: by the strides of the M, N and K loops, which
is how the loops step through the operands, and as matrices with an orientation and a leading
dimension, which is how a matrix product is told about them. Both descriptions give every element
of the blocks the same offset (`KernelShape.matrixOffset_of_ofLoops`), whatever the strides are and
whichever of the loops have one iteration.

A loop of one iteration stands at index 0, so its stride and the leading dimension in its place
need not agree (`mul_eq_mul_of_mem_upTo`). `IsMatrix` is what the layouts of all three blocks have
in common: one direction is contiguous, and the leading dimension is the stride of the other.
-/

namespace LoopNest

/-- Only a loop of more than one iteration has an index whose offset depends on the stride. -/
theorem mul_eq_mul_of_mem_upTo {size stride stride' i : Int} (h : size = 1 ∨ stride' = stride)
    (hi : i ∈ upTo size) : i * stride = i * stride' := by
  rcases h with hone | heq
  · have hbounds := mem_upTo.1 hi
    obtain rfl : i = 0 := by omega
    rw [zero_mul, zero_mul]
  · rw [heq]

namespace KernelShape

/-- The offset of an element of a matrix. Rows are contiguous in steps of a unit and columns lie a
leading dimension apart, or the other way round in a transposed matrix. -/
def matrixOffset (transposed : Bool) (unit leading row column : Int) : Int :=
  if transposed then column * unit + row * leading else row * unit + column * leading

/-- Number of packed lanes of the kernel loops at the end of a list. -/
def packedLanes (kernel : KernelTag) (loops : List Loop) : Int :=
  if kernel.hasPackedLanes then ((trailing loops).getD 3 .unit).size else 1

/-- A shape has the blocks of M, N and K loops: their sizes, and in the matrices of its leading
dimensions each element has the offset of its index tuple. -/
structure HasBlocks (shape : KernelShape) (m n k : Loop) (unitLeft unitRight : Int) : Prop where
  sizes : shape.m = m.size ∧ shape.n = n.size ∧ shape.k = k.size
  left : ∀ i ∈ upTo m.size, ∀ l ∈ upTo k.size, i * m.strides.left + l * k.strides.left =
    matrixOffset shape.transposedLeft unitLeft shape.leadingLeft i l
  right : ∀ l ∈ upTo k.size, ∀ j ∈ upTo n.size, l * k.strides.right + j * n.strides.right =
    matrixOffset shape.transposedRight unitRight shape.leadingRight l j
  out : ∀ i ∈ upTo m.size, ∀ j ∈ upTo n.size, i * m.strides.out + j * n.strides.out =
    matrixOffset false shape.lanes shape.leadingOut i j
  outAux : ∀ i ∈ upTo m.size, ∀ j ∈ upTo n.size, i * m.strides.outAux + j * n.strides.outAux =
    i * shape.auxM + j * shape.auxN

/-! ## Layouts of single blocks -/

/-- One direction of a block is contiguous, and the leading dimension is the stride of the other. A
direction of one iteration may have any stride. -/
structure IsMatrix (lanes : Int) (fast slow : Direction) (leading : Int) : Prop where
  fast : fast.size = 1 ∨ Contiguous lanes fast.stride
  slow : slow.size = 1 ∨ leading = slow.stride

/-- The contiguous direction has a unit, with which the offsets are those of a matrix. -/
theorem IsMatrix.exists_unit {lanes leading : Int} {fast slow : Direction}
    (h : IsMatrix lanes fast slow leading) : ∃ unit, (unit = 1 ∨ unit = lanes) ∧
      ∀ i ∈ upTo fast.size, ∀ j ∈ upTo slow.size,
        i * fast.stride + j * slow.stride = i * unit + j * leading := by
  obtain ⟨unit, hunit, hstride⟩ : ∃ unit, (unit = 1 ∨ unit = lanes) ∧
      (fast.size = 1 ∨ unit = fast.stride) := by
    rcases h.fast with hone | hlanes | hunit
    · exact ⟨1, .inl rfl, .inl hone⟩
    · exact ⟨lanes, .inr rfl, .inr hlanes.symm⟩
    · exact ⟨1, .inl rfl, .inr hunit.symm⟩
  refine ⟨unit, hunit, fun i hi j hj => ?_⟩
  rw [mul_eq_mul_of_mem_upTo hstride hi, mul_eq_mul_of_mem_upTo h.slow hj]

/-- A matrix in one of the two orientations. -/
def IsOriented (transposed : Bool) (lanes : Int) (row column : Direction) (leading : Int) : Prop :=
  if transposed then IsMatrix lanes column row leading else IsMatrix lanes row column leading

theorem IsOriented.exists_unit {transposed : Bool} {lanes leading : Int} {row column : Direction}
    (h : IsOriented transposed lanes row column leading) : ∃ unit, (unit = 1 ∨ unit = lanes) ∧
      ∀ i ∈ upTo row.size, ∀ j ∈ upTo column.size, i * row.stride + j * column.stride =
        matrixOffset transposed unit leading i j := by
  cases transposed with
  | false => exact IsMatrix.exists_unit h
  | true =>
      obtain ⟨unit, hunit, hoffset⟩ := IsMatrix.exists_unit h
      refine ⟨unit, hunit, fun i hi j hj => ?_⟩
      rw [add_comm]
      exact hoffset j hj i hi

section Layouts

variable {m n k : Loop} {lanes leading : Int} {transposed : Bool}

theorem inputLayout_eq_some {row column : Direction}
    (h : inputLayout lanes row column = some (transposed, leading)) :
    IsOriented transposed lanes row column leading := by
  unfold inputLayout at h
  split at h
  · rename_i hrow
    obtain ⟨rfl, rfl⟩ := Prod.mk.inj (Option.some.inj h)
    refine ⟨isContiguous_eq_true.1 hrow, ?_⟩
    by_cases hcolumn : column.size = 1
    · exact .inl hcolumn
    · exact .inr (if_neg hcolumn)
  · split at h
    · rename_i hcolumn
      obtain ⟨rfl, rfl⟩ := Prod.mk.inj (Option.some.inj h)
      exact ⟨isContiguous_eq_true.1 hcolumn, .inr rfl⟩
    · exact absurd h (by simp)

/-- The output block is contiguous in M, in steps of exactly one vector of lanes. -/
theorem outLayout_eq_some (h : outLayout m n lanes = some leading) :
    (m.size = 1 ∨ lanes = m.strides.out) ∧ (n.size = 1 ∨ leading = n.strides.out) := by
  unfold outLayout at h
  split at h
  · rename_i hm
    obtain rfl := Option.some.inj h
    refine ⟨hm.imp id Eq.symm, ?_⟩
    by_cases hn : n.size = 1
    · exact .inl hn
    · exact .inr (if_neg hn)
  · exact absurd h (by simp)

end Layouts

/-! ## Blocks of a shape -/

/-- The shape of M, N and K loops has their blocks. -/
theorem hasBlocks_of_ofPrims {kernel : KernelTag} {m n k : Loop} {outer : List Loop}
    {shape : KernelShape} (h : ofPrims kernel m n k outer = .ok shape) :
    ∃ unitLeft unitRight, (unitLeft = 1 ∨ unitLeft = shape.lanes) ∧
      (unitRight = 1 ∨ unitRight = shape.lanes) ∧ shape.HasBlocks m n k unitLeft unitRight := by
  obtain ⟨⟨transposedLeft, leadingLeft⟩, hleft, h⟩ := bind_eq_ok.1 h
  obtain ⟨⟨transposedRight, leadingRight⟩, hright, h⟩ := bind_eq_ok.1 h
  obtain ⟨leadingOut, hout, h⟩ := bind_eq_ok.1 h
  obtain ⟨⟨auxM, auxN⟩, haux, h⟩ := bind_eq_ok.1 h
  obtain ⟨-, h⟩ := guard_bind_eq_ok.1 h
  obtain rfl := pure_eq_ok.1 h
  rw [leftLayout_eq] at hleft
  rw [rightLayout_eq] at hright
  obtain ⟨unitLeft, hunitLeft, hleft⟩ := (inputLayout_eq_some (require_eq_ok hleft)).exists_unit
  obtain ⟨unitRight, hunitRight, hright⟩ := (inputLayout_eq_some (require_eq_ok hright)).exists_unit
  obtain ⟨houtM, houtN⟩ := outLayout_eq_some (require_eq_ok hout)
  obtain ⟨hauxM, hauxN⟩ := auxLayout_eq_some (require_eq_ok haux)
  refine ⟨unitLeft, unitRight, hunitLeft, hunitRight, ⟨rfl, rfl, rfl⟩, hleft, hright,
    fun i hi j hj => ?_, fun i hi j hj => ?_⟩
  · rw [mul_eq_mul_of_mem_upTo houtM hi, mul_eq_mul_of_mem_upTo houtN hj]
    rfl
  · rw [mul_eq_mul_of_mem_upTo hauxM hi, mul_eq_mul_of_mem_upTo hauxN hj]

/-- The leading dimensions of every shape that is made describe the blocks of its M, N and K loops,
which are the last three of the list, with units of one element or of one vector of packed lanes. -/
theorem matrixOffset_of_ofLoops {kernel : KernelTag} {loops : List Loop} {shape : KernelShape}
    (h : ofLoops kernel loops = .ok shape) :
    ∃ front m n k unitLeft unitRight, loops = front ++ [m, n, k] ∧
      (m.axis = .m ∧ n.axis = .n ∧ k.axis = .k) ∧
      shape.lanes = packedLanes kernel loops ∧
      (unitLeft = 1 ∨ unitLeft = shape.lanes) ∧ (unitRight = 1 ∨ unitRight = shape.lanes) ∧
      shape.HasBlocks m n k unitLeft unitRight := by
  obtain ⟨⟨⟩, hcheck, h⟩ := bind_eq_ok.1 h
  split at h
  · rename_i k n m outer hprims
    rw [hprims] at hcheck
    obtain ⟨-, horder, -, -⟩ := checkAxes_eq_ok hcheck
    obtain ⟨hk, hn, hm⟩ : k.axis = .k ∧ n.axis = .n ∧ m.axis = .m := by simpa using horder
    obtain ⟨unitLeft, unitRight, hunitLeft, hunitRight, hblocks⟩ := hasBlocks_of_ofPrims h
    obtain ⟨front, hfront⟩ := kernelEnd_suffix loops
    have hloops : loops = (front ++ outer.reverse) ++ [m, n, k] := by
      rw [← hfront, kernelEnd, hprims]
      simp
    have hlanes : shape.lanes = packedLanes kernel loops := by
      have hlane := congrArg KernelShape.lanes (ofPrims_eq_ok h).1
      rw [packedLanes, hprims, ← hlane]
      exact size_ite_unit _ _
    exact ⟨_, m, n, k, unitLeft, unitRight, hloops, ⟨hm, hn, hk⟩, hlanes, hunitLeft, hunitRight,
      hblocks⟩
  · exact absurd h (by simp)

/-- Four packed lanes of blocks with 2, 3 and 1 iterations in M, N and K. The left input moves by
seven elements in K, where it has no second iteration, and by neither one nor four in M. -/
def lanesInK : List Loop :=
  [⟨.c, .prim, 4, ⟨1, 1, 1, 1⟩, 0, 0⟩,
    ⟨.m, .prim, 2, ⟨20, 0, 0, 4⟩, 0, 0⟩,
    ⟨.n, .prim, 3, ⟨0, 4, 0, 8⟩, 0, 0⟩,
    ⟨.k, .prim, 1, ⟨7, 9, 0, 0⟩, 0, 0⟩]

theorem matrixOffset_lanesInK : ∃ shape, ofLoops .packedMadd lanesInK = .ok shape ∧
    (shape.transposedLeft, shape.leadingLeft) = (true, 20) ∧
    ∃ front m n k unitLeft unitRight, lanesInK = front ++ [m, n, k] ∧
      (m.axis = .m ∧ n.axis = .n ∧ k.axis = .k) ∧
      shape.lanes = packedLanes .packedMadd lanesInK ∧
      (unitLeft = 1 ∨ unitLeft = shape.lanes) ∧ (unitRight = 1 ∨ unitRight = shape.lanes) ∧
      shape.HasBlocks m n k unitLeft unitRight :=
  ⟨_, rfl, rfl, matrixOffset_of_ofLoops rfl⟩

end KernelShape

end LoopNest
