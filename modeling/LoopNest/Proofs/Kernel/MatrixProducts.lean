import LoopNest.Kernel.Provider
import LoopNest.Proofs.Kernel.Elements

/-!
# Kernels made of matrix products

The main kernels of the matrix-product provider hand one product of strided matrices to a library for
each lane and each reduction block (`KernelShape.matrixCalls`). All that is asked of the library is
that it adds each entry of the product to the element at the address of that entry (`AddsProducts`);
in which order it does so, and how it sums up an entry, is its own affair. Entries that share an
address are all added to it.

The strided kernels sum over all reduction blocks first, and add once for each point of the tile.
Where elements are added exactly, both leave the same output (`Provider.matrix_eq_strided`). A routine
that adds products does what the updates in order do (`AddsProducts.eq_updateAll`), these are the
updates of the kernel that adds block by block (`KernelShape.blockUpdates_eq`), and to add block by
block is to add all at once, whether or not points meet.
-/

namespace LoopNest

/-- A matrix within a buffer. -/
structure MatrixView where
  start : Int
  rows : Int
  columns : Int
  rowStride : Int
  columnStride : Int

namespace MatrixView

/-- Address of an entry. -/
def address (view : MatrixView) (row column : Int) : Int :=
  view.start + row * view.rowStride + column * view.columnStride

/-- The entries as row and column, column by column. -/
def cells (view : MatrixView) : List (Int × Int) :=
  (upTo view.columns).flatMap fun column => (upTo view.rows).map fun row => (row, column)

end MatrixView

/-- A product of a left and a right matrix that is added to an output matrix. -/
structure MatrixCall where
  out : MatrixView
  left : MatrixView
  right : MatrixView

/-- The sizes of the three matrices are those of a product. -/
structure MatrixCall.Fits (call : MatrixCall) : Prop where
  rows : call.left.rows = call.out.rows
  columns : call.right.columns = call.out.columns
  inner : call.right.rows = call.left.columns
  rows_nonneg : 0 ≤ call.out.rows
  columns_nonneg : 0 ≤ call.out.columns
  inner_nonneg : 0 ≤ call.left.columns

/-- A library routine that adds products: from the operands of a call and the elements before it to the
elements after it. -/
abbrev MatrixProduct (α : Type) := MatrixCall → (Int → α) → (Int → α) → Buffer α → Buffer α

namespace KernelShape

/-- The product for a lane and a reduction block, with the output block at `base`. -/
def matrixCall (shape : KernelShape) (base lane br : Int) : MatrixCall where
  out := ⟨base + lane * shape.strideLane.out, shape.m, shape.n, shape.strideM.out, shape.strideN.out⟩
  left := ⟨lane * shape.strideLane.left + br * shape.strideBr.left, shape.m, shape.k,
    shape.strideM.left, shape.strideK.left⟩
  right := ⟨lane * shape.strideLane.right + br * shape.strideBr.right, shape.k, shape.n,
    shape.strideK.right, shape.strideN.right⟩

/-- The products of one kernel call, lanes slowest. -/
def matrixCalls (shape : KernelShape) (base : Int) : List MatrixCall :=
  (upTo shape.lanes).flatMap fun lane => (upTo shape.br).map (shape.matrixCall base lane)

theorem fits_of_mem_matrixCalls {shape : KernelShape} (hm : 0 ≤ shape.m) (hn : 0 ≤ shape.n)
    (hk : 0 ≤ shape.k) (base : Int) : ∀ call ∈ shape.matrixCalls base, call.Fits := by
  intro call hcall
  obtain ⟨lane, -, hcall⟩ := List.mem_flatMap.1 hcall
  obtain ⟨br, -, rfl⟩ := List.mem_map.1 hcall
  exact ⟨rfl, rfl, rfl, hm, hn, hk⟩

end KernelShape

variable {α : Type} [Scalar α]

/-- One product after the other. -/
def runProducts (matmul : MatrixProduct α) (left right : Int → α) (calls : List MatrixCall)
    (out : Buffer α) : Buffer α :=
  calls.foldl (fun out call => matmul call left right out) out

/-! ## Products in order -/

namespace MatrixCall

/-- An entry of the product, summed up from the first to the last inner index. -/
def dot (call : MatrixCall) (left right : Int → α) (cell : Int × Int) : α :=
  (upTo call.left.columns).foldl
    (fun sum k =>
      Scalar.add sum
        (Scalar.mul (left (call.left.address cell.1 k)) (right (call.right.address k cell.2))))
    Scalar.zero

/-- Updates that add one entry after the other. -/
def updates (call : MatrixCall) (left right : Int → α) : List (Update α) :=
  call.out.cells.map fun cell =>
    KernelShape.addAt (call.out.address cell.1 cell.2) (call.dot left right cell)

end MatrixCall

namespace KernelShape

variable (shape : KernelShape) (base : Int)

theorem lanePoints_eq (lane br : Int) :
    shape.lanePoints lane = (shape.matrixCall base lane br).out.cells.map fun cell =>
      ⟨lane, cell.2, cell.1⟩ := by
  simp [lanePoints, matrixCall, MatrixView.cells, List.map_flatMap, Function.comp_def]

theorem outAddress_cell (lane br : Int) (cell : Int × Int) :
    base + shape.outAddress ⟨lane, cell.2, cell.1⟩ =
      (shape.matrixCall base lane br).out.address cell.1 cell.2 := by
  simp only [outAddress, matrixCall, MatrixView.address]
  ring

theorem leftAddress_cell (lane br k : Int) (cell : Int × Int) :
    shape.leftAddress ⟨lane, cell.2, cell.1⟩ ⟨br, k⟩ =
      (shape.matrixCall base lane br).left.address cell.1 k := by
  simp only [leftAddress, matrixCall, MatrixView.address]
  ring

theorem rightAddress_cell (lane br k : Int) (cell : Int × Int) :
    shape.rightAddress ⟨lane, cell.2, cell.1⟩ ⟨br, k⟩ =
      (shape.matrixCall base lane br).right.address k cell.2 := by
  simp only [rightAddress, matrixCall, MatrixView.address]
  ring

theorem dot_cell (left right : Int → α) (lane br : Int) (cell : Int × Int) :
    shape.dot left right ⟨lane, cell.2, cell.1⟩ (shape.blockSteps br) =
      (shape.matrixCall base lane br).dot left right cell := by
  simp only [dot, blockSteps, List.foldl_map, leftAddress_cell shape base,
    rightAddress_cell shape base]
  rfl

theorem shift_addAt (address : Int) (sum : α) :
    (addAt address sum).shift base = addAt (base + address) sum := rfl

/-- The updates of a kernel that adds block by block are those of its products. -/
theorem blockUpdates_eq (left right : Int → α) :
    (shape.blockUpdates left right).map (fun u => u.shift base) =
      (shape.matrixCalls base).flatMap fun call => call.updates left right := by
  simp only [blockUpdates, matrixCalls, List.map_flatMap, List.flatMap_assoc, List.flatMap_map]
  refine List.flatMap_congr fun lane _ => List.flatMap_congr fun br _ => ?_
  rw [lanePoints_eq shape base lane br, List.map_map, List.map_map, MatrixCall.updates]
  refine List.map_congr_left fun cell _ => ?_
  rw [Function.comp_apply, Function.comp_apply, shift_addAt, dot_cell shape base,
    outAddress_cell shape base lane br]

end KernelShape

/-! ## Products that are added exactly -/

variable [AddCommMonoid α]

namespace MatrixCall

/-- An entry of the product. -/
def entry (call : MatrixCall) (left right : Int → α) (cell : Int × Int) : α :=
  ((upTo call.left.columns).map fun k =>
    Scalar.mul (left (call.left.address cell.1 k)) (right (call.right.address k cell.2))).sum

/-- All that is added to the element at an address. -/
def amountAt (call : MatrixCall) (left right : Int → α) (address : Int) : α :=
  (call.out.cells.map fun cell =>
    if call.out.address cell.1 cell.2 = address then call.entry left right cell else 0).sum

end MatrixCall

/-- The routine adds each entry of a product to the element at the address of the entry in the output,
and changes nothing else. -/
structure AddsProducts (matmul : MatrixProduct α) : Prop where
  size : ∀ {call : MatrixCall}, call.Fits → ∀ left right out,
    (matmul call left right out).size = out.size
  read : ∀ {call : MatrixCall}, call.Fits → ∀ left right out address,
    Buffer.read? (matmul call left right out) address =
      (Buffer.read? out address).map fun old => old + call.amountAt left right address

variable [ExactSum α]

theorem MatrixCall.dot_eq_entry (call : MatrixCall) (left right : Int → α) (cell : Int × Int) :
    call.dot left right cell = call.entry left right cell := by
  simp only [dot, ExactSum.add_eq, ExactSum.zero_eq]
  rw [KernelShape.foldl_add_eq, zero_add]
  rfl

theorem MatrixCall.read_updates (call : MatrixCall) (left right : Int → α) (out : Buffer α)
    (address : Int) :
    Buffer.read? (out.updateAll (call.updates left right)) address =
      (Buffer.read? out address).map fun old => old + call.amountAt left right address := by
  rw [Buffer.read?_updateAll]
  refine congrArg (fun f => Option.map f _) (funext fun old => ?_)
  rw [updates, effectAt_adds, amountAt]
  simp only [dot_eq_entry]

/-- Products in order are added exactly where elements are. -/
theorem addsProducts_updates :
    AddsProducts fun call (left right : Int → α) out => out.updateAll (call.updates left right) where
  size _ _ _ out := Buffer.size_updateAll out _
  read _ := MatrixCall.read_updates _

namespace AddsProducts

variable {matmul : MatrixProduct α}

/-- A routine that adds products does what products in order do. -/
theorem eq_updateAll (h : AddsProducts matmul) {call : MatrixCall} (hfits : call.Fits)
    (left right : Int → α) (out : Buffer α) :
    matmul call left right out = out.updateAll (call.updates left right) := by
  apply Buffer.ext_read?
  · rw [h.size hfits, Buffer.size_updateAll]
  · intro address
    rw [h.read hfits, call.read_updates]

theorem run_eq_updateAll (h : AddsProducts matmul) {calls : List MatrixCall}
    (hfits : ∀ call ∈ calls, call.Fits) (left right : Int → α) (out : Buffer α) :
    runProducts matmul left right calls out =
      out.updateAll (calls.flatMap fun call => call.updates left right) := by
  apply foldl_updateAll
  rw [List.forall₂_same]
  exact fun call hcall => h.eq_updateAll (hfits call hcall) left right

end AddsProducts

/-- Block by block or all at once, the strided sums leave the same output. -/
theorem KernelShape.updateAll_blockUpdates (shape : KernelShape) (left right : Int → α) (base : Int)
    (out : Buffer α) :
    out.updateAll ((shape.blockUpdates left right).map fun u => u.shift base) =
      out.updateAll ((shape.realUpdates left right).map fun u => u.shift base) := by
  refine Buffer.updateAll_congr (fun address x => ?_) out
  have hblock := effectAt_blockUpdates_eq shape left right (address - base) x
  rwa [← effectAt_shift (address - base) base, ← effectAt_shift (address - base) base,
    add_sub_cancel] at hblock

/-! ## Two providers -/

/-- The main kernels of the strided and of the matrix-product provider leave the same output, for every
real kernel and every library routine that adds products exactly, wherever the output block stands in
its buffer. Points of the tile may share addresses. -/
theorem Provider.matrix_eq_strided {matmul : MatrixProduct α} (hmatmul : AddsProducts matmul)
    {tag : KernelTag} (htag : tag = .madd ∨ tag = .brMadd ∨ tag = .packedMadd) {shape : KernelShape}
    (hm : 0 ≤ shape.m) (hn : 0 ≤ shape.n) (hk : 0 ≤ shape.k) (left right : Int → α) (base : Int)
    (out : Buffer α) :
    ∃ strided matrix : MainKernel, Provider.strided.mainKernel tag shape = .ok strided ∧
      Provider.matrix.mainKernel tag shape = .ok matrix ∧
      out.updateAll ((matrix.updates left right).map fun u => u.shift base) =
        out.updateAll ((strided.updates left right).map fun u => u.shift base) ∧
      runProducts matmul left right (shape.matrixCalls base) out =
        out.updateAll ((strided.updates left right).map fun u => u.shift base) := by
  have hkernels : Provider.strided.mainKernel tag shape = .ok ⟨.real, shape⟩ ∧
      Provider.matrix.mainKernel tag shape = .ok ⟨.blocks, shape⟩ := by
    rcases htag with rfl | rfl | rfl <;> exact ⟨rfl, rfl⟩
  have hblocks := shape.updateAll_blockUpdates left right base out
  refine ⟨_, _, hkernels.1, hkernels.2, hblocks, ?_⟩
  rw [hmatmul.run_eq_updateAll (KernelShape.fits_of_mem_matrixCalls hm hn hk base),
    ← shape.blockUpdates_eq]
  exact hblocks

/-- Two reduction blocks of two by two matrices. The columns of the output share their addresses, and
its rows are stored backwards. -/
def foldedShape : KernelShape where
  m := 2
  n := 2
  k := 2
  br := 2
  strideM := ⟨1, 0, 0, -1⟩
  strideN := ⟨0, 2, 0, 0⟩
  strideK := ⟨2, 1, 0, 0⟩
  strideBr := ⟨4, 4, 0, 0⟩

/-- The columns of the product are added up, by two products as by one sum for each point. -/
theorem Provider.matrix_eq_strided_foldedShape :
    ∃ strided matrix : MainKernel, Provider.strided.mainKernel .brMadd foldedShape = .ok strided ∧
      Provider.matrix.mainKernel .brMadd foldedShape = .ok matrix ∧
      Buffer.updateAll #[5, 7] ((matrix.updates id id).map fun u => u.shift 1) =
        Buffer.updateAll #[5, 7] ((strided.updates id id).map fun u => u.shift 1) ∧
      runProducts (fun call left right out => out.updateAll (call.updates left right)) id id
          (foldedShape.matrixCalls 1) #[5, 7] =
        Buffer.updateAll #[5, 7] ((strided.updates id id).map fun u => u.shift 1) := by
  have hm : 0 ≤ foldedShape.m := by decide
  have hn : 0 ≤ foldedShape.n := by decide
  have hk : 0 ≤ foldedShape.k := by decide
  exact Provider.matrix_eq_strided addsProducts_updates (.inr (.inl rfl)) hm hn hk id id 1 #[5, 7]

example : Buffer.updateAll #[5, 7]
    ((foldedShape.realUpdates id id).map fun u => u.shift 1) = #[153, 127] := by decide

end LoopNest
