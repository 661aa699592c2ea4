import LoopNest.Proofs.Kernel.Elements
import LoopNest.Proofs.Packing.Region

/-!
# Addresses of kernel calls

A kernel call reads and writes elements at addresses that are fixed by the shape of the kernel,
relative to where it is called: `MainKernel.reads` and `MainKernel.writes`, `TouchKernel.reads` and
`TouchKernel.writes`. No other element of its inputs has an influence on what a kernel does
(`MainKernel.updates_congr`, `TouchKernel.updates_congr`), and no other element of the output is
changed by it (`MainKernel.address_mem_writes`, `TouchKernel.address_mem_writes`).

All of these addresses are offsets of index tuples of the kernel loops. For inputs this holds of the
packed and of the caller's strides at once (`KernelNest.Fills.address_mem_offsets`).
-/

namespace LoopNest

variable {α : Type}

namespace KernelShape

/-- The address of an input that a step of the reduction reads for an element of the output. -/
def inputAddress (shape : KernelShape) (side : Side) (p : TilePoint) (s : ReductionStep) : Int :=
  match side with
  | .left => shape.leftAddress p s
  | .right => shape.rightAddress p s

/-- Two shapes of the same blocks, which may lie in the inputs in different ways. -/
structure SameBlocks (shape shape' : KernelShape) : Prop where
  m : shape'.m = shape.m
  n : shape'.n = shape.n
  k : shape'.k = shape.k
  br : shape'.br = shape.br
  lanes : shape'.lanes = shape.lanes
  out : shape'.outAddress = shape.outAddress
  plane : shape'.stridePlane.out = shape.stridePlane.out

namespace SameBlocks

variable {shape shape' : KernelShape}

theorem lanePoints (h : shape.SameBlocks shape') : shape'.lanePoints = shape.lanePoints := by
  funext lane
  rw [KernelShape.lanePoints, KernelShape.lanePoints, h.n, h.m]

theorem blockSteps (h : shape.SameBlocks shape') : shape'.blockSteps = shape.blockSteps := by
  funext br
  rw [KernelShape.blockSteps, KernelShape.blockSteps, h.k]

theorem tile (h : shape.SameBlocks shape') : shape'.tile = shape.tile := by
  rw [KernelShape.tile, KernelShape.tile, h.lanePoints, h.lanes]

theorem steps (h : shape.SameBlocks shape') : shape'.steps = shape.steps := by
  rw [KernelShape.steps, KernelShape.steps, h.blockSteps, h.br]

end SameBlocks

section Sums

variable [Scalar α] {shape shape' : KernelShape} {view view' : Side → Int → α} {p : TilePoint}
  {steps : List ReductionStep}

/-- A sum of products depends on the elements that its steps read. -/
theorem dot_congr (h : ∀ side, ∀ s ∈ steps,
      view side (shape.inputAddress side p s) = view' side (shape'.inputAddress side p s)) :
    shape.dot (view .left) (view .right) p steps =
      shape'.dot (view' .left) (view' .right) p steps := by
  apply List.foldl_ext
  intro sum s hs
  exact congrArg₂ (fun x y => Scalar.add sum (Scalar.mul x y)) (h .left s hs) (h .right s hs)

/-- A complex sum of products depends on the real and imaginary parts that its steps read. -/
theorem complexDot_congr (h : ∀ side, ∀ part ∈ MainMethod.complex.parts, ∀ s ∈ steps,
      view side (shape.inputAddress side p s + part.plane * shape.stridePlane.input side) =
        view' side (shape'.inputAddress side p s + part.plane * shape'.stridePlane.input side)) :
    shape.complexDot (view .left) (view .right) p steps =
      shape'.complexDot (view' .left) (view' .right) p steps := by
  apply List.foldl_ext
  intro sum s hs
  have hreal := fun side => h side .real (by decide) s hs
  have himaginary := fun side => h side .imaginary (by decide) s hs
  simp only [Part.plane, zero_mul, add_zero, one_mul] at hreal himaginary
  have hl := hreal .left
  have hr := hreal .right
  have hl' := himaginary .left
  have hr' := himaginary .right
  simp only [inputAddress, Operands.input] at hl hr hl' hr'
  dsimp only
  rw [hl, hr, hl', hr']

end Sums

end KernelShape

/-! ## Main kernels -/

namespace MainKernel

/-- The addresses from which a main kernel reads an input. -/
def reads (kernel : MainKernel) (side : Side) : List Int :=
  kernel.method.parts.flatMap fun part =>
    kernel.shape.tile.flatMap fun p =>
      kernel.shape.steps.map fun s =>
        kernel.shape.inputAddress side p s + part.plane * kernel.shape.stridePlane.input side

/-- The addresses of the output that a main kernel updates. -/
def writes (kernel : MainKernel) : List Int :=
  kernel.method.parts.flatMap fun part =>
    kernel.shape.tile.map fun p => kernel.shape.touchAddress part.plane p

theorem mem_reads {kernel : MainKernel} {side : Side} {a : Int} :
    a ∈ kernel.reads side ↔ ∃ part ∈ kernel.method.parts, ∃ p ∈ kernel.shape.tile,
      ∃ s ∈ kernel.shape.steps,
        kernel.shape.inputAddress side p s + part.plane * kernel.shape.stridePlane.input side = a := by
  simp only [reads, List.mem_flatMap, List.mem_map]

variable [Scalar α]

/-- Kernels that find the same elements in the same blocks make the same updates. -/
theorem updates_eq {method : MainMethod} {shape shape' : KernelShape} (h : shape.SameBlocks shape')
    {view view' : Side → Int → α}
    (hview : ∀ side, ∀ part ∈ method.parts, ∀ p ∈ shape.tile, ∀ s ∈ shape.steps,
      view side (shape.inputAddress side p s + part.plane * shape.stridePlane.input side) =
        view' side (shape'.inputAddress side p s + part.plane * shape'.stridePlane.input side)) :
    updates ⟨method, shape⟩ (view .left) (view .right) =
      updates ⟨method, shape'⟩ (view' .left) (view' .right) := by
  -- a method without planes reads whole products, which lie in the first plane
  have hdot : .whole ∈ method.parts → ∀ p ∈ shape.tile, ∀ steps : List ReductionStep,
      (∀ s ∈ steps, s ∈ shape.steps) →
        shape.dot (view .left) (view .right) p steps =
          shape'.dot (view' .left) (view' .right) p steps := by
    intro hwhole p hp steps hmem
    apply KernelShape.dot_congr
    intro side s hs
    have hsame := hview side .whole hwhole p hp s (hmem s hs)
    rwa [Part.plane, zero_mul, zero_mul, add_zero, add_zero] at hsame
  cases method with
  | real =>
      show shape.realUpdates _ _ = shape'.realUpdates _ _
      rw [KernelShape.realUpdates, KernelShape.realUpdates, h.tile, h.steps, h.out]
      apply List.map_congr_left
      intro p hp
      rw [hdot (by decide) p hp _ fun s hs => hs]
  | blocks =>
      show shape.blockUpdates _ _ = shape'.blockUpdates _ _
      rw [KernelShape.blockUpdates, KernelShape.blockUpdates, h.lanePoints, h.blockSteps, h.lanes,
        h.br, h.out]
      refine List.flatMap_congr fun lane hlane => List.flatMap_congr fun br hbr =>
        List.map_congr_left fun p hp => ?_
      rw [hdot (by decide) p (List.mem_flatMap.2 ⟨lane, hlane, hp⟩) _ fun s hs =>
        List.mem_flatMap.2 ⟨br, hbr, hs⟩]
  | complex =>
      show shape.complexUpdates _ _ = shape'.complexUpdates _ _
      rw [KernelShape.complexUpdates, KernelShape.complexUpdates, h.tile, h.steps, h.out, h.plane]
      apply List.flatMap_congr
      intro p hp
      rw [KernelShape.complexDot_congr fun side part hpart s hs => hview side part hpart p hp s hs]
  | idle => rfl

/-- What a main kernel does depends on no element that it does not read. -/
theorem updates_congr {kernel : MainKernel} {view view' : Side → Int → α}
    (h : ∀ side, ∀ a ∈ kernel.reads side, view side a = view' side a) :
    kernel.updates (view .left) (view .right) = kernel.updates (view' .left) (view' .right) := by
  have hsame : kernel.shape.SameBlocks kernel.shape := ⟨rfl, rfl, rfl, rfl, rfl, rfl, rfl⟩
  apply updates_eq hsame
  intro side part hpart p hp s hs
  exact h side _ (mem_reads.2 ⟨part, hpart, p, hp, s, hs, rfl⟩)

/-- A main kernel changes no element that it does not write. -/
theorem address_mem_writes {kernel : MainKernel} {left right : Int → α} {u : Update α}
    (hu : u ∈ kernel.updates left right) : u.address ∈ kernel.writes := by
  obtain ⟨part, hpart, p, hp, haddress⟩ := mem_updates hu
  rw [haddress, ← KernelShape.touchAddress_eq]
  exact List.mem_flatMap.2 ⟨part, hpart, List.mem_map_of_mem hp⟩

end MainKernel

/-! ## Touch kernels -/

namespace TouchKernel

/-- The addresses of the auxiliary block that a touch kernel reads. -/
def reads (kernel : TouchKernel) : List Int :=
  match kernel.method with
  | .copy | .add => kernel.shape.planePoints.map fun b => kernel.shape.auxAddress b.1 b.2
  | _ => []

/-- The addresses of the output that a touch kernel updates. -/
def writes (kernel : TouchKernel) : List Int :=
  match kernel.method with
  | .idle => []
  | _ => kernel.shape.planePoints.map fun b => kernel.shape.touchAddress b.1 b.2

variable [Scalar α] {kernel : TouchKernel}

/-- What a touch kernel does depends on no auxiliary element that it does not read. -/
theorem updates_congr {aux aux' : Int → α} (h : ∀ a ∈ kernel.reads, aux a = aux' a) :
    kernel.updates aux = kernel.updates aux' := by
  obtain ⟨method, shape⟩ := kernel
  have hread : ∀ b ∈ shape.planePoints, shape.auxAddress b.1 b.2 ∈
      shape.planePoints.map fun b => shape.auxAddress b.1 b.2 := fun b hb =>
    List.mem_map_of_mem (f := fun b : Int × TilePoint => shape.auxAddress b.1 b.2) hb
  cases method with
  | zero => rfl
  | relu => rfl
  | idle => rfl
  | copy =>
      apply List.map_congr_left
      intro b hb
      exact congrArg (fun x => Update.mk _ fun old => TouchMethod.copy.apply x old)
        (h _ (hread b hb))
  | add =>
      apply List.map_congr_left
      intro b hb
      exact congrArg (fun x => Update.mk _ fun old => TouchMethod.add.apply x old)
        (h _ (hread b hb))

/-- A touch kernel changes no element that it does not write. -/
theorem address_mem_writes {aux : Int → α} {u : Update α} (hu : u ∈ kernel.updates aux) :
    u.address ∈ kernel.writes := by
  obtain ⟨method, shape⟩ := kernel
  have hmap : ∀ apply : Int × TilePoint → α → α,
      u ∈ shape.planePoints.map (fun b => ⟨shape.touchAddress b.1 b.2, apply b⟩) →
        u.address ∈ shape.planePoints.map fun b => shape.touchAddress b.1 b.2 := by
    intro apply hu
    obtain ⟨b, hb, rfl⟩ := List.mem_map.1 hu
    exact List.mem_map_of_mem (f := fun b : Int × TilePoint => shape.touchAddress b.1 b.2) hb
  cases method with
  | idle => exact absurd hu List.not_mem_nil
  | zero => exact hmap _ hu
  | relu => exact hmap _ hu
  | copy => exact hmap _ hu
  | add => exact hmap _ hu

end TouchKernel

/-! ## Addresses as offsets of the kernel loops -/

namespace KernelNest.Fills

variable {nest : KernelNest} {kernel : List Loop} (h : nest.Fills kernel) (base : KernelShape)
  (hsizes : ∀ loop ∈ nest.loops, 1 ≤ loop.size)

include h hsizes

/-- The addresses of a step in an input, in all planes, are those of an index tuple: through the
packed block and through the caller's buffer. -/
theorem address_mem_offsets (side : Side) {p : TilePoint} {s : ReductionStep}
    (hp : p ∈ (nest.shape base Loop.strides).tile)
    (hs : s ∈ (nest.shape base Loop.strides).steps) {i : Int} (hi : i ∈ upTo nest.plane.size) :
    ((nest.shape base Loop.callerStrides).inputAddress side p s +
        i * nest.plane.callerStrides.input side,
      (nest.shape base Loop.strides).inputAddress side p s + i * nest.plane.strides.input side) ∈
        offsets (Loop.sideStrides side) kernel := by
  obtain ⟨hlane, hn, hm⟩ := KernelShape.mem_tile.1 hp
  obtain ⟨hbr, hk⟩ := KernelShape.mem_steps.1 hs
  -- a loop that does not move in the input stands at its first iteration
  have hzero : ∀ loop ∈ nest.loops, (0 : Int) ∈ upTo loop.size := fun loop hloop =>
    mem_upTo.2 ⟨Int.le_refl 0, hsizes loop hloop⟩
  cases side with
  | left =>
      have hmem := h.mem_offsets (Loop.sideStrides .left) hi hlane hbr hm
        (hzero nest.n (by simp [loops])) hk
      simp only [Loop.sideStrides, Loop.stride, Prod.smul_mk, Prod.mk_add_mk, smul_eq_mul, zero_mul,
        zero_add] at hmem
      simp only [KernelShape.inputAddress, KernelShape.leftAddress, shape, Loop.callerStrides,
        Operands.input]
      convert hmem using 2 <;> ring
  | right =>
      have hmem := h.mem_offsets (Loop.sideStrides .right) hi hlane hbr
        (hzero nest.m (by simp [loops])) hn hk
      simp only [Loop.sideStrides, Loop.stride, Prod.smul_mk, Prod.mk_add_mk, smul_eq_mul, zero_mul,
        zero_add] at hmem
      simp only [KernelShape.inputAddress, KernelShape.rightAddress, shape, Loop.callerStrides,
        Operands.input]
      convert hmem using 2 <;> ring

/-- An element of the output block lies at the offset of an index tuple. -/
theorem elementOffset_mem_offsets {plane : Int} (hplane : plane ∈ upTo nest.plane.size)
    {p : TilePoint} (hp : p ∈ (nest.shape base Loop.callerStrides).tile) :
    (nest.shape base Loop.callerStrides).elementOffset plane p ∈
      offsets Loop.callerStrides kernel := by
  obtain ⟨hlane, hn, hm⟩ := KernelShape.mem_tile.1 hp
  have hzero : ∀ loop ∈ nest.loops, (0 : Int) ∈ upTo loop.size := fun loop hloop =>
    mem_upTo.2 ⟨Int.le_refl 0, hsizes loop hloop⟩
  have hmem := h.mem_offsets Loop.callerStrides hplane hlane (hzero nest.br (by simp [loops])) hm hn
    (hzero nest.k (by simp [loops]))
  rw [zero_smul, zero_smul, zero_add, add_zero, add_comm (p.m • _)] at hmem
  exact hmem

end KernelNest.Fills

end LoopNest
