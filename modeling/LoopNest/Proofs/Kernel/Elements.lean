import LoopNest.Kernel.Provider
import LoopNest.Proofs.Kernel.Nest
import LoopNest.Proofs.Memory

/-!
# What kernels do to single elements

Over exact integers, a call of a main kernel adds to each element of the output block the products
of all steps of the reduction (`MainKernel.effectAt_updates`), in whatever order its method takes
them. An element of a complex block gets the real or the imaginary part of each product, depending
on its plane (`Part`). A touch kernel replaces each element by a function of itself and the
auxiliary element that belongs to it (`TouchKernel.effectAt_updates`).

Both statements need elements that do not meet in the output. Whether the reduction is added block by
block or all at once makes no difference even where they meet (`KernelShape.effectAt_blockUpdates_eq`).
-/

namespace LoopNest

/-! ## Parts of a product -/

/-- What an output element gets of a product. -/
inductive Part where
  | whole
  | real
  | imaginary
  deriving DecidableEq

namespace Part

/-- The plane of the output elements that get a part. -/
def plane : Part → Int
  | .whole | .real => 0
  | .imaginary => 1

/-- A part of the product of the elements at an offset. The imaginary parts of the factors lie
`plane` further on. -/
def product (part : Part) (left right : Int → Int) (plane x : Operands Int) : Int :=
  match part with
  | .whole => left x.left * right x.right
  | .real => left x.left * right x.right - left (x + plane).left * right (x + plane).right
  | .imaginary => left x.left * right (x + plane).right + left (x + plane).left * right x.right

end Part

/-- The parts that a method computes. -/
def MainMethod.parts : MainMethod → List Part
  | .real | .blocks => [.whole]
  | .complex => [.real, .imaginary]
  | .idle => []

namespace KernelTag

/-- The parts that a main kernel computes. -/
def parts (tag : KernelTag) : List Part :=
  if tag.hasComplexLoop then [.real, .imaginary] else [.whole]

/-- The value that a touch kernel leaves, from the auxiliary and the old value of an element. -/
def touch (tag : KernelTag) (aux old : Int) : Int :=
  match tag with
  | zero | cpxZero => 0
  | relu => max 0 old
  | add | cpxAdd => old + aux
  | copy | cpxCopy => aux
  | _ => old

end KernelTag

/-! ## Addresses as offsets -/

namespace KernelShape

variable {shape : KernelShape}

/-- Offset of an element of the output block in one of the planes. -/
def elementOffset (shape : KernelShape) (plane : Int) (p : TilePoint) : Operands Int :=
  plane • shape.stridePlane + shape.pointOffset p

/-- The offsets of all elements of the output block. -/
def elements (shape : KernelShape) : List (Operands Int) :=
  sumset (multiples shape.planes shape.stridePlane) (shape.tile.map shape.pointOffset)

theorem map_elementOffset :
    shape.planePoints.map (fun b => shape.elementOffset b.1 b.2) = shape.elements := by
  simp [planePoints, elements, sumset, multiples, List.map_flatMap, List.flatMap_map,
    Function.comp_def, elementOffset]

/-- The elements of the output block are the index tuples of all loops but K. -/
theorem elements_perm {nest : KernelNest} {kernel : List Loop} (h : nest.Fills kernel)
    (base : KernelShape) (stride : Loop → Operands Int) :
    (offsets stride (kernel.filter fun loop => !decide (loop.axis = .k))).Perm
      (nest.shape base stride).elements := by
  rw [h.offsets_filter _ fun axis => !decide (axis = .k), elements, map_pointOffset]
  simp only [KernelNest.slotOffsets, reduceCtorEq, decide_true, decide_false, Bool.not_true,
    Bool.not_false, Bool.false_eq_true, if_true, if_false, zero_sumset, sumset_zero]
  exact sumset_perm (List.Perm.refl _) (sumset_perm (List.Perm.refl _) (sumset_comm _ _))

theorem touchAddress_eq (plane : Int) (p : TilePoint) :
    shape.touchAddress plane p = (shape.elementOffset plane p).out := by
  simp only [touchAddress, outAddress, elementOffset, pointOffset, Operands.zsmul_eq_scale,
    Operands.add_out, Operands.scale_out]
  ring

theorem outAddress_eq (p : TilePoint) : shape.outAddress p = (shape.elementOffset 0 p).out := by
  rw [← touchAddress_eq, touchAddress, zero_mul, zero_add]

theorem auxAddress_eq (haux : shape.AuxFits) (plane : Int) {p : TilePoint} (hp : p ∈ shape.tile) :
    shape.auxAddress plane p = (shape.elementOffset plane p).outAux := by
  obtain ⟨-, hn, hm⟩ := mem_tile.1 hp
  have hm : p.m * shape.auxM = p.m * shape.strideM.outAux := by
    rcases haux.m with hone | heq
    · rw [hone, upTo_one, List.mem_singleton] at hm
      rw [hm, zero_mul, zero_mul]
    · rw [heq]
  have hn : p.n * shape.auxN = p.n * shape.strideN.outAux := by
    rcases haux.n with hone | heq
    · rw [hone, upTo_one, List.mem_singleton] at hn
      rw [hn, zero_mul, zero_mul]
    · rw [heq]
  rw [auxAddress, hm, hn]
  simp only [elementOffset, pointOffset, Operands.zsmul_eq_scale, Operands.add_outAux,
    Operands.scale_outAux]
  ring

/-- N does not move in the left block, and M does not move in the right one. -/
structure Aligned (shape : KernelShape) : Prop where
  n : shape.strideN.left = 0
  m : shape.strideM.right = 0

theorem leftAddress_eq (h : shape.Aligned) (p : TilePoint) (s : ReductionStep) :
    shape.leftAddress p s = (shape.pointOffset p + shape.stepOffset s).left := by
  simp only [leftAddress, pointOffset, stepOffset, Operands.zsmul_eq_scale, Operands.add_left,
    Operands.scale_left, h.n]
  ring

theorem rightAddress_eq (h : shape.Aligned) (p : TilePoint) (s : ReductionStep) :
    shape.rightAddress p s = (shape.pointOffset p + shape.stepOffset s).right := by
  simp only [rightAddress, pointOffset, stepOffset, Operands.zsmul_eq_scale, Operands.add_right,
    Operands.scale_right, h.m]
  ring

/-! ## Sums of products -/

/-- The sum of a part of the products at an element over some steps of the reduction. -/
def sumOf (shape : KernelShape) (part : Part) (left right : Int → Int) (p : TilePoint)
    (steps : List ReductionStep) : Int :=
  (steps.map fun s =>
    part.product left right shape.stridePlane (shape.pointOffset p + shape.stepOffset s)).sum

theorem foldl_add_eq {α β : Type} [AddCommMonoid α] (f : β → α) (steps : List β) (x : α) :
    steps.foldl (fun sum s => sum + f s) x = x + (steps.map f).sum := by
  induction steps generalizing x with
  | nil => exact (add_zero x).symm
  | cons s rest ih => rw [List.foldl_cons, ih, List.map_cons, List.sum_cons, add_assoc]

section ExactSum

variable {α : Type} [Scalar α] [AddCommMonoid α] [ExactSum α] (left right : Int → α)

theorem dot_eq_sum (p : TilePoint) (steps : List ReductionStep) :
    shape.dot left right p steps =
      (steps.map fun s =>
        Scalar.mul (left (shape.leftAddress p s)) (right (shape.rightAddress p s))).sum := by
  simp only [dot, ExactSum.add_eq, ExactSum.zero_eq]
  rw [foldl_add_eq, zero_add]

/-- The whole reduction is the sum over its blocks. -/
theorem dot_steps (p : TilePoint) :
    shape.dot left right p shape.steps =
      ((upTo shape.br).map fun br => shape.dot left right p (shape.blockSteps br)).sum := by
  simp only [dot_eq_sum]
  rw [steps, sum_map_flatMap]

/-- To add one reduction block after the other is to add the whole reduction at once: the sum over the
blocks and the sum over the points of a lane are exchanged. Points may share addresses. -/
theorem effectAt_blockUpdates_eq (shape : KernelShape) (left right : Int → α) (address : Int)
    (x : α) :
    effectAt address (shape.blockUpdates left right) x =
      effectAt address (shape.realUpdates left right) x := by
  have hupdates : shape.blockUpdates left right =
      ((upTo shape.lanes).flatMap fun lane => (upTo shape.br).flatMap fun br =>
        (shape.lanePoints lane).map (Prod.mk br)).map fun b =>
          addAt (shape.outAddress b.2) (shape.dot left right b.2 (shape.blockSteps b.1)) := by
    simp [blockUpdates, List.map_flatMap, Function.comp_def]
  rw [hupdates, effectAt_adds, realUpdates, effectAt_adds, tile, sum_map_flatMap, sum_map_flatMap]
  refine congrArg (x + List.sum ·) (List.map_congr_left fun lane _ => ?_)
  rw [sum_map_flatMap]
  simp only [List.map_map, Function.comp_def]
  have hexchange := Multiset.sum_map_sum_map (upTo shape.br : Multiset Int)
    (shape.lanePoints lane : Multiset TilePoint) (f := fun br p =>
      if shape.outAddress p = address then shape.dot left right p (shape.blockSteps br) else 0)
  simp only [Multiset.map_coe, Multiset.sum_coe] at hexchange
  rw [hexchange]
  refine congrArg List.sum (List.map_congr_left fun p _ => ?_)
  split
  · exact (dot_steps left right p).symm
  · exact List.sum_map_zero

end ExactSum

theorem dot_eq_sumOf (h : shape.Aligned) (left right : Int → Int) (p : TilePoint)
    (steps : List ReductionStep) :
    shape.dot left right p steps = shape.sumOf .whole left right p steps := by
  rw [dot_eq_sum]
  refine congrArg List.sum (List.map_congr_left fun s _ => ?_)
  rw [leftAddress_eq h, rightAddress_eq h]
  rfl

theorem foldl_pair_add_eq (f g : ReductionStep → Int) (steps : List ReductionStep) (x : Int × Int) :
    steps.foldl (fun sum s => (sum.1 + f s, sum.2 + g s)) x =
      (x.1 + (steps.map f).sum, x.2 + (steps.map g).sum) := by
  induction steps generalizing x with
  | nil => simp
  | cons s rest ih =>
      rw [List.foldl_cons, ih]
      simp [add_assoc]

theorem complexDot_eq_sumOf (h : shape.Aligned) (left right : Int → Int) (p : TilePoint)
    (steps : List ReductionStep) :
    shape.complexDot left right p steps =
      (shape.sumOf .real left right p steps, shape.sumOf .imaginary left right p steps) := by
  refine (foldl_pair_add_eq _ _ steps (0, 0)).trans (Prod.ext ?_ ?_)
  · refine (zero_add _).trans (congrArg List.sum (List.map_congr_left fun s _ => ?_))
    rw [leftAddress_eq h, rightAddress_eq h]
    rfl
  · refine (zero_add _).trans (congrArg List.sum (List.map_congr_left fun s _ => ?_))
    rw [leftAddress_eq h, rightAddress_eq h]
    rfl

/-! ## Main kernels -/

/-- The addresses of the elements of the output block do not meet. -/
def Apart (shape : KernelShape) : Prop := (shape.elements.map Operands.out).Nodup

theorem Apart.nodup_touchAddress (h : shape.Apart) :
    (shape.planePoints.map fun b => shape.touchAddress b.1 b.2).Nodup := by
  rw [Apart, ← map_elementOffset, List.map_map] at h
  rwa [List.map_congr_left fun (b : Int × TilePoint) _ => touchAddress_eq b.1 b.2]

theorem Apart.nodup_outAddress (h : shape.Apart) (hplanes : 0 ∈ upTo shape.planes) :
    (shape.tile.map shape.outAddress).Nodup := by
  have hplane := (List.nodup_flatMap.1 ((List.map_flatMap ▸ h.nodup_touchAddress :
    ((upTo shape.planes).flatMap _).Nodup))).1 0 hplanes
  rw [List.map_map] at hplane
  refine (List.map_congr_left fun p _ => ?_) ▸ hplane
  rw [Function.comp_apply, touchAddress_eq, outAddress_eq]

variable (left right : Int → Int) {p : TilePoint}

/-- The whole reduction is added at once. -/
theorem effectAt_realUpdates (halign : shape.Aligned) (hnodup : (shape.tile.map shape.outAddress).Nodup)
    (hp : p ∈ shape.tile) (x : Int) :
    effectAt (shape.outAddress p) (shape.realUpdates left right) x =
      x + shape.sumOf .whole left right p shape.steps := by
  rw [← dot_eq_sumOf halign]
  exact effectAt_map (fun p old => Scalar.add old (shape.dot left right p shape.steps)) hnodup hp x

/-- The blocks of the reduction are added one after the other. -/
theorem effectAt_blockUpdates (halign : shape.Aligned)
    (hnodup : (shape.tile.map shape.outAddress).Nodup) (hp : p ∈ shape.tile) (x : Int) :
    effectAt (shape.outAddress p) (shape.blockUpdates left right) x =
      x + shape.sumOf .whole left right p shape.steps := by
  rw [effectAt_blockUpdates_eq shape left right]
  exact effectAt_realUpdates left right halign hnodup hp x

/-- The real parts are added in the first plane and the imaginary parts in the second. -/
theorem effectAt_complexUpdates (halign : shape.Aligned) (hapart : shape.Apart)
    (hplanes : shape.planes = 2) {part : Part} (hpart : part ∈ MainMethod.complex.parts)
    (hp : p ∈ shape.tile) (x : Int) :
    effectAt (shape.touchAddress part.plane p) (shape.complexUpdates left right) x =
      x + shape.sumOf part left right p shape.steps := by
  have hupdates : shape.complexUpdates left right =
      (shape.tile.flatMap fun p => [(Part.real, p), (Part.imaginary, p)]).map fun b =>
        addAt (shape.touchAddress b.1.plane b.2) (shape.sumOf b.1 left right b.2 shape.steps) := by
    simp only [complexUpdates, complexDot_eq_sumOf halign, List.map_flatMap, List.map_cons,
      List.map_nil, Part.plane, touchAddress, zero_mul, zero_add, one_mul]
    exact List.flatMap_congr fun p _ => by rw [add_comm]
  -- the kernel writes both parts of one point in a row, the tile lists one part after the other
  have hswap : (shape.tile.flatMap fun p => [(Part.real, p), (Part.imaginary, p)]).Perm
      (MainMethod.complex.parts.flatMap fun part => shape.tile.map (Prod.mk part)) := by
    have hcomm := Multiset.bind_map_comm (shape.tile : Multiset TilePoint)
      (MainMethod.complex.parts : Multiset Part) (f := fun p part => (part, p))
    simp only [Multiset.map_coe, Multiset.coe_bind, Multiset.coe_eq_coe] at hcomm
    exact hcomm
  have hnodup : ((shape.tile.flatMap fun p => [(Part.real, p), (Part.imaginary, p)]).map fun b =>
      shape.touchAddress b.1.plane b.2).Nodup := by
    have := hapart.nodup_touchAddress
    rw [(hswap.map _).nodup_iff]
    simpa [planePoints, hplanes, upTo, List.range_succ, MainMethod.parts, Part.plane,
      Function.comp_def] using this
  rw [hupdates]
  refine effectAt_map (fun b old => Scalar.add old (shape.sumOf b.1 left right b.2 shape.steps))
    hnodup (b := (part, p)) ?_ x
  exact hswap.mem_iff.2 (List.mem_flatMap.2 ⟨part, hpart, List.mem_map_of_mem hp⟩)

end KernelShape

/-- A call of a main kernel adds to an element the products of all steps of the reduction. -/
theorem MainKernel.effectAt_updates {kernel : MainKernel} {left right : Int → Int}
    (halign : kernel.shape.Aligned) (hapart : kernel.shape.Apart)
    (hplanes : kernel.method.parts.map Part.plane = upTo kernel.shape.planes) {part : Part}
    (hpart : part ∈ kernel.method.parts) {p : TilePoint} (hp : p ∈ kernel.shape.tile) (x : Int) :
    effectAt (kernel.shape.elementOffset part.plane p).out (kernel.updates left right) x =
      x + kernel.shape.sumOf part left right p kernel.shape.steps := by
  obtain ⟨method, shape⟩ := kernel
  -- a kernel without parts writes whole elements, each of them once
  have hwhole : ∀ {method : MainMethod}, method.parts = [.whole] → part ∈ method.parts →
      method.parts.map Part.plane = upTo shape.planes →
      part = .whole ∧ (shape.tile.map shape.outAddress).Nodup := by
    intro method hparts hpart hplanes
    rw [hparts] at hpart hplanes
    refine ⟨List.mem_singleton.1 hpart, hapart.nodup_outAddress ?_⟩
    rw [← hplanes]
    exact List.mem_singleton.2 rfl
  cases method with
  | real =>
      obtain ⟨rfl, hnodup⟩ := hwhole rfl hpart hplanes
      have := KernelShape.effectAt_realUpdates left right halign hnodup hp x
      rwa [KernelShape.outAddress_eq] at this
  | blocks =>
      obtain ⟨rfl, hnodup⟩ := hwhole rfl hpart hplanes
      have := KernelShape.effectAt_blockUpdates left right halign hnodup hp x
      rwa [KernelShape.outAddress_eq] at this
  | complex =>
      -- the two parts of a complex element lie in two planes
      have htwo : shape.planes = 2 := by
        have hlength := congrArg List.length hplanes
        rw [length_upTo] at hlength
        simp only [MainMethod.parts, List.map_cons, List.map_nil, List.length_cons,
          List.length_nil] at hlength
        omega
      rw [← KernelShape.touchAddress_eq]
      exact KernelShape.effectAt_complexUpdates left right halign hapart htwo hpart hp x
  | idle => exact absurd hpart List.not_mem_nil

/-- A main kernel changes elements of its output block only. -/
theorem MainKernel.mem_updates {α : Type} [Scalar α] {kernel : MainKernel} {left right : Int → α}
    {u : Update α} (hu : u ∈ kernel.updates left right) :
    ∃ part ∈ kernel.method.parts, ∃ p ∈ kernel.shape.tile,
      u.address = (kernel.shape.elementOffset part.plane p).out := by
  obtain ⟨method, shape⟩ := kernel
  cases method with
  | real =>
      obtain ⟨p, hp, rfl⟩ := List.mem_map.1 hu
      exact ⟨.whole, List.mem_singleton.2 rfl, p, hp, KernelShape.outAddress_eq p⟩
  | blocks =>
      obtain ⟨lane, hlane, hu⟩ := List.mem_flatMap.1 hu
      obtain ⟨br, -, hu⟩ := List.mem_flatMap.1 hu
      obtain ⟨p, hp, rfl⟩ := List.mem_map.1 hu
      exact ⟨.whole, List.mem_singleton.2 rfl, p, List.mem_flatMap.2 ⟨lane, hlane, hp⟩,
        KernelShape.outAddress_eq p⟩
  | complex =>
      obtain ⟨p, hp, hu⟩ := List.mem_flatMap.1 hu
      -- the imaginary parts are one plane behind the real ones
      rcases List.mem_cons.1 hu with rfl | hu
      · exact ⟨.real, List.mem_cons_self, p, hp, KernelShape.outAddress_eq p⟩
      · obtain rfl := List.mem_singleton.1 hu
        refine ⟨.imaginary, List.mem_cons_of_mem _ List.mem_cons_self, p, hp, ?_⟩
        rw [← KernelShape.touchAddress_eq, KernelShape.touchAddress, Part.plane, one_mul, add_comm]
        rfl
  | idle => exact absurd hu List.not_mem_nil

/-! ## Touch kernels -/

/-- A call of a touch kernel replaces an element by a function of itself and of the auxiliary
element at the same offset. -/
theorem TouchKernel.effectAt_updates {kernel : TouchKernel} {aux : Int → Int}
    (haux : kernel.shape.AuxFits) (hapart : kernel.shape.Apart) {plane : Int}
    (hplane : plane ∈ upTo kernel.shape.planes) {p : TilePoint} (hp : p ∈ kernel.shape.tile)
    (x : Int) :
    effectAt (kernel.shape.elementOffset plane p).out (kernel.updates aux) x =
      kernel.method.apply (aux (kernel.shape.elementOffset plane p).outAux) x := by
  have hmem : (plane, p) ∈ kernel.shape.planePoints :=
    List.mem_flatMap.2 ⟨plane, hplane, List.mem_map_of_mem hp⟩
  have hall := effectAt_map (fun b : Int × TilePoint =>
    kernel.method.apply (aux (kernel.shape.auxAddress b.1 b.2))) hapart.nodup_touchAddress hmem x
  rw [KernelShape.auxAddress_eq haux plane hp, KernelShape.touchAddress_eq] at hall
  unfold updates
  split
  · rename_i hidle
    rw [hidle]
    rfl
  · exact hall

/-- A touch kernel changes elements of its output block only. -/
theorem TouchKernel.mem_updates {α : Type} [Scalar α] {kernel : TouchKernel} {aux : Int → α}
    {u : Update α} (hu : u ∈ kernel.updates aux) :
    ∃ plane ∈ upTo kernel.shape.planes, ∃ p ∈ kernel.shape.tile,
      u.address = (kernel.shape.elementOffset plane p).out := by
  unfold updates at hu
  split at hu
  · exact absurd hu List.not_mem_nil
  · obtain ⟨⟨plane, p⟩, hmem, rfl⟩ := List.mem_map.1 hu
    obtain ⟨plane', hplane, hmem⟩ := List.mem_flatMap.1 hmem
    obtain ⟨p', hp, heq⟩ := List.mem_map.1 hmem
    obtain ⟨rfl, rfl⟩ := Prod.mk.inj heq
    exact ⟨plane', hplane, p', hp, KernelShape.touchAddress_eq plane' p'⟩

/-! ## Kernels of providers -/

namespace Provider

variable {provider : Provider} {tag : KernelTag} {shape : KernelShape}

/-- The main kernel of a tag computes its parts, unless it only records. -/
theorem mainKernel_eq_ok (hprovider : provider ≠ .recording) {main : MainKernel}
    (h : provider.mainKernel tag shape = .ok main) :
    main.shape = shape ∧ main.method.parts = tag.parts := by
  have hstrided : ∀ {main}, stridedMain tag shape = .ok main →
      main.shape = shape ∧ main.method.parts = tag.parts := by
    intro main h
    obtain ⟨⟨⟩, -, h⟩ := bind_eq_ok.1 h
    split at h <;> first | (obtain rfl := pure_eq_ok.1 h; exact ⟨rfl, rfl⟩) | exact absurd h (by simp)
  -- the matrix provider falls back on the strided kernels
  cases provider with
  | strided => exact hstrided h
  | matrix =>
      unfold mainKernel at h
      dsimp only at h
      split at h
      · obtain rfl := Except.ok.inj h
        exact ⟨rfl, rfl⟩
      · obtain rfl := Except.ok.inj h
        exact ⟨rfl, rfl⟩
      · obtain rfl := Except.ok.inj h
        exact ⟨rfl, rfl⟩
      · exact hstrided h
  | recording => exact absurd rfl hprovider

/-- The touch kernel of a tag does what the tag says, unless it only records. -/
theorem touchKernel_eq_ok (hprovider : provider ≠ .recording) {kernel : TouchKernel}
    (h : provider.touchKernel tag shape = .ok kernel) :
    kernel.shape = shape ∧ ∀ aux old : Int, kernel.method.apply aux old = tag.touch aux old := by
  have hrelu : ∀ aux old : Int, TouchMethod.relu.apply aux old = max 0 old := by
    intro aux old
    show (if decide (old < 0) = true then 0 else old) = max 0 old
    by_cases h : old < 0
    · rw [if_pos (decide_eq_true h), max_eq_left (Int.le_of_lt h)]
    · rw [if_neg (by simpa using h), max_eq_right (Int.not_lt.1 h)]
  have hstrided : stridedTouch tag shape = .ok kernel → kernel.shape = shape ∧
      ∀ aux old : Int, kernel.method.apply aux old = tag.touch aux old := by
    intro h
    obtain ⟨⟨⟩, -, h⟩ := bind_eq_ok.1 h
    split at h <;> first
      | (obtain rfl := pure_eq_ok.1 h; exact ⟨rfl, fun _ _ => rfl⟩)
      | (obtain rfl := pure_eq_ok.1 h; exact ⟨rfl, hrelu⟩)
      | exact absurd h (by simp)
  cases provider with
  | strided => exact hstrided h
  | matrix => exact hstrided h
  | recording => exact absurd rfl hprovider

end Provider

end LoopNest
