import Mathlib.Data.List.TakeWhile
import LoopNest.Kernel.Main
import LoopNest.Proofs.Checked
import LoopNest.Proofs.Parallel.Runs

/-!
# The loops of a kernel call

A main kernel has six slots for loops: planes, packed lanes, reduction blocks, M, N and K. A
`KernelNest` names the loops in these slots, with the unit loop in an empty one. It fills the
kernel loops of a list if it consists of them and each stands in the slot of its axis
(`KernelNest.Fills`); then the offsets of the kernel loops are put together slot by slot
(`KernelNest.Fills.offsets_filter`).

`KernelShape.exists_nest` reads a nest off every shape that was made. The same nest with other
strides gives the shape for other buffers (`KernelNest.shape`).
-/

namespace LoopNest

/-- The loops in the slots of a kernel call. -/
structure KernelNest where
  plane : Loop
  lane : Loop
  br : Loop
  m : Loop
  n : Loop
  k : Loop

namespace KernelNest

/-- The loops of all slots, outermost first. -/
def loops (nest : KernelNest) : List Loop :=
  [nest.plane, nest.lane, nest.br, nest.m, nest.n, nest.k]

/-- The shape of a nest for given strides, with leading dimensions as in another shape. -/
def shape (nest : KernelNest) (base : KernelShape) (stride : Loop → Operands Int) : KernelShape :=
  { base with
    m := nest.m.size
    n := nest.n.size
    k := nest.k.size
    br := nest.br.size
    lanes := nest.lane.size
    planes := nest.plane.size
    strideM := stride nest.m
    strideN := stride nest.n
    strideK := stride nest.k
    strideBr := stride nest.br
    strideLane := stride nest.lane
    stridePlane := stride nest.plane }

/-- A slot for loops of an axis holds a kernel loop of this axis, or is empty. -/
def Holds (axis : Axis) (loop : Loop) : Prop :=
  loop.isPrim = true ∧ loop.axis = axis ∨ loop = .unit

/-- A nest consists of the kernel loops of a list. -/
structure Fills (nest : KernelNest) (kernel : List Loop) : Prop where
  kernel : kernelLoops nest.loops = kernel
  plane : Holds .cpx nest.plane
  lane : Holds .c nest.lane
  br : Holds .k nest.br
  m : Holds .m nest.m
  n : Holds .n nest.n
  k : Holds .k nest.k

/-- What holds of the kernel loops and of the unit loop holds of all slots. -/
theorem Fills.forall_loops {nest : KernelNest} {kernel : List Loop} (h : nest.Fills kernel)
    {P : Loop → Prop} (hunit : P .unit) (hkernel : ∀ loop ∈ kernel, P loop) :
    ∀ loop ∈ nest.loops, P loop := by
  have hslot : ∀ {axis : Axis} {loop : Loop}, Holds axis loop → loop ∈ nest.loops → P loop := by
    intro axis loop hholds hloop
    rcases hholds with ⟨hprim, -⟩ | rfl
    · exact hkernel loop (h.kernel ▸ List.mem_filter.2 ⟨hloop, hprim⟩)
    · exact hunit
  intro loop hloop
  simp only [loops, List.mem_cons, List.not_mem_nil, or_false] at hloop
  rcases hloop with rfl | rfl | rfl | rfl | rfl | rfl
  · exact hslot h.plane (by simp [loops])
  · exact hslot h.lane (by simp [loops])
  · exact hslot h.br (by simp [loops])
  · exact hslot h.m (by simp [loops])
  · exact hslot h.n (by simp [loops])
  · exact hslot h.k (by simp [loops])

/-! ## Offsets slot by slot -/

section Offsets

variable {A : Type} [AddCommGroup A] (stride : Loop → A) {nest : KernelNest} {kernel : List Loop}

/-- The offsets of a slot, if its axis is chosen. -/
def slotOffsets (stride : Loop → A) (chosen : Bool) (loop : Loop) : List A :=
  if chosen then multiples loop.size (stride loop) else [0]

/-- An empty slot does not move. -/
theorem offsets_slot_cons (q : Axis → Bool) {axis : Axis} {loop : Loop} (h : Holds axis loop)
    (rest : List Loop) :
    offsets stride ((kernelLoops (loop :: rest)).filter fun loop => q loop.axis) =
      sumset (slotOffsets stride (q axis) loop)
        (offsets stride ((kernelLoops rest).filter fun loop => q loop.axis)) := by
  rcases h with ⟨hprim, rfl⟩ | rfl
  · rw [kernelLoops, List.filter_cons_of_pos hprim, offsets_filter_cons]
    rfl
  · have hunit : slotOffsets stride (q axis) Loop.unit = [0] := by
      rw [slotOffsets, show Loop.unit.size = 1 from rfl, multiples_one, ite_self]
    rw [hunit, zero_sumset]
    rfl

/-- The offsets of the kernel loops of some axes. -/
theorem Fills.offsets_filter (h : nest.Fills kernel) (q : Axis → Bool) :
    offsets stride (kernel.filter fun loop => q loop.axis) =
      sumset (slotOffsets stride (q .cpx) nest.plane)
        (sumset (slotOffsets stride (q .c) nest.lane)
          (sumset (slotOffsets stride (q .k) nest.br)
            (sumset (slotOffsets stride (q .m) nest.m)
              (sumset (slotOffsets stride (q .n) nest.n)
                (slotOffsets stride (q .k) nest.k))))) := by
  rw [← h.kernel, loops, offsets_slot_cons _ q h.plane, offsets_slot_cons _ q h.lane,
    offsets_slot_cons _ q h.br, offsets_slot_cons _ q h.m, offsets_slot_cons _ q h.n,
    offsets_slot_cons _ q h.k]
  exact congrArg _ (congrArg _ (congrArg _ (congrArg _ (congrArg _ (sumset_zero _)))))

theorem smul_mem_slotOffsets {i : Int} {loop : Loop} (hi : i ∈ upTo loop.size) :
    i • stride loop ∈ slotOffsets stride true loop :=
  List.mem_map_of_mem (f := fun i : Int => i • stride loop) hi

/-- The kernel loops reach the offset of every index tuple. -/
theorem Fills.mem_offsets (h : nest.Fills kernel) {plane lane br m n k : Int}
    (hplane : plane ∈ upTo nest.plane.size) (hlane : lane ∈ upTo nest.lane.size)
    (hbr : br ∈ upTo nest.br.size) (hm : m ∈ upTo nest.m.size) (hn : n ∈ upTo nest.n.size)
    (hk : k ∈ upTo nest.k.size) :
    plane • stride nest.plane + (lane • stride nest.lane + (br • stride nest.br +
      (m • stride nest.m + (n • stride nest.n + k • stride nest.k)))) ∈ offsets stride kernel := by
  have hall := h.offsets_filter stride fun _ => true
  rw [List.filter_true] at hall
  rw [hall]
  refine mem_sumset.2 ⟨_, smul_mem_slotOffsets stride hplane, _, ?_, rfl⟩
  refine mem_sumset.2 ⟨_, smul_mem_slotOffsets stride hlane, _, ?_, rfl⟩
  refine mem_sumset.2 ⟨_, smul_mem_slotOffsets stride hbr, _, ?_, rfl⟩
  refine mem_sumset.2 ⟨_, smul_mem_slotOffsets stride hm, _, ?_, rfl⟩
  exact mem_sumset.2 ⟨_, smul_mem_slotOffsets stride hn, _, smul_mem_slotOffsets stride hk, rfl⟩

end Offsets

end KernelNest

/-! ## Offsets of shapes -/

namespace KernelShape

/-- Offset of an element of the output block, in every stream. -/
def pointOffset (shape : KernelShape) (p : TilePoint) : Operands Int :=
  p.lane • shape.strideLane + (p.n • shape.strideN + p.m • shape.strideM)

/-- Offset of a step of the reduction, in every stream. -/
def stepOffset (shape : KernelShape) (s : ReductionStep) : Operands Int :=
  s.br • shape.strideBr + s.k • shape.strideK

theorem mem_tile {shape : KernelShape} {p : TilePoint} :
    p ∈ shape.tile ↔ p.lane ∈ upTo shape.lanes ∧ p.n ∈ upTo shape.n ∧ p.m ∈ upTo shape.m := by
  simp only [tile, lanePoints, List.mem_flatMap, List.mem_map]
  constructor
  · rintro ⟨lane, hlane, n, hn, m, hm, rfl⟩
    exact ⟨hlane, hn, hm⟩
  · rintro ⟨hlane, hn, hm⟩
    exact ⟨_, hlane, _, hn, _, hm, rfl⟩

theorem mem_steps {shape : KernelShape} {s : ReductionStep} :
    s ∈ shape.steps ↔ s.br ∈ upTo shape.br ∧ s.k ∈ upTo shape.k := by
  simp only [steps, blockSteps, List.mem_flatMap, List.mem_map]
  constructor
  · rintro ⟨br, hbr, k, hk, rfl⟩
    exact ⟨hbr, hk⟩
  · rintro ⟨hbr, hk⟩
    exact ⟨_, hbr, _, hk, rfl⟩

theorem map_pointOffset (shape : KernelShape) :
    shape.tile.map shape.pointOffset = sumset (multiples shape.lanes shape.strideLane)
      (sumset (multiples shape.n shape.strideN) (multiples shape.m shape.strideM)) := by
  simp [tile, lanePoints, sumset, multiples, pointOffset, List.map_flatMap, List.flatMap_map,
    Function.comp_def]

theorem map_stepOffset (shape : KernelShape) :
    shape.steps.map shape.stepOffset = sumset (multiples shape.br shape.strideBr)
      (multiples shape.k shape.strideK) := by
  simp [steps, blockSteps, sumset, multiples, stepOffset, List.map_flatMap, List.flatMap_map,
    Function.comp_def]

end KernelShape

namespace KernelNest.Fills

variable {nest : KernelNest} {kernel : List Loop} (h : nest.Fills kernel) (base : KernelShape)
  (stride : Loop → Operands Int)

include h

/-- The elements of the output block are the index tuples of the lanes, M and N. -/
theorem tile_perm : (offsets stride
      (kernel.filter fun loop => !decide (loop.axis = .k) && !decide (loop.axis = .cpx))).Perm
    ((nest.shape base stride).tile.map (nest.shape base stride).pointOffset) := by
  rw [h.offsets_filter _ fun axis => !decide (axis = .k) && !decide (axis = .cpx),
    KernelShape.map_pointOffset]
  simp only [slotOffsets, reduceCtorEq, decide_true, decide_false, Bool.not_true, Bool.not_false,
    Bool.and_true, Bool.and_false, Bool.false_eq_true, if_true, if_false, zero_sumset, sumset_zero]
  exact sumset_perm (List.Perm.refl _) (sumset_comm _ _)

/-- The steps of the reduction are the index tuples of the K loops. -/
theorem steps_eq : offsets stride (kernel.filter fun loop => loop.axis = .k) =
    (nest.shape base stride).steps.map (nest.shape base stride).stepOffset := by
  rw [h.offsets_filter _ fun axis => decide (axis = .k), KernelShape.map_stepOffset]
  simp only [slotOffsets, reduceCtorEq, decide_true, decide_false, Bool.false_eq_true, if_true,
    if_false, zero_sumset]
  rfl

/-- The planes are the index tuples of the complex loop. -/
theorem planes_eq : offsets stride (kernel.filter fun loop => loop.axis = .cpx) =
    multiples nest.plane.size (stride nest.plane) := by
  rw [h.offsets_filter _ fun axis => decide (axis = .cpx)]
  simp only [slotOffsets, reduceCtorEq, decide_true, decide_false, Bool.false_eq_true, if_true,
    if_false, sumset_zero]

end KernelNest.Fills

/-! ## Shapes of nests -/

namespace KernelShape

/-- The strides of the auxiliary block are those of the M and N loops, where these have more than
one iteration. -/
structure AuxFits (shape : KernelShape) : Prop where
  m : shape.m = 1 ∨ shape.auxM = shape.strideM.outAux
  n : shape.n = 1 ∨ shape.auxN = shape.strideN.outAux

theorem require_eq_ok {β : Type} {kernel : KernelTag} {fault : ShapeFault} {x : Option β} {y : β}
    (h : require kernel fault x = .ok y) : x = some y := by
  cases x with
  | none => exact absurd h (by simp [require])
  | some z => exact congrArg some (Except.ok.inj h)

theorem auxLayout_eq_some {m n : Loop} {lanes auxM auxN : Int}
    (h : auxLayout m n lanes = some (auxM, auxN)) :
    (m.size = 1 ∨ auxM = m.strides.outAux) ∧ (n.size = 1 ∨ auxN = n.strides.outAux) := by
  unfold auxLayout at h
  split at h
  · obtain ⟨rfl, rfl⟩ := Prod.mk.inj (Option.some.inj h)
    constructor
    · by_cases hm : m.size = 1
      · exact .inl hm
      · exact .inr (if_neg hm)
    · by_cases hn : n.size = 1
      · exact .inl hn
      · exact .inr (if_neg hn)
  · exact absurd h (by simp)

/-- The nest of M, N and K loops with further kernel loops, innermost first. -/
def nestOf (kernel : KernelTag) (m n k : Loop) (outer : List Loop) : KernelNest where
  plane :=
    if kernel.hasComplexLoop then outer.getD (if kernel.hasPackedLanes then 1 else 0) .unit
    else .unit
  lane := if kernel.hasPackedLanes then outer.getD 0 .unit else .unit
  br := if kernel = .brMadd then outer.getD 0 .unit else .unit
  m := m
  n := n
  k := k

/-- An empty slot has one iteration. -/
theorem size_ite_unit (c : Prop) [Decidable c] (loop : Loop) :
    (if c then loop else Loop.unit).size = if c then loop.size else 1 := by
  split <;> rfl

/-- An empty slot does not move. -/
theorem strides_ite_unit (c : Prop) [Decidable c] (loop : Loop) :
    (if c then loop else Loop.unit).strides = if c then loop.strides else 0 := by
  split <;> rfl

theorem ofPrims_eq_ok {kernel : KernelTag} {m n k : Loop} {outer : List Loop} {shape : KernelShape}
    (h : ofPrims kernel m n k outer = .ok shape) :
    (nestOf kernel m n k outer).shape shape Loop.strides = shape ∧ shape.AuxFits ∧
      shape.planes = if kernel.hasComplexLoop then 2 else 1 := by
  obtain ⟨⟨transposedLeft, leadingLeft⟩, -, h⟩ := bind_eq_ok.1 h
  obtain ⟨⟨transposedRight, leadingRight⟩, -, h⟩ := bind_eq_ok.1 h
  obtain ⟨leadingOut, -, h⟩ := bind_eq_ok.1 h
  obtain ⟨⟨auxM, auxN⟩, haux, h⟩ := bind_eq_ok.1 h
  obtain ⟨hcomplex, h⟩ := guard_bind_eq_ok.1 h
  obtain rfl := pure_eq_ok.1 h
  obtain ⟨hm, hn⟩ := auxLayout_eq_some (require_eq_ok haux)
  refine ⟨?_, ⟨hm, hn⟩, rfl⟩
  have hplanes : (nestOf kernel m n k outer).plane.size =
      if kernel.hasComplexLoop then 2 else 1 := by
    rw [nestOf, size_ite_unit]
    split
    · rename_i hcpx
      simpa [hcpx] using hcomplex
    · rfl
  unfold KernelNest.shape
  rw [hplanes]
  simp only [nestOf, size_ite_unit, strides_ite_unit]

/-- The kernel loops at the end of a list, outermost first. -/
def kernelEnd (loops : List Loop) : List Loop := (trailing loops).reverse

theorem kernelEnd_suffix (loops : List Loop) : kernelEnd loops <:+ loops := by
  rw [kernelEnd, ← List.reverse_prefix, List.reverse_reverse]
  exact List.takeWhile_prefix _

theorem isPrim_of_mem_kernelEnd {loops : List Loop} {loop : Loop} (h : loop ∈ kernelEnd loops) :
    loop.isPrim = true := by
  have hmem := List.mem_reverse.1 h
  rw [trailing] at hmem
  exact List.mem_takeWhile_imp hmem

theorem trailing_eq {loops : List Loop} (h : KernelLast loops) :
    trailing loops = (kernelLoops loops).reverse := by
  have houter : (outerLoops loops).reverse.takeWhile Loop.isPrim = [] := by
    cases hreverse : (outerLoops loops).reverse with
    | nil => rfl
    | cons loop rest =>
        have hmem : loop ∈ outerLoops loops := by
          rw [← List.mem_reverse, hreverse]
          exact List.mem_cons_self
        exact List.takeWhile_cons_of_neg (by simpa using (List.mem_filter.1 hmem).2)
  have hkernel : ∀ loop ∈ (kernelLoops loops).reverse, loop.isPrim = true := fun loop hloop =>
    (List.mem_filter.1 (List.mem_reverse.1 hloop)).2
  conv_lhs => rw [trailing, ← h, List.reverse_append]
  rw [List.takeWhile_append_of_pos hkernel, houter, List.append_nil]

/-- Where kernel loops stand last, all of them stand at the end. -/
theorem kernelEnd_eq {loops : List Loop} (h : KernelLast loops) :
    kernelEnd loops = kernelLoops loops := by
  rw [kernelEnd, trailing_eq h, List.reverse_reverse]

theorem checkAxes_eq_ok {kernel : KernelTag} {prims : List Loop}
    (h : checkAxes kernel prims = .ok ()) :
    prims.length = kernel.primCount.getD 0 ∧ (prims.take 3).map Loop.axis = [.k, .n, .m] ∧
      (∀ axis, fourthAxis kernel = some axis → prims[3]?.map Loop.axis = some axis) ∧
      (kernel = .cpxPackedMadd → prims[4]?.map Loop.axis = some .cpx) := by
  unfold checkAxes at h
  dsimp only at h
  obtain ⟨hcount, h⟩ := guard_bind_eq_ok.1 h
  obtain ⟨horder, h⟩ := guard_bind_eq_ok.1 h
  refine ⟨not_not.1 hcount, not_not.1 horder, ?_⟩
  split at h
  · rename_i axis haxis
    obtain ⟨hfourth, h⟩ := guard_bind_eq_ok.1 h
    have hfifth := (guard_eq_ok.1 h).1
    refine ⟨fun axis' haxis' => ?_, fun hkernel => by_contra fun hne => hfifth ⟨hkernel, hne⟩⟩
    obtain rfl := Option.some.inj (haxis.symm.trans haxis')
    exact not_not.1 hfourth
  · rename_i hnone
    refine ⟨fun axis haxis => absurd (hnone.symm.trans haxis) (by simp), ?_⟩
    rintro rfl
    exact absurd hnone (by simp [fourthAxis])

/-- Checked kernel loops fill the slots of a kernel. -/
theorem fills_of_checkAxes {kernel : KernelTag} {m n k : Loop} {outer : List Loop}
    (h : checkAxes kernel (k :: n :: m :: outer) = .ok ())
    (hprim : ∀ loop ∈ k :: n :: m :: outer, loop.isPrim = true) :
    (nestOf kernel m n k outer).Fills (outer.reverse ++ [m, n, k]) := by
  obtain ⟨hcount, horder, hfourth, hfifth⟩ := checkAxes_eq_ok h
  obtain ⟨hk, hn, hm⟩ : k.axis = .k ∧ n.axis = .n ∧ m.axis = .m := by simpa using horder
  rw [List.forall_mem_cons, List.forall_mem_cons, List.forall_mem_cons] at hprim
  obtain ⟨hkprim, hnprim, hmprim, houter⟩ := hprim
  have hm : KernelNest.Holds .m m := .inl ⟨hmprim, hm⟩
  have hn : KernelNest.Holds .n n := .inl ⟨hnprim, hn⟩
  have hk : KernelNest.Holds .k k := .inl ⟨hkprim, hk⟩
  have hempty : Loop.unit.isPrim = false := rfl
  -- one further loop for each of the kernels with four loops, two for the kernel with five
  have hone : outer.length = 1 → ∀ axis, fourthAxis kernel = some axis →
      ∃ loop, outer = [loop] ∧ loop.isPrim = true ∧ loop.axis = axis := by
    intro hlength axis haxis
    obtain ⟨loop, rfl⟩ := List.length_eq_one_iff.1 hlength
    exact ⟨loop, rfl, houter loop List.mem_cons_self, by simpa using hfourth axis haxis⟩
  cases kernel with
  | madd =>
      obtain rfl : outer = [] :=
        List.eq_nil_of_length_eq_zero (by simpa [KernelTag.primCount] using hcount)
      refine ⟨?_, .inr rfl, .inr rfl, .inr rfl, hm, hn, hk⟩
      simp [nestOf, KernelNest.loops, kernelLoops, hmprim, hnprim, hkprim, hempty]
  | brMadd =>
      obtain ⟨br, rfl, hprim, haxis⟩ :=
        hone (by simpa [KernelTag.primCount] using hcount) .k rfl
      refine ⟨?_, .inr rfl, .inr rfl, .inl ⟨hprim, haxis⟩, hm, hn, hk⟩
      simp [nestOf, KernelNest.loops, kernelLoops, KernelTag.hasComplexLoop,
        KernelTag.hasPackedLanes, hmprim, hnprim, hkprim, hprim, hempty]
  | packedMadd =>
      obtain ⟨lane, rfl, hprim, haxis⟩ :=
        hone (by simpa [KernelTag.primCount] using hcount) .c rfl
      refine ⟨?_, .inr rfl, .inl ⟨hprim, haxis⟩, .inr rfl, hm, hn, hk⟩
      simp [nestOf, KernelNest.loops, kernelLoops, KernelTag.hasComplexLoop,
        KernelTag.hasPackedLanes, hmprim, hnprim, hkprim, hprim, hempty]
  | cpxMadd =>
      obtain ⟨plane, rfl, hprim, haxis⟩ :=
        hone (by simpa [KernelTag.primCount] using hcount) .cpx rfl
      refine ⟨?_, .inl ⟨hprim, haxis⟩, .inr rfl, .inr rfl, hm, hn, hk⟩
      simp [nestOf, KernelNest.loops, kernelLoops, KernelTag.hasComplexLoop,
        KernelTag.hasPackedLanes, hmprim, hnprim, hkprim, hprim, hempty]
  | cpxPackedMadd =>
      obtain ⟨lane, plane, rfl⟩ :=
        List.length_eq_two.1 (show outer.length = 2 by simpa [KernelTag.primCount] using hcount)
      rw [List.forall_mem_cons, List.forall_mem_singleton] at houter
      have hlane : lane.axis = .c := by simpa using hfourth .c rfl
      have hplane : plane.axis = .cpx := by simpa using hfifth rfl
      refine ⟨?_, .inl ⟨houter.2, hplane⟩, .inl ⟨houter.1, hlane⟩, .inr rfl, hm, hn, hk⟩
      simp [nestOf, KernelNest.loops, kernelLoops, KernelTag.hasComplexLoop,
        KernelTag.hasPackedLanes, hmprim, hnprim, hkprim, houter.1, houter.2, hempty]
  | _ => simp [KernelTag.primCount] at hcount

/-- Every shape that was made is the shape of a nest that fills the kernel loops at the end. -/
theorem exists_nest_kernelEnd {kernel : KernelTag} {loops : List Loop} {shape : KernelShape}
    (h : ofLoops kernel loops = .ok shape) :
    ∃ nest : KernelNest, nest.Fills (kernelEnd loops) ∧ nest.shape shape Loop.strides = shape ∧
      shape.AuxFits ∧ shape.planes = if kernel.hasComplexLoop then 2 else 1 := by
  obtain ⟨⟨⟩, hcheck, h⟩ := bind_eq_ok.1 h
  have hprim : ∀ loop ∈ trailing loops, loop.isPrim = true := fun loop hloop =>
    isPrim_of_mem_kernelEnd (List.mem_reverse.2 hloop)
  split at h
  · rename_i k n m outer hprims
    rw [hprims] at hcheck hprim
    obtain ⟨hshape, haux, hplanes⟩ := ofPrims_eq_ok h
    have hfills := fills_of_checkAxes hcheck hprim
    have hloops : kernelEnd loops = outer.reverse ++ [m, n, k] := by
      rw [kernelEnd, hprims]
      simp
    exact ⟨_, hloops ▸ hfills, hshape, haux, hplanes⟩
  · exact absurd h (by simp)

/-- Where kernel loops stand last, the nest fills all of them. -/
theorem exists_nest {kernel : KernelTag} {loops : List Loop} {shape : KernelShape}
    (hkernel : KernelLast loops) (h : ofLoops kernel loops = .ok shape) :
    ∃ nest : KernelNest, nest.Fills (kernelLoops loops) ∧ nest.shape shape Loop.strides = shape ∧
      shape.AuxFits ∧ shape.planes = if kernel.hasComplexLoop then 2 else 1 := by
  rw [← kernelEnd_eq hkernel]
  exact exists_nest_kernelEnd h

end KernelShape

end LoopNest
