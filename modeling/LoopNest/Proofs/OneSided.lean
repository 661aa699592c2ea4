import LoopNest.Proofs.Contraction
import LoopNest.Proofs.Launch.KeptSteps
import LoopNest.Proofs.Planning.Sharing

/-!
# Sums over loops of one input

Beside the loops of a matrix product a list may hold loops of a single input: I loops move through
the left input only, J loops through the right one only. They do not move through the output, so
that the product is to be summed over them, like over K loops (`IsOneSidedProduct`).

The first touch does not know of them. It is gated by K loops, and so it comes back to a tile in each
iteration of an I or J loop outside the kernel, where all of them are. With a first touch that
clears, an accepted launch leaves the sum over `keptSteps` of the planned loops (`Accumulates`).
This is the sum over all index tuples exactly if no I or J loop has more than one iteration
(`contract_accumulates`). A sum over two iterations of an I loop ends as its second half
(`contract_drops_oneSided`).
-/

namespace LoopNest

/-- Whether loops of an axis move through one input only. -/
def Axis.isOneSided : Axis → Bool
  | .i | .j => true
  | _ => false

/-- Whether products are summed over the loops of an axis. -/
def Axis.isSummed (axis : Axis) : Bool := decide (axis = .k) || axis.isOneSided

/-- Whether products are summed over a loop. -/
def Loop.isSummed (loop : Loop) : Bool := loop.axis.isSummed

/-! ## Lists with loops of one input -/

/-- The strides of an axis of a sum of products: none is negative, M does not move through the right
input, N not through the left one, and loops that are summed over not through the output. -/
structure Axis.Sums (axis : Axis) (x : Operands Int) : Prop where
  left : 0 ≤ x.left
  right : 0 ≤ x.right
  out : 0 ≤ x.out
  m : axis = .m → x.right = 0
  n : axis = .n → x.left = 0
  summed : axis.isSummed = true → x.out = 0

instance (axis : Axis) (x : Operands Int) : Decidable (axis.Sums x) :=
  decidable_of_iff ((0 ≤ x.left ∧ 0 ≤ x.right ∧ 0 ≤ x.out) ∧ (axis = .m → x.right = 0) ∧
      (axis = .n → x.left = 0) ∧ (axis.isSummed = true → x.out = 0))
    ⟨fun ⟨⟨hl, hr, ho⟩, hm, hn, hs⟩ => ⟨hl, hr, ho, hm, hn, hs⟩,
      fun h => ⟨⟨h.left, h.right, h.out⟩, h.m, h.n, h.summed⟩⟩

theorem strideRule_sums : StrideRule Axis.Sums where
  zero axis := ⟨Int.le_refl 0, Int.le_refl 0, Int.le_refl 0, fun _ => rfl, fun _ => rfl, fun _ => rfl⟩
  scale hn h :=
    ⟨Int.mul_nonneg h.left hn, Int.mul_nonneg h.right hn, Int.mul_nonneg h.out hn,
      fun haxis => by rw [Operands.scale_right, h.m haxis, zero_mul],
      fun haxis => by rw [Operands.scale_left, h.n haxis, zero_mul],
      fun haxis => by rw [Operands.scale_out, h.summed haxis, zero_mul]⟩

/-- A list of sequential loops that describes a sum of real products. Different output elements lie
at different addresses. -/
structure IsOneSidedProduct (loops : List Loop) : Prop where
  sequential : ∀ loop ∈ loops, loop.mode = .seq
  unpacked : ∀ loop ∈ loops, loop.sourceLeft = 0 ∧ loop.sourceRight = 0
  real : ∀ loop ∈ loops, loop.axis ≠ .cpx
  sums : ∀ loop ∈ loops, loop.axis.Sums loop.strides
  apart : ((offsets Loop.strides (loops.filter fun loop => !loop.isSummed)).map
    Operands.out).Nodup

/-- The output `out` of a sum of products over some of its steps. All operands are addressed by the
strides of the given loops. -/
structure Accumulates (loops : List Loop) (steps : List (Operands Int)) (buffers : Buffers Int)
    (out : Buffer Int) : Prop where
  size : out.size = buffers.out.size
  reads : ∀ z ∈ offsets Loop.strides loops, ∀ side,
    ∃ y, Buffer.read? (buffers.inputs.buffer side) (z.input side) = some y
  element : ∀ x ∈ offsets Loop.strides (loops.filter fun loop => !loop.isSummed),
    Buffer.read? out x.out = some (Part.whole.sumAt buffers.inputs 0 x steps)
  frame : ∀ address, (∀ x ∈ offsets Loop.strides (loops.filter fun loop => !loop.isSummed),
    x.out ≠ address) → Buffer.read? out address = Buffer.read? buffers.out address

/-! ## Planned loops -/

/-- A list without complex loops is planned for the real kernel. -/
theorem plan_eq_madd {settings : Settings} {kernel : KernelTag} {element : ElementType}
    {loops : List Loop} {nest : Nest} (hreal : ∀ loop ∈ loops, loop.axis ≠ .cpx)
    (h : Nest.plan settings kernel element loops = .ok nest) : kernel = .madd := by
  rcases plan_kernel h with rfl | rfl
  · rfl
  · -- a complex kernel takes a complex loop out of the normal form
    obtain ⟨_, _, hstages⟩ := exists_planStages h
    obtain ⟨s, hs⟩ := installKernel_eq_ok hstages.install
    have htakes := hs.takes
    have hsome := isSome_of_takeComplex htakes
    obtain ⟨complex, hcomplex⟩ := Option.isSome_iff_exists.1 (hsome.trans rfl)
    rw [hcomplex] at htakes
    have hmem : complex ∈ sortAndFuse (dropUnits loops) :=
      (takeComplex_perm htakes).mem_iff.2 (by simp)
    have hnormal : ∀ loop ∈ sortAndFuse (dropUnits loops), loop.axis ≠ .cpx := by
      apply forall_sortAndFuse
      · intro outer inner _ houter _
        exact houter
      · intro loop hloop
        exact hreal loop (List.mem_of_mem_filter hloop)
    exact absurd (axis_of_takeComplex htakes) (hnormal complex hmem)

/-- No kernel takes loops of one input. -/
theorem KernelNest.Fills.isOneSided {nest : KernelNest} {kernel : List Loop}
    (h : nest.Fills kernel) : ∀ loop ∈ kernel, loop.axis.isOneSided = false := by
  intro loop hloop
  rw [← h.kernel] at hloop
  have hmem := List.mem_of_mem_filter hloop
  have hslot : ∀ {axis : Axis} {loop : Loop}, Holds axis loop → axis.isOneSided = false →
      loop.axis.isOneSided = false := by
    rintro axis loop (⟨-, rfl⟩ | rfl) haxis
    · exact haxis
    · rfl
  simp only [loops, List.mem_cons, List.not_mem_nil, or_false] at hmem
  rcases hmem with rfl | rfl | rfl | rfl | rfl | rfl
  · exact hslot h.plane rfl
  · exact hslot h.lane rfl
  · exact hslot h.br rfl
  · exact hslot h.m rfl
  · exact hslot h.n rfl
  · exact hslot h.k rfl

section Kernel

variable {kernel : List Loop} (hkernel : ∀ loop ∈ kernel, loop.axis.isOneSided = false)

include hkernel

/-- In the kernel, sums are over K loops. -/
theorem filter_isSummed_kernel : kernel.filter Loop.isSummed = kernel.filter Loop.isReduction := by
  refine List.filter_congr fun loop hloop => ?_
  rw [Loop.isSummed, Axis.isSummed, hkernel loop hloop, Bool.or_false]
  rfl

theorem filter_not_isSummed_kernel : kernel.filter (fun loop => !loop.isSummed) =
    kernel.filter fun loop => !loop.isReduction := by
  refine List.filter_congr fun loop hloop => ?_
  rw [Loop.isSummed, Axis.isSummed, hkernel loop hloop, Bool.or_false]
  rfl

end Kernel

/-- The loops outside the kernel and the block of the main kernel reach what the loops of a sum of
products reach, and keep the steps that the planned loops keep. -/
structure Program.SumsOver (program : Program) (main : MainKernel) (loops : List Loop) : Prop where
  all : (offsets Loop.callerStrides program.layout.loops).Perm (offsets Loop.strides loops)
  elements : (sumset (offsets Loop.callerStrides ((outerLoops program.layout.loops).filter
      fun loop => !loop.isSummed)) main.shape.elements).Perm
    (offsets Loop.strides (loops.filter fun loop => !loop.isSummed))
  kept : (sumset (keptSteps Loop.callerStrides
      ((outerLoops program.layout.loops).filter Loop.isSummed))
        (main.shape.steps.map main.shape.stepOffset)).Perm
    (keptSteps Loop.callerStrides (program.layout.loops.filter Loop.isSummed))

section Plan

variable {settings : Settings} {element : ElementType} {tags : KernelTags} {loops : List Loop}
  {provider : Provider} {buffers : Buffers Int} {outcome : Outcome Int} {nest : Nest}
  {program : Program} (hsum : IsOneSidedProduct loops)
  (hlaunch : PlannedLaunch settings element loops tags provider buffers outcome nest program)

include hsum hlaunch

/-- The planned loops follow the same rules on strides. -/
theorem PlannedLaunch.sums : ∀ loop ∈ program.layout.loops,
    loop.axis.Sums loop.callerStrides := by
  have hrule := plan_forall strideRule_sums hsum.unpacked hsum.sums hlaunch.plan
  rwa [← hlaunch.loops] at hrule

/-- The planned loops do not meet in the output either. -/
theorem PlannedLaunch.apart : ((offsets Loop.callerStrides (program.layout.loops.filter fun loop =>
    !loop.isSummed)).map Operands.out).Nodup := by
  have hperm := plan_offsets_filter hsum.unpacked hlaunch.plan fun axis => !axis.isSummed
  rw [← hlaunch.loops] at hperm
  exact (hperm.map Operands.out).nodup_iff.2 hsum.apart

/-- The loops that are summed over stay on a tile, and threads do not share them. -/
theorem PlannedLaunch.staysOnTile : program.StaysOnTile Loop.callerStrides Loop.isSummed := by
  have hstrides := hlaunch.sums hsum
  constructor
  · intro loop _ haxis
    rw [Loop.isSummed, haxis]
    rfl
  · intro loop hloop hparallel
    rw [hlaunch.loops] at hloop
    rcases plan_shared hsum.sequential hlaunch.plan loop hloop hparallel with haxis | haxis | haxis
    · rw [Loop.isSummed, haxis]
      rfl
    · rw [Loop.isSummed, haxis]
      rfl
    · rw [Loop.isSummed, haxis]
      rfl
  · intro loop hloop hsummed
    have hout := (hstrides loop hloop).summed hsummed
    exact ⟨hout, hout⟩

/-- The kernels that were made for a planned sum of products compute it. -/
theorem PlannedLaunch.exists_main (hprovider : provider ≠ .recording) :
    ∃ main : MainKernel, main.method.parts = [.whole] ∧ program.Computes tags main ∧
      program.Agrees Int main (kernelLoops program.layout.loops) ∧ program.SumsOver main loops := by
  have hkernel := hlaunch.kernelLast
  have hsizes := hlaunch.built.sizes
  have hstrides := hlaunch.sums hsum
  -- without complex loops the product has the one part `whole`
  have htag : tags.main = .madd := plan_eq_madd hsum.real hlaunch.plan
  have hfilter := plan_offsets_filter hsum.unpacked hlaunch.plan
  rw [← hlaunch.loops] at hfilter
  obtain ⟨shape, hshape, -⟩ := bind_eq_ok.1 hlaunch.makes
  obtain ⟨filled, hfilled, -⟩ := KernelShape.exists_nest hkernel hshape
  have hreduction := filter_not_isSummed_kernel hfilled.isOneSided
  have hapart := nodup_kernelLoops hkernel hsizes (hlaunch.apart hsum)
  rw [hreduction] at hapart
  obtain ⟨slots, main, hfills, hmain, hparts, hcomputes, hagrees⟩ :=
    LoopNest.exists_main hprovider hlaunch.makes hkernel hsizes
      (fun loop hloop => (hstrides loop hloop).m) (fun loop hloop => (hstrides loop hloop).n) hapart
  have hwhole : main.method.parts = [.whole] := by
    rw [hparts]
    refine (plan_parts hlaunch.plan).trans ?_
    rw [htag]
    rfl
  refine ⟨main, hwhole, hcomputes.of_touchTags, hagrees, ?_⟩
  constructor
  · have hall := hfilter fun _ => true
    rwa [List.filter_true, List.filter_true] at hall
  · have helements := hfilter fun axis => !axis.isSummed
    rw [hkernel.offsets_filter] at helements
    refine List.Perm.trans (sumset_perm (List.Perm.refl _) ?_) helements
    have hblock := KernelShape.elements_perm hfills program.kernels.shape Loop.callerStrides
    rw [hmain]
    exact hblock.symm.trans (List.Perm.of_eq (congrArg _ hreduction.symm))
  · -- the K loops of the kernel add all their steps
    have hsteps := hfills.steps_eq program.kernels.shape Loop.callerStrides
    rw [← hmain] at hsteps
    have hk : ∀ loop ∈ (kernelLoops program.layout.loops).filter Loop.isReduction,
        loop.axis = .k := fun loop hloop => of_decide_eq_true (List.mem_filter.1 hloop).2
    have hone : ∀ loop ∈ (kernelLoops program.layout.loops).filter Loop.isReduction,
        1 ≤ loop.size := fun loop hloop =>
      hsizes loop (List.mem_of_mem_filter (List.mem_of_mem_filter hloop))
    have happend := keptSteps_append Loop.callerStrides
      ((outerLoops program.layout.loops).filter Loop.isSummed) hone hk
    rw [← filter_isSummed_kernel hfilled.isOneSided, ← List.filter_append, hkernel] at happend
    rw [← hsteps]
    refine List.Perm.trans (List.Perm.of_eq ?_) happend.symm
    rw [filter_isSummed_kernel hfilled.isOneSided]
    rfl

/-- Some steps of the planned loops are lost exactly if a given loop of one input iterates. -/
theorem PlannedLaunch.exists_lost : ∃ lost,
    (keptSteps Loop.callerStrides (program.layout.loops.filter Loop.isSummed) ++ lost).Perm
        (offsets Loop.strides (loops.filter Loop.isSummed)) ∧
      (lost = [] ↔ ∀ loop ∈ loops, loop.axis.isOneSided = true → loop.size = 1) := by
  have hfilter := plan_offsets_filter hsum.unpacked hlaunch.plan
  rw [← hlaunch.loops] at hfilter
  have hsizes : ∀ loop ∈ program.layout.loops.filter Loop.isSummed, 1 ≤ loop.size :=
    fun loop hloop => hlaunch.built.sizes loop (List.mem_of_mem_filter hloop)
  obtain ⟨lost, hperm, hlost⟩ := exists_lostSteps Loop.callerStrides hsizes
  refine ⟨lost, hperm.trans (hfilter Axis.isSummed), hlost.trans ?_⟩
  -- planned and given loops of one input have as many index tuples
  have hlength := (hfilter Axis.isOneSided).length_eq
  have hunits : ∀ (stride : Loop → Operands Int) {loops : List Loop},
      (∀ loop ∈ loops, 1 ≤ loop.size) →
        ((offsets stride (loops.filter fun loop => loop.axis.isOneSided)).length = 1 ↔
          ∀ loop ∈ loops, loop.axis.isOneSided = true → loop.size = 1) := by
    intro stride loops hsizes
    constructor
    · intro hone loop hloop haxis
      refine size_eq_one_of_length_offsets stride (fun loop hloop => ?_) hone loop
        (List.mem_filter.2 ⟨hloop, haxis⟩)
      exact hsizes loop (List.mem_of_mem_filter hloop)
    · intro hone
      rw [length_offsets]
      refine List.prod_eq_one fun n hn => ?_
      obtain ⟨loop, hloop, rfl⟩ := List.mem_map.1 hn
      obtain ⟨hmem, haxis⟩ := List.mem_filter.1 hloop
      rw [hone loop hmem haxis]
      rfl
  rw [← hunits Loop.strides (plan_sizes hlaunch.plan), ← hlength,
    hunits Loop.callerStrides hlaunch.built.sizes]
  constructor
  · intro h loop hloop haxis
    refine h loop (List.mem_filter.2 ⟨hloop, ?_⟩) fun hk => ?_
    · rw [Loop.isSummed, Axis.isSummed, haxis, Bool.or_true]
    · rw [hk] at haxis
      cases haxis
  · intro h loop hloop hne
    obtain ⟨hmem, hsummed⟩ := List.mem_filter.1 hloop
    rw [Loop.isSummed, Axis.isSummed, decide_eq_false hne, Bool.false_or] at hsummed
    exact h loop hmem hsummed

/-- The visits of a launch leave in the output the sums over the kept steps. -/
theorem PlannedLaunch.accumulates (hprovider : provider ≠ .recording) (hfirst : tags.first = .zero)
    (hlast : tags.last = .undefined) :
    Accumulates loops (keptSteps Loop.callerStrides (program.layout.loops.filter Loop.isSummed))
      buffers outcome.out := by
  obtain ⟨main, hparts, hcomputes, hagrees, hover⟩ := hlaunch.exists_main hsum hprovider
  have hbuilt := hlaunch.built
  have hstrides := hlaunch.sums hsum
  have hstays := hlaunch.staysOnTile hsum
  obtain ⟨before, omp, sfc, after, kernel, hcut⟩ := hbuilt.sound.exists_cut hlaunch.kernelLast
  -- each tile has one run of visits, by the thread that owns it
  have hruns := hstays.runs_launchVisits hcut hbuilt hbuilt.keepsParallel
    (nodup_outerLoops hlaunch.kernelLast hbuilt.sizes (hlaunch.apart hsum))
  have hmem : ∀ loop ∈ (outerLoops program.layout.loops).filter Loop.isSummed,
      loop ∈ program.layout.loops := fun loop hloop =>
    List.mem_of_mem_filter (List.mem_of_mem_filter hloop)
  have hnonneg : ∀ loop ∈ program.layout.loops, ∀ side, 0 ≤ loop.bufferStride side := by
    intro loop hloop side
    cases side with
    | left => exact (hstrides loop hloop).left
    | right => exact (hstrides loop hloop).right
  have hholds := hlaunch.holds fun loop hloop => ⟨hnonneg loop hloop, (hstrides loop hloop).out⟩
  have hapart := (hover.elements.map Operands.out).nodup_iff.2 hsum.apart
  rw [hlaunch.out hnonneg main hagrees hcut]
  refine ⟨Buffer.size_updateAll _ _, fun z hz side =>
    (hholds z (hover.all.mem_iff.2 hz)).1 side, ?_, ?_⟩
  · intro x hx
    -- the element belongs to a tile and to a point of the block
    obtain ⟨t, ht, e, he, rfl⟩ := mem_sumset.1 (hover.elements.mem_iff.2 hx)
    obtain ⟨part, hpart, p, hp, rfl⟩ := hcomputes.exists_part_of_mem_elements he
    obtain rfl : part = .whole := by
      rw [hparts] at hpart
      exact List.mem_singleton.1 hpart
    have hall := mem_offsets_of_filter Loop.strides (plan_sizes hlaunch.plan) hx
    obtain ⟨old, hold⟩ := (hholds _ (hover.all.mem_iff.2 hall)).2
    have hplace : t + main.shape.elementOffset Part.whole.plane p =
        t + main.shape.pointOffset p := by
      rw [KernelShape.elementOffset, Part.plane, zero_smul, zero_add]
    rw [Buffer.read?_updateAll, hold, Option.map_some,
      hcomputes.effectAt_runs hfirst hlast hruns (fun loop hloop => hbuilt.sizes loop (hmem loop hloop))
        (fun loop hloop => (hstays.still loop (hmem loop hloop) (List.mem_filter.1 hloop).2).2)
        hapart ht hpart hp,
      Part.sumAt_eq buffers.inputs (.inl rfl) _ hover.kept, hplace]
  · intro address hother
    have hkept : effectAt address ((program.launchVisits Loop.callerStrides before after).flatMap
        (program.visitUpdates main buffers.inputs)) = id := by
      refine funext (hcomputes.effectAt_visits_of_ne hruns.tile fun t ht part hpart p hp => ?_)
      exact hother _ (hover.elements.mem_iff.1
        (mem_sumset.2 ⟨t, ht, _, hcomputes.elementOffset_mem hpart hp, rfl⟩))
    rw [Buffer.read?_updateAll, hkept, Option.map_id]
    rfl

end Plan

/-! ## Launches -/

/-- With a first touch that clears and no last touch, every accepted launch of a planned sum of
products leaves in the output the sums over the steps that the planned loops keep, whatever the
output held before. These are all steps exactly if no given loop of one input has more than one
iteration. -/
theorem contract_accumulates {loops : List Loop} {element : ElementType} {tags : KernelTags}
    {settings : Settings} {provider : Provider} {pools : PoolBuilder}
    (hprovider : provider ≠ .recording)
    (hsum : IsOneSidedProduct loops) (hfirst : tags.first = .zero) (hlast : tags.last = .undefined)
    {contraction : Contraction Int}
    (hplanned : Contraction.planned loops element tags settings provider pools = .ok contraction)
    (requests : List (Request Int)) {buffers : Buffers Int} {next : Contraction Int}
    {outcome : Outcome Int}
    (h : (requests.foldl Contraction.serve contraction).contract buffers = (next, .ok outcome)) :
    Accumulates loops (keptSteps Loop.callerStrides (contraction.loops.filter Loop.isSummed)) buffers
        outcome.out ∧
      ∃ lost, (keptSteps Loop.callerStrides (contraction.loops.filter Loop.isSummed) ++ lost).Perm
          (offsets Loop.strides (loops.filter Loop.isSummed)) ∧
        (lost = [] ↔ ∀ loop ∈ loops, loop.axis.isOneSided = true → loop.size = 1) := by
  obtain ⟨nest, program, hloops, hlaunch⟩ :=
    exists_plannedLaunch hsum.sequential hsum.unpacked hplanned requests h
  rw [hloops, ← hlaunch.loops]
  exact ⟨hlaunch.accumulates hsum hprovider hfirst hlast, hlaunch.exists_lost hsum⟩

/-- A product with a vector, summed over an I loop of the left input and a J loop of the right one. -/
def foldedProduct : List Loop :=
  [⟨.i, .seq, 2, ⟨4, 0, 0, 0⟩, 0, 0⟩, ⟨.m, .seq, 2, ⟨1, 0, 0, 1⟩, 0, 0⟩,
    ⟨.k, .seq, 2, ⟨2, 1, 0, 0⟩, 0, 0⟩, ⟨.j, .seq, 2, ⟨0, 2, 0, 0⟩, 0, 0⟩]

/-- The nest planned for `foldedProduct`: the loops of one input stand outside the kernel. -/
def foldedNest : Nest :=
  ⟨[⟨.i, .seq, 2, ⟨4, 0, 0, 0⟩, 0, 0⟩, ⟨.j, .seq, 2, ⟨0, 2, 0, 0⟩, 0, 0⟩,
    ⟨.m, .prim, 2, ⟨1, 0, 0, 1⟩, 0, 0⟩, ⟨.n, .prim, 1, 0, 0, 0⟩,
    ⟨.k, .prim, 2, ⟨2, 1, 0, 0⟩, 0, 0⟩], .madd, ⟨1, 1, 1⟩⟩

/-- What is planned for `foldedProduct`. -/
def foldedContraction : Contraction Int :=
  { Contraction.create foldedNest.loops ⟨.fp32, .fp32, .fp32, .fp32⟩ ⟨.zero, .madd, .undefined⟩
      ⟨1, 1, 1⟩ .strided .unlimited with
    maxSlots := Settings.single.slots }

/-- Buffers for `foldedProduct`, with an output that is not blank. -/
def foldedBuffers : Buffers Int := ⟨.fp32, #[1, 2, 3, 4, 5, 6, 7, 8], #[1, 2, 3, 4], none, #[9, 9]⟩

theorem isOneSidedProduct_foldedProduct : IsOneSidedProduct foldedProduct :=
  ⟨by decide, by decide, by decide, by decide, by decide +kernel⟩

theorem planned_foldedProduct :
    Contraction.planned foldedProduct .fp32 ⟨.zero, .madd, .undefined⟩ Settings.single .strided
      .unlimited = .ok foldedContraction := by
  have hplan : Nest.plan Settings.single .madd .fp32 foldedProduct = .ok foldedNest :=
    plan_eq_ok_of_stages (by decide)
      (show Nest.stages Settings.single .madd .fp32 foldedProduct =
        .ok (⟨foldedNest.loops, 1, 1⟩, .madd) by decide +kernel)
  unfold Contraction.planned
  rw [hplan]
  rfl

/-- A launch for `foldedProduct` leaves the products of the last iterations of the I loop and the J
loop, summed over K. -/
theorem contract_accumulates_foldedProduct :
    ∃ next outcome, ([.compile].foldl Contraction.serve foldedContraction).contract foldedBuffers =
        (next, .ok outcome) ∧
      Accumulates foldedProduct [⟨4, 2, 0, 0⟩, ⟨6, 3, 0, 0⟩] foldedBuffers outcome.out := by
  have haccepted : (([.compile].foldl Contraction.serve foldedContraction).contract
      foldedBuffers).2.isOk = true := by decide +kernel
  have hkept : keptSteps Loop.callerStrides (foldedContraction.loops.filter Loop.isSummed) =
      [⟨4, 2, 0, 0⟩, ⟨6, 3, 0, 0⟩] := by decide +kernel
  rcases hlaunch : ([.compile].foldl Contraction.serve foldedContraction).contract
    foldedBuffers with ⟨next, error | outcome⟩
  · rw [hlaunch] at haccepted
    exact absurd haccepted (by simp [Except.isOk, Except.toBool])
  · obtain ⟨hsums, -⟩ := contract_accumulates (by decide) isOneSidedProduct_foldedProduct rfl rfl
      planned_foldedProduct [.compile] hlaunch
    rw [hkept] at hsums
    exact ⟨next, outcome, hlaunch, hsums⟩

/-- The launch does not leave the sum over all index tuples: the first element is 43 in place of
84. -/
theorem contract_drops_oneSided :
    IsOneSidedProduct foldedProduct ∧
      Contraction.planned foldedProduct .fp32 ⟨.zero, .madd, .undefined⟩ Settings.single .strided
        .unlimited = .ok foldedContraction ∧
      (([.compile].foldl Contraction.serve foldedContraction).contract foldedBuffers).2.map
        Outcome.out = .ok #[43, 50] ∧
      ¬Accumulates foldedProduct (offsets Loop.strides (foldedProduct.filter Loop.isSummed))
        foldedBuffers #[43, 50] := by
  refine ⟨isOneSidedProduct_foldedProduct, planned_foldedProduct, by decide +kernel, fun hall => ?_⟩
  have hfirst := hall.element 0 (by decide +kernel)
  have hsum : Part.whole.sumAt foldedBuffers.inputs 0 0
      (offsets Loop.strides (foldedProduct.filter Loop.isSummed)) = 84 := by decide +kernel
  rw [hsum] at hfirst
  exact absurd hfirst (by decide)

end LoopNest
