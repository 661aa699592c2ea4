import LoopNest.Proofs.Kernel.Agreement
import LoopNest.Proofs.Launch.Elements
import LoopNest.Proofs.Planning.IterationSpace
import LoopNest.Proofs.Planning.PackedStrides
import LoopNest.Proofs.Planning.Product

/-!
# Contractions compute sums of products

A list of sequential loops in any order describes a product of two tensors (`IsProduct`). Whatever
loops and kernels are planned for it, every accepted launch of the planned contraction leaves in the
output what the given loops say (`Contracts`): each element they address ends as the last touch of
the first touch plus the sum of the products over all steps of the reduction, and no other element
changes. This is `contract_contracts`, for exact integers.

The proof puts together that planning keeps the index tuples, that packed blocks hold what the
caller's buffers hold, and that the visits of the threads bracket every tile.
-/

namespace LoopNest

/-! ## Products -/

/-- Whether a loop belongs to the output in each plane. -/
def Loop.isCore (loop : Loop) : Bool := !decide (loop.axis = .k) && !decide (loop.axis = .cpx)

/-- The strides of the complex loop. -/
def planeStrides (loops : List Loop) : Operands Int := ((ofAxis loops .cpx).getD 0 .unit).strides

/-- A list of sequential loops that describes a product, with one complex loop of two iterations for
a complex product and none for a real one. Different output elements lie at different addresses. -/
structure IsProduct (main : KernelTag) (loops : List Loop) : Prop where
  sequential : ∀ loop ∈ loops, loop.mode = .seq
  unpacked : ∀ loop ∈ loops, loop.sourceLeft = 0 ∧ loop.sourceRight = 0
  multiplies : ∀ loop ∈ loops, loop.axis.Multiplies loop.strides
  planes : (ofAxis loops .cpx).map Loop.size = if main = .cpxMadd then [2] else []
  apart : ((offsets Loop.strides (loops.filter fun loop => !loop.isReduction)).map
    Operands.out).Nodup

/-- The buffers that a launch reads. -/
def Buffers.inputs {α : Type} (buffers : Buffers α) : Inputs α :=
  ⟨buffers.left, buffers.right, buffers.outAux⟩

/-- The output `out` of a product. All operands are addressed by the strides of the given loops. -/
structure Contracts (loops : List Loop) (tags : KernelTags) (buffers : Buffers Int)
    (out : Buffer Int) : Prop where
  size : out.size = buffers.out.size
  reads : ∀ z ∈ offsets Loop.strides loops, ∀ side,
    ∃ y, Buffer.read? (buffers.inputs.buffer side) (z.input side) = some y
  element : ∀ x ∈ offsets Loop.strides (loops.filter Loop.isCore), ∀ part ∈ tags.main.parts,
    ∃ old, Buffer.read? buffers.out (x + part.plane • planeStrides loops).out = some old ∧
      Buffer.read? out (x + part.plane • planeStrides loops).out =
        some (tags.last.touch (buffers.inputs.auxElement (x + part.plane • planeStrides loops).outAux)
          (tags.first.touch (buffers.inputs.auxElement (x + part.plane • planeStrides loops).outAux)
              old +
            part.sumAt buffers.inputs (planeStrides loops) x
              (offsets Loop.strides (ofAxis loops .k))))
  frame : ∀ address, (∀ x ∈ offsets Loop.strides (loops.filter Loop.isCore),
    ∀ part ∈ tags.main.parts, (x + part.plane • planeStrides loops).out ≠ address) →
      Buffer.read? out address = Buffer.read? buffers.out address

/-! ## Kernels -/

/-- The strides of an empty slot follow every rule. -/
theorem KernelNest.Fills.aligned {nest : KernelNest} {kernel : List Loop} (h : nest.Fills kernel)
    (hm : ∀ loop ∈ kernel, loop.axis = .m → loop.callerStrides.right = 0)
    (hn : ∀ loop ∈ kernel, loop.axis = .n → loop.callerStrides.left = 0) :
    nest.n.callerStrides.left = 0 ∧ nest.m.callerStrides.right = 0 := by
  have hmem : ∀ loop ∈ nest.loops, loop.isPrim = true → loop ∈ kernel := fun loop hloop hprim =>
    h.kernel ▸ List.mem_filter.2 ⟨hloop, hprim⟩
  constructor
  · rcases h.n with ⟨hprim, haxis⟩ | hunit
    · exact hn nest.n (hmem nest.n (by simp [KernelNest.loops]) hprim) haxis
    · rw [hunit]
      rfl
  · rcases h.m with ⟨hprim, haxis⟩ | hunit
    · exact hm nest.m (hmem nest.m (by simp [KernelNest.loops]) hprim) haxis
    · rw [hunit]
      rfl

namespace Program.Computes

variable {program : Program} {tags : KernelTags} {kernel : KernelTag} {main : MainKernel}

/-- What kernels compute for the touch tags does not depend on the main tag. -/
theorem of_touchTags (h : program.Computes { tags with main := kernel } main) :
    program.Computes tags main := by
  have htouch : ∀ which, { tags with main := kernel }.touchTag which = tags.touchTag which := by
    intro which
    cases which with
    | first => rfl
    | last => rfl
  exact { h with touch := fun which => htouch which ▸ h.touch which }

/-- A kernel has as many planes as parts. -/
theorem planes_eq (h : program.Computes tags main) (hparts : main.method.parts = kernel.parts) :
    main.shape.planes = if kernel.hasComplexLoop then 2 else 1 := by
  have hlength := congrArg List.length h.parts
  rw [List.length_map, length_upTo, hparts, KernelTag.parts] at hlength
  split at hlength
  · rename_i hcomplex
    rw [if_pos hcomplex]
    simp only [List.length_cons, List.length_nil] at hlength
    omega
  · rename_i hreal
    rw [if_neg hreal]
    simp only [List.length_cons, List.length_nil] at hlength
    omega

end Program.Computes

/-- What the kernels that were made for a list of loops compute. -/
theorem exists_main {program : Program} {tags : KernelTags} {provider : Provider}
    {loops : List Loop} (hprovider : provider ≠ .recording)
    (hmake : tags.make provider loops = .ok program.kernels) (hkernel : KernelLast loops)
    (hsizes : ∀ loop ∈ loops, 1 ≤ loop.size)
    (hm : ∀ loop ∈ loops, loop.axis = .m → loop.callerStrides.right = 0)
    (hn : ∀ loop ∈ loops, loop.axis = .n → loop.callerStrides.left = 0)
    (hout : ((offsets Loop.callerStrides ((kernelLoops loops).filter fun loop =>
      !loop.isReduction)).map Operands.out).Nodup) :
    ∃ (nest : KernelNest) (main : MainKernel), nest.Fills (kernelLoops loops) ∧
      main.shape = nest.shape program.kernels.shape Loop.callerStrides ∧
      main.method.parts = tags.main.parts ∧ program.Computes tags main ∧
      program.Agrees Int main (kernelLoops loops) := by
  obtain ⟨hshape, hmade, hfirst, hlast⟩ := KernelTags.make_eq_ok hmake
  obtain ⟨nest, hfills, hnest, haux, hplanes⟩ := KernelShape.exists_nest hkernel hshape
  obtain ⟨hsame, hparts⟩ := Provider.mainKernel_eq_ok hprovider hmade
  have hunits : ∀ loop ∈ nest.loops, 1 ≤ loop.size :=
    hfills.forall_loops (Int.le_refl 1) fun loop hloop => hsizes loop (List.mem_of_mem_filter hloop)
  -- the parts of the kernel are its planes, one for a real product and two for a complex one
  have hplane : nest.plane.size = if tags.main.hasComplexLoop then 2 else 1 :=
    (congrArg KernelShape.planes hnest).trans hplanes
  have hupTo : program.kernels.main.method.parts.map Part.plane = upTo nest.plane.size := by
    rw [hparts, KernelTag.parts, hplane]
    split <;> rfl
  refine ⟨nest, ⟨program.kernels.main.method, nest.shape program.kernels.shape Loop.callerStrides⟩,
    hfills, rfl, hparts, ?_, ?_⟩
  · obtain ⟨hleft, hright⟩ := hfills.aligned (fun loop hloop => hm loop (List.mem_of_mem_filter hloop))
      fun loop hloop => hn loop (List.mem_of_mem_filter hloop)
    -- both touch kernels were made for the shape of the main kernel
    have hmakes : ∀ which, KernelTags.makeTouch provider program.kernels.shape
        (tags.touchTag which) = .ok (program.touchKernel which) := by
      intro which
      cases which with
      | first => exact hfirst
      | last => exact hlast
    have helements : ∀ plane p,
        (nest.shape program.kernels.shape Loop.strides).elementOffset plane p =
          program.kernels.shape.elementOffset plane p := fun plane p =>
      congrArg (fun shape => KernelShape.elementOffset shape plane p) hnest
    refine ⟨fun which => ⟨provider, hprovider, hmakes which⟩, haux,
      (congrArg KernelShape.tile hnest).symm, fun plane p => ?_,
      (congrArg KernelShape.planes hnest).symm, hupTo, ⟨hleft, hright⟩, ?_⟩
    · exact ⟨(congrArg Operands.out (helements plane p)).symm,
        (congrArg Operands.outAux (helements plane p)).symm⟩
    · have hperm := KernelShape.elements_perm hfills program.kernels.shape Loop.callerStrides
      exact (hperm.map Operands.out).nodup_iff.1 hout
  · intro view view' hview
    -- a kernel with real and imaginary parts has a plane for each of them
    have hmethod : program.kernels.main.method = .complex → nest.plane.size = 2 := by
      intro hcomplex
      have hlength := congrArg List.length hupTo
      have hpos := hunits nest.plane List.mem_cons_self
      rw [hcomplex, length_upTo] at hlength
      simp only [MainMethod.parts, List.map_cons, List.map_nil, List.length_cons,
        List.length_nil] at hlength
      omega
    have hupdates := hfills.updates_eq program.kernels.shape hunits hmethod hview
    rw [hnest] at hupdates
    have hmain : program.kernels.main = ⟨program.kernels.main.method, program.kernels.shape⟩ := by
      rw [← hsame]
    rw [hmain]
    exact hupdates

/-! ## Addresses of the given loops -/

/-- The planes of a product are the multiples of the strides of its complex loop. -/
theorem IsProduct.offsets_planes {main : KernelTag} {loops : List Loop} (h : IsProduct main loops) :
    offsets Loop.strides (ofAxis loops .cpx) =
      multiples (if main = .cpxMadd then 2 else 1) (planeStrides loops) := by
  have hplanes := h.planes
  rw [planeStrides]
  split at hplanes
  · rename_i hmain
    obtain ⟨loop, hloop, hsize⟩ := List.map_eq_singleton_iff.1 hplanes
    rw [hloop, if_pos hmain, offsets, hsize]
    exact sumset_zero _
  · rename_i hmain
    rw [List.map_eq_nil_iff.1 hplanes, if_neg hmain, multiples_one]
    rfl

/-- Two planes are in the same places if their strides are the same. -/
theorem eq_of_multiples_two_perm {x y : Operands Int}
    (h : (multiples 2 x).Perm (multiples 2 y)) : x = y := by
  have hmultiples : ∀ z : Operands Int, multiples 2 z = [0, z] := fun z => by
    simp [multiples, upTo, List.range_succ]
  rw [hmultiples, hmultiples] at h
  exact List.perm_singleton.1 h.cons_inv |> fun h => by simpa using h

/-- The loops outside the kernel and the block of the main kernel reach what the loops of a product
reach, all through the buffers of the caller. -/
structure Program.Addresses (program : Program) (main : MainKernel) (tag : KernelTag)
    (loops : List Loop) : Prop where
  all : (offsets Loop.callerStrides program.layout.loops).Perm (offsets Loop.strides loops)
  core : (sumset (offsets Loop.callerStrides ((outerLoops program.layout.loops).filter fun loop =>
      !loop.isReduction)) (main.shape.tile.map main.shape.pointOffset)).Perm
    (offsets Loop.strides (loops.filter Loop.isCore))
  elements : (sumset (offsets Loop.callerStrides ((outerLoops program.layout.loops).filter
      fun loop => !loop.isReduction)) main.shape.elements).Perm
    (offsets Loop.strides (loops.filter fun loop => !loop.isReduction))
  reduction : (sumset (offsets Loop.callerStrides ((outerLoops program.layout.loops).filter
      Loop.isReduction)) (main.shape.steps.map main.shape.stepOffset)).Perm
    (offsets Loop.strides (ofAxis loops .k))
  plane : ∀ part ∈ tag.parts, part = .whole ∨ main.shape.stridePlane = planeStrides loops

/-- The complex loop of a planned product is a kernel loop: outside the kernel there is none with
more than one iteration. -/
theorem plan_planes {settings : Settings} {kernel : KernelTag} {element : ElementType}
    {loops : List Loop} {nest : Nest} (hproduct : IsProduct kernel loops)
    (hplan : Nest.plan settings kernel element loops = .ok nest) (hkernel : KernelLast nest.loops)
    (hsizes : ∀ loop ∈ nest.loops, 1 ≤ loop.size) {slots : KernelNest}
    (hfills : slots.Fills (kernelLoops nest.loops))
    (hplane : slots.plane.size = if kernel = .cpxMadd then 2 else 1) :
    (∀ loop ∈ outerLoops nest.loops, loop.axis = .cpx → loop.size = 1) ∧
      (kernel = .cpxMadd → slots.plane.callerStrides = planeStrides loops) := by
  have hperm := plan_offsets_filter hproduct.unpacked hplan fun axis => decide (axis = .cpx)
  have hplanes := hproduct.offsets_planes
  rw [ofAxis] at hplanes
  rw [hkernel.offsets_filter, hfills.planes_eq, hplanes, ← hplane] at hperm
  -- the kernel has as many planes as the product, so the other loops have one index tuple
  have hone : (offsets Loop.callerStrides ((outerLoops nest.loops).filter fun loop =>
      decide (loop.axis = .cpx))).length = 1 := by
    have hlength := hperm.length_eq
    rw [length_sumset, length_multiples, length_multiples] at hlength
    have hpos : 0 < slots.plane.size.toNat := by
      rw [hplane]
      split <;> decide
    exact Nat.eq_of_mul_eq_mul_right hpos (hlength.trans (Nat.one_mul _).symm)
  have hsize := size_eq_one_of_length_offsets _ (fun loop hloop =>
    hsizes loop (List.mem_of_mem_filter (List.mem_of_mem_filter hloop))) hone
  have hunit : ∀ loop ∈ outerLoops nest.loops, loop.axis = .cpx → loop.size = 1 :=
    fun loop hloop haxis => hsize loop (List.mem_filter.2 ⟨hloop, decide_eq_true haxis⟩)
  refine ⟨hunit, fun hcomplex => ?_⟩
  have hzero : offsets Loop.callerStrides ((outerLoops nest.loops).filter fun loop =>
      decide (loop.axis = .cpx)) =
        offsets Loop.callerStrides ((outerLoops nest.loops).filter fun _ => false) :=
    offsets_filter_congr Loop.callerStrides fun loop hloop hne =>
      decide_eq_false fun haxis => hne (hunit loop hloop haxis)
  rw [List.filter_false, offsets] at hzero
  rw [hzero, zero_sumset, hplane, if_pos hcomplex] at hperm
  exact eq_of_multiples_two_perm hperm

/-- The main kernel of a planned nest computes the parts that were asked for. -/
theorem plan_parts {settings : Settings} {kernel : KernelTag} {element : ElementType}
    {loops : List Loop} {nest : Nest} (h : Nest.plan settings kernel element loops = .ok nest) :
    nest.kernel.parts = kernel.parts := by
  rw [KernelTag.parts, plan_hasComplexLoop h]
  rcases plan_kernel h with rfl | rfl
  · rfl
  · rfl

/-- A program for a planned product reaches what the given loops reach. -/
theorem plan_addresses {settings : Settings} {kernel : KernelTag} {element : ElementType}
    {loops : List Loop} {nest : Nest} (hproduct : IsProduct kernel loops)
    (hplan : Nest.plan settings kernel element loops = .ok nest) {program : Program}
    (hloops : program.layout.loops = nest.loops) (hkernel : KernelLast nest.loops)
    (hsizes : ∀ loop ∈ nest.loops, 1 ≤ loop.size) {slots : KernelNest}
    (hfills : slots.Fills (kernelLoops nest.loops))
    (hplane : slots.plane.size = if kernel = .cpxMadd then 2 else 1) {main : MainKernel}
    (hmain : ∃ base, main.shape = slots.shape base Loop.callerStrides) :
    program.Addresses main kernel loops := by
  obtain ⟨base, hshape⟩ := hmain
  obtain ⟨hunit, hstrides⟩ := plan_planes hproduct hplan hkernel hsizes hfills hplane
  have hfilter := plan_offsets_filter hproduct.unpacked hplan
  refine ⟨?_, ?_, ?_, ?_, fun part hpart => ?_⟩
  · have hall := hfilter fun _ => true
    rwa [List.filter_true, List.filter_true, ← hloops] at hall
  · -- complex loops outside the kernel have one iteration, so the tile has no plane among its axes
    have hcore := hfilter fun axis => !decide (axis = .k) && !decide (axis = .cpx)
    rw [hkernel.offsets_filter] at hcore
    rw [hloops, hshape]
    refine List.Perm.trans (sumset_perm (List.Perm.of_eq ?_) (hfills.tile_perm base _).symm) hcore
    refine offsets_filter_congr _ fun loop hloop hne => ?_
    have haxis : loop.axis ≠ .cpx := fun haxis => hne (hunit loop hloop haxis)
    simp [Loop.isReduction, haxis]
  · have helements := hfilter fun axis => !decide (axis = .k)
    rw [hkernel.offsets_filter] at helements
    rw [hloops, hshape]
    exact List.Perm.trans (sumset_perm (List.Perm.refl _)
      (KernelShape.elements_perm hfills base Loop.callerStrides).symm) helements
  · -- the steps of the reduction are the K loops, of the kernel and around it
    have hreduction := hfilter fun axis => decide (axis = .k)
    rw [hkernel.offsets_filter, hfills.steps_eq base] at hreduction
    rw [hloops, hshape]
    exact hreduction
  · rcases plan_kernel hplan with rfl | rfl
    · exact .inl (by simpa [KernelTag.parts, KernelTag.hasComplexLoop] using hpart)
    · exact .inr (by rw [hshape]; exact hstrides rfl)

/-! ## What the visits of a launch leave -/

theorem Part.sumAt_eq {part : Part} (inputs : Inputs Int) {plane plane' : Operands Int}
    (hplane : part = .whole ∨ plane = plane') (x : Operands Int) {steps steps' : List (Operands Int)}
    (hsteps : steps.Perm steps') : part.sumAt inputs plane x steps =
      part.sumAt inputs plane' x steps' := by
  refine ((hsteps.map _).sum_eq).trans ?_
  rcases hplane with rfl | rfl
  · rfl
  · rfl

namespace Program.Addresses

variable {program : Program} {tags : KernelTags} {main : MainKernel} {loops : List Loop}

/-- The places of an element are the offset of a tile and the offset of a point of the block. -/
theorem place_eq (h : program.Addresses main tags.main loops) {part : Part}
    (hpart : part ∈ tags.main.parts) (t : Operands Int) (p : TilePoint) :
    t + main.shape.elementOffset part.plane p =
      t + main.shape.pointOffset p + part.plane • planeStrides loops := by
  have hplane : part.plane • main.shape.stridePlane = part.plane • planeStrides loops := by
    rcases h.plane part hpart with rfl | hstrides
    · rw [Part.plane, zero_smul, zero_smul]
    · rw [hstrides]
  rw [KernelShape.elementOffset, hplane, add_assoc, add_comm (main.shape.pointOffset p)]

/-- The visits of a launch leave in the output what the given loops say. -/
theorem contracts (h : program.Addresses main tags.main loops)
    (hproduct : IsProduct tags.main loops) (hsizes : ∀ loop ∈ loops, 1 ≤ loop.size)
    (hcomputes : program.Computes tags main) (hparts : main.method.parts = tags.main.parts)
    (hbuilt : program.IsBuilt) (hkernel : KernelLast program.layout.loops)
    (hstrides : ∀ loop ∈ program.layout.loops, loop.axis.Multiplies loop.callerStrides)
    (hout : ((offsets Loop.callerStrides (program.layout.loops.filter fun loop =>
      !loop.isReduction)).map Operands.out).Nodup) {before omp sfc after kernel : List Loop}
    (hcut : Layout.Cut program.layout.loops before omp sfc after kernel) {buffers : Buffers Int}
    (hheld : ∀ z ∈ offsets Loop.strides loops,
      (∀ side, ∃ y, Buffer.read? (buffers.inputs.buffer side) (z.input side) = some y) ∧
        ∃ y, Buffer.read? buffers.out z.out = some y) :
    Contracts loops tags buffers (Buffer.updateAll buffers.out
      ((program.launchVisits Loop.callerStrides before after).flatMap
        (program.visitUpdates main buffers.inputs))) := by
  obtain ⟨hpos, hstill⟩ := reduction_stays hbuilt.sizes fun loop hloop hk =>
    (hstrides loop hloop).k (of_decide_eq_true hk)
  have hbrackets := brackets_launchVisits_append hbuilt hbuilt.keepsParallel hcut
    (fun loop hloop hk => ⟨((hstrides loop hloop).k (of_decide_eq_true hk)).1,
      ((hstrides loop hloop).k (of_decide_eq_true hk)).1⟩)
    (nodup_outerLoops hkernel hbuilt.sizes hout)
  have hapart := (h.elements.map Operands.out).nodup_iff.2 hproduct.apart
  refine ⟨Buffer.size_updateAll _ _, fun z hz side => (hheld z hz).1 side, ?_, ?_⟩
  · intro x hx part hpart
    obtain ⟨t, ht, y, hy, rfl⟩ := mem_sumset.1 (h.core.mem_iff.2 hx)
    obtain ⟨p, hp, rfl⟩ := List.mem_map.1 hy
    rw [← h.place_eq hpart t p]
    have hmethod : part ∈ main.method.parts := hparts ▸ hpart
    have hplace : t + main.shape.elementOffset part.plane p ∈ offsets Loop.strides loops :=
      mem_offsets_of_filter _ hsizes (h.elements.mem_iff.1
        (mem_sumset.2 ⟨t, ht, _, hcomputes.elementOffset_mem hmethod hp, rfl⟩))
    obtain ⟨old, hold⟩ := (hheld _ hplace).2
    refine ⟨old, hold, ?_⟩
    rw [Buffer.read?_updateAll, hold, Option.map_some,
      hcomputes.effectAt_visits hbrackets hpos hstill hapart ht hmethod hp,
      Part.sumAt_eq _ (h.plane part hpart) _ h.reduction]
  · intro address hother
    have hkept : effectAt address ((program.launchVisits Loop.callerStrides before after).flatMap
        (program.visitUpdates main buffers.inputs)) = id := by
      refine funext (hcomputes.effectAt_visits_of_ne hbrackets.tile fun t ht part hpart p hp => ?_)
      rw [h.place_eq (hparts ▸ hpart) t p]
      exact hother _ (h.core.mem_iff.1 (mem_sumset.2 ⟨t, ht, _, List.mem_map_of_mem hp, rfl⟩)) part
        (hparts ▸ hpart)
    rw [Buffer.read?_updateAll, hkept, Option.map_id]
    rfl

end Program.Addresses

/-! ## Launches of planned contractions -/

/-- What a planned contraction is made from. -/
theorem Contraction.planned_eq_ok {α : Type} {loops : List Loop} {element : ElementType}
    {tags : KernelTags} {settings : Settings} {provider : Provider} {pools : PoolBuilder}
    {contraction : Contraction α}
    (h : Contraction.planned loops element tags settings provider pools = .ok contraction) :
    ∃ nest, Nest.plan settings tags.main element loops = .ok nest ∧
      contraction.loops = nest.loops ∧ contraction.tags = { tags with main := nest.kernel } ∧
      contraction.provider = provider ∧ contraction.program = none ∧
      contraction.scratch.pool.unit = contraction.types.out.bytes ∧
      contraction.types.out = element := by
  obtain ⟨nest, hplan, h⟩ := bind_eq_ok.1 h
  obtain rfl := pure_eq_ok.1 h
  exact ⟨nest, hplan, rfl, rfl, rfl, rfl, rfl, rfl⟩

/-- Buffers that are accepted hold an element for every index tuple. -/
theorem Contraction.Accepts.holds {contraction : Contraction Int} {program : Program}
    {buffers : Buffers Int} (h : contraction.Accepts program buffers) (hbuilt : program.IsBuilt)
    (hforward : ∀ loop ∈ program.layout.loops,
      (∀ side, 0 ≤ loop.bufferStride side) ∧ 0 ≤ loop.strides.out)
    {z : Operands Int} (hz : z ∈ offsets Loop.callerStrides program.layout.loops) :
    (∀ side, ∃ y, Buffer.read? (buffers.inputs.buffer side) (z.input side) = some y) ∧
      ∃ y, Buffer.read? buffers.out z.out = some y := by
  have hleft := h.left
  have hright := h.right
  have hout := h.out
  rw [hbuilt.extents] at hleft hright hout
  -- in every stream the offset of an index tuple is an offset of the loops
  have hmem : ∀ f : Operands Int →+ Int, f z ∈
      offsets (fun loop => f loop.callerStrides) program.layout.loops := by
    intro f
    rw [← map_offsets]
    exact List.mem_map_of_mem hz
  refine ⟨fun side => ?_, ?_⟩
  · have hinputs : ∀ loop ∈ program.layout.loops, 0 ≤ loop.callerStrides.input side := by
      intro loop hloop
      rw [loop.callerStrides_input side]
      exact (hforward loop hloop).1 side
    have hinput := hmem (Operands.inputHom side)
    cases side with
    | left => exact exists_read?_of_extentBy hinputs hleft hinput
    | right => exact exists_read?_of_extentBy hinputs hright hinput
  · exact exists_read?_of_extentBy (fun loop hloop => (hforward loop hloop).2) hout
      (hmem Operands.outHom)

/-- The kernels that were made for a planned product compute it. -/
theorem exists_addresses {settings : Settings} {element : ElementType} {tags : KernelTags}
    {loops : List Loop} {nest : Nest} {provider : Provider} (hprovider : provider ≠ .recording)
    (hproduct : IsProduct tags.main loops)
    (hplan : Nest.plan settings tags.main element loops = .ok nest) {program : Program}
    (hbuilt : program.IsBuilt) (hprogram : program.layout.loops = nest.loops)
    (hkernel : KernelLast program.layout.loops)
    (hmakes : KernelTags.make { tags with main := nest.kernel } provider program.layout.loops =
      .ok program.kernels)
    (hstrides : ∀ loop ∈ program.layout.loops, loop.axis.Multiplies loop.callerStrides)
    (hout : ((offsets Loop.callerStrides (program.layout.loops.filter fun loop =>
      !loop.isReduction)).map Operands.out).Nodup) :
    ∃ main : MainKernel, main.method.parts = tags.main.parts ∧ program.Computes tags main ∧
      program.Agrees Int main (kernelLoops program.layout.loops) ∧
      program.Addresses main tags.main loops := by
  obtain ⟨slots, main, hfills, hshape, hparts, hcomputes, hagrees⟩ :=
    exists_main hprovider hmakes hkernel hbuilt.sizes (fun loop hloop => (hstrides loop hloop).m)
      (fun loop hloop => (hstrides loop hloop).n) (nodup_kernelLoops hkernel hbuilt.sizes hout)
  have hparts : main.method.parts = tags.main.parts := hparts.trans (plan_parts hplan)
  have hcomputes := hcomputes.of_touchTags
  -- planning may change the tag, but not its planes
  have hplane : slots.plane.size = if tags.main = .cpxMadd then 2 else 1 := by
    have hplanes := hcomputes.planes_eq hparts
    rw [hshape] at hplanes
    refine hplanes.trans ?_
    rcases plan_kernel hplan with hmain | hmain <;> rw [hmain] <;> rfl
  refine ⟨main, hparts, hcomputes, hagrees, ?_⟩
  exact plan_addresses hproduct hplan hprogram (hprogram ▸ hkernel) (hprogram ▸ hbuilt.sizes)
    (hprogram ▸ hfills) hplane ⟨_, hshape⟩

/-- An accepted launch of a planned contraction. A program was built for the planned nest, the buffers
are as long as its loops reach, and the output is what the visits of all threads leave there,
through the caller's buffers. -/
structure PlannedLaunch (settings : Settings) (element : ElementType) (loops : List Loop)
    (tags : KernelTags) (provider : Provider) (buffers : Buffers Int) (outcome : Outcome Int)
    (nest : Nest) (program : Program) : Prop where
  plan : Nest.plan settings tags.main element loops = .ok nest
  built : program.IsBuilt
  loops : program.layout.loops = nest.loops
  kernelLast : KernelLast program.layout.loops
  makes : KernelTags.make { tags with main := nest.kernel } provider program.layout.loops =
    .ok program.kernels
  holds : (∀ loop ∈ program.layout.loops, (∀ side, 0 ≤ loop.bufferStride side) ∧
      0 ≤ loop.strides.out) → ∀ z ∈ offsets Loop.callerStrides program.layout.loops,
    (∀ side, ∃ y, Buffer.read? (buffers.inputs.buffer side) (z.input side) = some y) ∧
      ∃ y, Buffer.read? buffers.out z.out = some y
  out : (∀ loop ∈ program.layout.loops, ∀ side, 0 ≤ loop.bufferStride side) →
    ∀ main, program.Agrees Int main (kernelLoops program.layout.loops) →
      ∀ {before omp sfc after kernel},
        Layout.Cut program.layout.loops before omp sfc after kernel →
          outcome.out = Buffer.updateAll buffers.out
            ((program.launchVisits Loop.callerStrides before after).flatMap
              (program.visitUpdates main buffers.inputs))

/-- What is known of an accepted launch of a planned contraction, after whatever the contraction was
asked before. -/
theorem exists_plannedLaunch {loops : List Loop} {element : ElementType} {tags : KernelTags}
    {settings : Settings} {provider : Provider} {pools : PoolBuilder}
    (hsequential : ∀ loop ∈ loops, loop.mode = .seq)
    (hunpacked : ∀ loop ∈ loops, loop.IsUnpacked) {contraction : Contraction Int}
    (hplanned : Contraction.planned loops element tags settings provider pools = .ok contraction)
    (requests : List (Request Int)) {buffers : Buffers Int} {next : Contraction Int}
    {outcome : Outcome Int}
    (h : (requests.foldl Contraction.serve contraction).contract buffers = (next, .ok outcome)) :
    ∃ nest program, contraction.loops = nest.loops ∧
      PlannedLaunch settings element loops tags provider buffers outcome nest program := by
  obtain ⟨nest, hplan, hloops, htags, hgiven, hnew, hunit, -⟩ := Contraction.planned_eq_ok hplanned
  have hkernel : KernelLast nest.loops := plan_kernelLast hunpacked
    (fun loop hloop => by simp [Loop.isPrim, hsequential loop hloop]) hplan
  obtain ⟨hready, hsame⟩ := Contraction.isReady_foldl_serve
    (fun program hprogram => absurd (hnew.symm.trans hprogram) (by simp)) requests
  obtain ⟨program, slices, haccepts, hlaunches⟩ := Contraction.contract_launches hready h
  have hready := hready program hlaunches.compiled
  have hbuilt := hready.built
  have hprogram : program.layout.loops = nest.loops :=
    (hready.loops.trans hsame.loops).trans hloops
  -- no request changes the loops, the tags or the provider that the kernels are made from
  have hmakes : KernelTags.make { tags with main := nest.kernel } provider nest.loops =
      .ok program.kernels := by
    have hmakes := Contraction.make_of_makeKernels hready.kernels
    rwa [hsame.tags, hsame.provider, hsame.loops, htags, hgiven, hloops] at hmakes
  have hapart := plan_packedApart hunpacked hplan
  rw [← hprogram] at hkernel hmakes hapart
  refine ⟨nest, program, hloops, hplan, hbuilt, hprogram, hkernel, hmakes,
    fun hforward z hz => haccepts.holds hbuilt hforward hz, ?_⟩
  intro hnonneg main hagrees before omp sfc after kernel hcut
  have hprim : kernelLoops program.layout.loops = kernel :=
    (hcut.filter_mode fun mode => mode = .prim).trans (by simp)
  exact hlaunches.out_eq_updateAll hready hkernel hapart hnonneg hbuilt.keepsParallel
    (by rw [hsame.unit, hsame.types, hunit]) hcut (hprim ▸ hagrees) haccepts

/-- Every accepted launch of a planned contraction leaves in the output what the given loops say,
after whatever the contraction was asked before. -/
theorem contract_contracts {loops : List Loop} {element : ElementType} {tags : KernelTags}
    {settings : Settings} {provider : Provider} {pools : PoolBuilder}
    (hprovider : provider ≠ .recording)
    (hproduct : IsProduct tags.main loops) {contraction : Contraction Int}
    (hplanned : Contraction.planned loops element tags settings provider pools = .ok contraction)
    (requests : List (Request Int)) {buffers : Buffers Int} {next : Contraction Int}
    {outcome : Outcome Int}
    (h : (requests.foldl Contraction.serve contraction).contract buffers = (next, .ok outcome)) :
    Contracts loops tags buffers outcome.out := by
  obtain ⟨nest, program, -, hlaunch⟩ :=
    exists_plannedLaunch hproduct.sequential hproduct.unpacked hplanned requests h
  have hstrides := plan_forall strideRule_multiplies hproduct.unpacked hproduct.multiplies
    hlaunch.plan
  have hout := ((plan_offsets_filter hproduct.unpacked hlaunch.plan fun axis =>
    !decide (axis = .k)).map Operands.out).nodup_iff.2 hproduct.apart
  rw [← hlaunch.loops] at hstrides hout
  obtain ⟨main, hparts, hcomputes, hagrees, haddresses⟩ :=
    exists_addresses hprovider hproduct hlaunch.plan hlaunch.built hlaunch.loops hlaunch.kernelLast
      hlaunch.makes hstrides hout
  -- the output is what the visits of all threads leave, through the caller's buffers
  obtain ⟨before, omp, sfc, after, kernel, hcut⟩ :=
    hlaunch.built.sound.exists_cut hlaunch.kernelLast
  have hnonneg : ∀ loop ∈ program.layout.loops, ∀ side, 0 ≤ loop.bufferStride side := by
    intro loop hloop side
    cases side with
    | left => exact (hstrides loop hloop).left
    | right => exact (hstrides loop hloop).right
  have hholds := hlaunch.holds fun loop hloop => ⟨hnonneg loop hloop, (hstrides loop hloop).out⟩
  rw [hlaunch.out hnonneg main hagrees hcut]
  exact haddresses.contracts hproduct (plan_sizes hlaunch.plan) hcomputes hparts hlaunch.built
    hlaunch.kernelLast hstrides hout hcut fun z hz => hholds z (haddresses.all.mem_iff.2 hz)

/-- Buffers for `transposedProduct`, with an output that is not blank. -/
def transposedBuffers : Buffers Int :=
  ⟨.fp32, Array.ofFn (n := 16) fun i => (i : Int), Array.ofFn (n := 24) fun i => 2 * (i : Int) - 23,
    none, .replicate 12 5⟩

/-- What is planned for `transposedProduct`. -/
def transposedContraction : Contraction Int :=
  { Contraction.create transposedNest.loops ⟨.fp32, .fp32, .fp32, .fp32⟩ ⟨.zero, .madd, .relu⟩
      ⟨1, 1, 1⟩ .strided .unlimited with
    maxSlots := Settings.single.slots }

theorem planned_transposedProduct :
    Contraction.planned transposedProduct .fp32 ⟨.zero, .madd, .relu⟩ Settings.single .strided
      .unlimited = .ok transposedContraction := by
  unfold Contraction.planned
  rw [plan_transposedProduct]
  rfl

/-- The second launch for a transposed matrix, which is packed, computes the product. -/
theorem contract_contracts_transposedProduct :
    ∃ next outcome,
      ([.compile, .contract transposedBuffers].foldl Contraction.serve
        transposedContraction).contract transposedBuffers = (next, .ok outcome) ∧
      Contracts transposedProduct ⟨.zero, .madd, .relu⟩ transposedBuffers outcome.out := by
  have hproduct : IsProduct .madd transposedProduct :=
    ⟨by decide, by decide, by decide, by decide, by decide +kernel⟩
  have haccepted : (([.compile, .contract transposedBuffers].foldl Contraction.serve
      transposedContraction).contract transposedBuffers).2.isOk = true := by decide +kernel
  rcases hlaunch : ([.compile, .contract transposedBuffers].foldl Contraction.serve
    transposedContraction).contract transposedBuffers with ⟨next, error | outcome⟩
  · rw [hlaunch] at haccepted
    exact absurd haccepted (by simp [Except.isOk, Except.toBool])
  · exact ⟨next, outcome, hlaunch, contract_contracts (by decide) hproduct planned_transposedProduct
      [.compile, .contract transposedBuffers] hlaunch⟩

end LoopNest
