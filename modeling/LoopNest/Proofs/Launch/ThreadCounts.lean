import LoopNest.Proofs.Launch.Blocks
import LoopNest.Proofs.Parallel.TaskPartition

/-!
# Thread counts do not show

Other numbers of threads cut the tasks into other boxes. Each box has a curve of its own, and what is
packed when depends on the curve. None of this shows in the output, down to the last bit, as long as
no K loop is on the curve: every tile has the same visits in the same order
(`Program.filter_visits_congr`), each visit reads the same blocks (`Program.blockUpdates_congr`), and
updates of different tiles do not meet (`Program.updateAll_launchRoutes_congr`). No law of addition or
multiplication is used.

A list of loops that has a program has one for any numbers of threads, since they are brought into
their bounds (`Program.exists_build`). New scratch memory is made as large as the threads need it
(`Contraction.Compiles.compile_withThreads`). The buffers that are accepted are the same.
`Contraction.contract_withThreads` is the result.
-/

namespace LoopNest

variable {α : Type}

/-- Loops that lead through each tile of the output in one order, however many threads there are: the
kernel loops stand last, no K loop is on the curve or moves through the output, index tuples of the
other loops do not meet there, and packed loops move forward. -/
structure KeepsOrder (loops : List Loop) : Prop where
  kernelLast : KernelLast loops
  curve : ∀ loop ∈ loops, loop.isSfcOn .k = false
  still : ∀ loop ∈ loops, loop.isReduction = true → loop.strides.out = 0
  apart : ((offsets Loop.strides (loops.filter fun loop => !loop.isReduction)).map
    Operands.out).Nodup
  forward : ∀ side, PackedForward side loops

namespace KeepsOrder

variable {loops : List Loop} (h : KeepsOrder loops)

include h

theorem still_strides : ∀ loop ∈ loops, loop.isReduction = true →
    loop.strides.out = 0 ∧ loop.strides.out = 0 := fun loop hloop hk =>
  ⟨h.still loop hloop hk, h.still loop hloop hk⟩

theorem apart_outerLoops (hsizes : ∀ loop ∈ loops, 1 ≤ loop.size) :
    ((offsets Loop.strides ((outerLoops loops).filter fun loop => !loop.isReduction)).map
      Operands.out).Nodup := nodup_outerLoops h.kernelLast hsizes h.apart

end KeepsOrder

namespace Program

variable {program program' : Program} {before omp sfc after kernel : List Loop}

/-! ## The updates of a tile -/

section Tiles

variable (hbuilt : program.IsBuilt)
  (hcut : Layout.Cut program.layout.loops before omp sfc after kernel)
  (horder : KeepsOrder program.layout.loops)

include hbuilt hcut horder

/-- Every route leads to one of the tiles. -/
theorem exists_tile_of_mem_launchRoutes {r : Route} (hr : r ∈ program.launchRoutes) :
    ∃ t ∈ offsets Loop.strides ((outerLoops program.layout.loops).filter fun loop =>
      !loop.isReduction), (r.offset Loop.strides).out = t.out := by
  have hstays := staysOnTile_isReduction hbuilt horder.curve horder.still_strides
  have hruns := hstays.runs_launchVisits hcut hbuilt (fun _ _ _ => rfl)
    (horder.apart_outerLoops hbuilt.sizes)
  rw [← map_visit_launchRoutes hbuilt _ hcut] at hruns
  exact hruns.tile _ (List.mem_map_of_mem hr)

/-- Updates of routes to different tiles do not meet. -/
theorem out_eq_of_address_eq [Scalar α] {inputs : Inputs α} {base : Operands Int}
    (hfollows : program.kernels.Follows (kernelLoops program.layout.loops)) {r r' : Route}
    (hr : r ∈ program.launchRoutes) (hr' : r' ∈ program.launchRoutes) {u u' : Update α}
    (hu : u ∈ program.blockUpdates inputs (r.shift base).visits)
    (hu' : u' ∈ program.blockUpdates inputs (r'.shift base).visits)
    (haddress : u.address = u'.address) :
    (r.offset Loop.strides).out = (r'.offset Loop.strides).out := by
  have hplace : ∀ {r : Route} {u : Update α},
      u ∈ program.blockUpdates inputs (r.shift base).visits →
        ∃ y ∈ offsets Loop.strides ((kernelLoops program.layout.loops).filter fun loop =>
          !loop.isReduction), u.address = base.out + (r.offset Loop.strides).out + y.out := by
    intro r u hu
    obtain ⟨z, hz, haddress⟩ := address_of_mem_blockUpdates hfollows hu
    obtain ⟨y, hy, hyz⟩ := exists_out_eq
      (fun loop hloop => hbuilt.sizes loop (List.mem_of_mem_filter hloop))
      (fun loop hloop => horder.still loop (List.mem_of_mem_filter hloop)) hz
    exact ⟨y, hy, by rw [haddress, hyz]; rfl⟩
  obtain ⟨y, hy, hu⟩ := hplace hu
  obtain ⟨y', hy', hu'⟩ := hplace hu'
  obtain ⟨t, ht, hrt⟩ := exists_tile_of_mem_launchRoutes hbuilt hcut horder hr
  obtain ⟨t', ht', hrt'⟩ := exists_tile_of_mem_launchRoutes hbuilt hcut horder hr'
  -- an element of the output belongs to the block of one tile
  have hblocks := horder.apart
  rw [horder.kernelLast.offsets_filter] at hblocks
  have hsame := eq_of_nodup_sumset (f := id) (g := id) (by rwa [List.map_id, List.map_id])
    ht ht' hy hy' (by simp only [id]; omega)
  rw [hrt, hrt', hsame.1]

end Tiles

/-- With strides put in that do not differ in the output, the routes to a tile are the visits of the
tile. -/
theorem map_visit_filter_launchRoutes (hbuilt : program.IsBuilt)
    (hcut : Layout.Cut program.layout.loops before omp sfc after kernel)
    {stride : Loop → Operands Int} (hstride : ∀ loop, (stride loop).out = loop.strides.out)
    (out : Int) :
    (program.launchRoutes.filter fun r => (r.offset Loop.strides).out = out).map
        (Route.visit stride) = onTile (program.launchVisits stride before after) out := by
  rw [← map_visit_launchRoutes hbuilt _ hcut, onTile, List.filter_map]
  refine congrArg (List.map _) (List.filter_congr fun r hr => ?_)
  obtain ⟨thread, -, hr⟩ := List.mem_flatMap.1 hr
  have hsame := map_offset_of_mem_threadRoutes Operands.outHom Loop.strides stride
    (fun loop => (hstride loop).symm) hr
  exact congrArg (fun i : Int => decide (i = out)) hsame

/-- The routes of each tile are the same for any numbers of threads. -/
theorem filter_visits_congr (hbuilt : program.IsBuilt) (hbuilt' : program'.IsBuilt)
    (hloops : program'.layout.loops = program.layout.loops)
    (hcut : Layout.Cut program.layout.loops before omp sfc after kernel)
    (horder : KeepsOrder program.layout.loops) (out : Int) :
    (program'.launchRoutes.map Route.visits).filter (fun p => p.1.offset.out = out) =
      (program.launchRoutes.map Route.visits).filter fun p => p.1.offset.out = out := by
  have hcut' := hloops ▸ hcut
  -- the visits of the tile are the same by any strides that do not differ in the output
  have hvisits : ∀ stride : Loop → Operands Int, (∀ loop, (stride loop).out = loop.strides.out) →
      program.KeepsParallel stride →
        (program'.launchRoutes.filter fun r => (r.offset Loop.strides).out = out).map
            (Route.visit stride) =
          (program.launchRoutes.filter fun r => (r.offset Loop.strides).out = out).map
            (Route.visit stride) := by
    intro stride hstride hkeeps
    have hapart := horder.apart_outerLoops hbuilt.sizes
    rw [show Operands.out = ⇑Operands.outHom from rfl, map_offsets,
      show (fun loop => Operands.outHom loop.strides) = fun loop => Operands.outHom (stride loop)
        from funext fun loop => (hstride loop).symm, ← map_offsets] at hapart
    rw [map_visit_filter_launchRoutes hbuilt' hcut' hstride,
      map_visit_filter_launchRoutes hbuilt hcut hstride]
    exact onTile_launchVisits_congr hbuilt hbuilt' hloops hkeeps hcut horder.curve
      (fun loop hloop hk => ⟨horder.still loop hloop hk,
        (hstride loop).trans (horder.still loop hloop hk)⟩) hapart out
  have hzip : ∀ program : Program,
      (program.launchRoutes.map Route.visits).filter (fun p => p.1.offset.out = out) =
        ((program.launchRoutes.filter fun r => (r.offset Loop.strides).out = out).map
            (Route.visit Loop.strides)).zip
          ((program.launchRoutes.filter fun r => (r.offset Loop.strides).out = out).map
            (Route.visit Loop.blockStrides)) := fun program =>
    List.filter_map.trans List.zip_map'.symm
  rw [hzip, hzip, hvisits Loop.strides (fun _ => rfl) fun _ _ _ => rfl,
    hvisits Loop.blockStrides (fun _ => rfl) hbuilt.keepsParallel_blockStrides]

/-- Programs for the same loops pack the same blocks. -/
theorem region_congr (hbuilt : program.IsBuilt) (hbuilt' : program'.IsBuilt)
    (hloops : program'.layout.loops = program.layout.loops) (side : Side) :
    program'.region side = program.region side := by
  cases side with
  | left => exact Except.ok.inj (hbuilt'.left.symm.trans (hloops ▸ hbuilt.left))
  | right => exact Except.ok.inj (hbuilt'.right.symm.trans (hloops ▸ hbuilt.right))

/-- Programs for the same loops and with the same kernels make the same updates of a route. -/
theorem blockUpdates_congr [Scalar α] (hbuilt : program.IsBuilt) (hbuilt' : program'.IsBuilt)
    (hloops : program'.layout.loops = program.layout.loops)
    (hkernels : program'.kernels = program.kernels) (inputs : Inputs α) (p : Visit × Visit) :
    program'.blockUpdates inputs p = program.blockUpdates inputs p := by
  have hview : ∀ side block start, program'.blockView inputs side block start =
      program.blockView inputs side block start := by
    intro side block start
    funext i
    rw [blockView, blockView, sourceOf, sourceOf, region_congr hbuilt hbuilt' hloops]
  have htouch : ∀ which address, program'.touchUpdates inputs which address =
      program.touchUpdates inputs which address := by
    intro which address
    have hkernel : program'.touchKernel which = program.touchKernel which := by
      cases which with
      | first => exact congrArg KernelSet.first hkernels
      | last => exact congrArg KernelSet.last hkernels
    rw [touchUpdates, touchUpdates, hkernel]
  simp only [blockUpdates, hview, htouch, hkernels]

/-- The routes of all threads leave the same output for any numbers of threads. Updates of different
tiles do not meet, and the routes of one tile come in the same order. -/
theorem updateAll_launchRoutes_congr [Scalar α] (hbuilt : program.IsBuilt)
    (hbuilt' : program'.IsBuilt) (hloops : program'.layout.loops = program.layout.loops)
    (hkernels : program'.kernels = program.kernels)
    (hfollows : program.kernels.Follows (kernelLoops program.layout.loops))
    (horder : KeepsOrder program.layout.loops)
    (inputs : Inputs α) (base : Operands Int) (out : Buffer α) :
    Buffer.updateAll out (program'.launchRoutes.flatMap fun r =>
        program'.blockUpdates inputs (r.shift base).visits) =
      Buffer.updateAll out (program.launchRoutes.flatMap fun r =>
        program.blockUpdates inputs (r.shift base).visits) := by
  obtain ⟨before, omp, sfc, after, kernel, hcut⟩ := hbuilt.sound.exists_cut horder.kernelLast
  have hroutes : ∀ {program : Program}, (program.launchRoutes.flatMap fun r =>
      program.blockUpdates inputs (r.shift base).visits) =
        (program.launchRoutes.map Route.visits).flatMap fun p =>
          program.blockUpdates inputs (p.1.shift base, p.2.shift base) := by
    intro program
    rw [List.flatMap_map]
    rfl
  have hapart : ∀ p ∈ program.launchRoutes.map Route.visits,
      ∀ q ∈ program.launchRoutes.map Route.visits,
        ∀ u ∈ program.blockUpdates inputs (p.1.shift base, p.2.shift base),
          ∀ w ∈ program.blockUpdates inputs (q.1.shift base, q.2.shift base),
            u.address = w.address → p.1.offset.out = q.1.offset.out := by
    intro p hp q hq u hu w hw heq
    obtain ⟨r, hr, rfl⟩ := List.mem_map.1 hp
    obtain ⟨r', hr', rfl⟩ := List.mem_map.1 hq
    exact out_eq_of_address_eq hbuilt hcut horder hfollows hr hr' hu hw heq
  -- the outputs are compared element by element, with the updates that act on each
  rw [hroutes, hroutes]
  refine Buffer.updateAll_congr (fun address x => ?_) _
  simp only [blockUpdates_congr hbuilt hbuilt' hloops hkernels]
  exact effectAt_flatMap_congr (fun p : Visit × Visit => p.1.offset.out)
    (filter_visits_congr hbuilt hbuilt' hloops hcut horder) hapart address x

/-! ## Compiling for other numbers of threads -/

/-- Each of a number of threads that was brought into its bounds has work. -/
theorem exists_works_clampThreads {layout : Layout} (hsound : layout.Sound)
    (hsizes : ∀ loop ∈ layout.loops, 1 ≤ loop.size) {threads : ThreadGrid}
    (hthreads : layout.threads = clampThreads layout.loops threads) (table : StrideTable) :
    ∃ works, (List.range layout.threads.total).mapM (layout.work table) = .ok works := by
  have hpos : 1 ≤ layout.threads.omp ∧ 1 ≤ layout.threads.m ∧ 1 ≤ layout.threads.n := by
    rw [hthreads, ← Contraction.atLeastOne_clampThreads hsizes threads]
    simp [ThreadGrid.atLeastOne]
  -- there are no more threads than tasks
  have hbound : ∀ p count, 1 ≤ sizeWhere layout.loops p →
      ((min (max count 1) (sizeWhere layout.loops p).toNat : Nat) : Int) ≤
        sizeWhere layout.loops p := fun p count hp => by omega
  have hsfc := fun axis => (hsound.sfcTasks axis).symm.trans_ge (hsound.tasks_pos hsizes axis)
  have homp := hsound.ompTasks.symm.trans_ge (hsound.ompTasks_pos hsizes)
  refine (hsound.exists_works_iff hsizes hpos table).2 ?_
  rw [hthreads]
  exact ⟨(hbound _ _ (hsfc .m)).trans_eq (hsound.sfcTasks .m).symm,
    (hbound _ _ (hsfc .n)).trans_eq (hsound.sfcTasks .n).symm,
    (hbound _ _ homp).trans_eq hsound.ompTasks.symm⟩

/-- Loops that have a program have one for any numbers of threads. -/
theorem exists_build {loops : List Loop} {kernels : KernelSet} {threads : ThreadGrid}
    {maxSlots : Int} (hsizes : ∀ loop ∈ loops, 1 ≤ loop.size)
    (h : Program.build loops kernels threads maxSlots = .ok program) (threads' : ThreadGrid) :
    ∃ program', Program.build loops kernels (clampThreads loops threads') maxSlots =
      .ok program' := by
  obtain ⟨left, hleft, h⟩ := bind_eq_ok.1 h
  obtain ⟨right, hright, h⟩ := bind_eq_ok.1 h
  obtain ⟨layout, hlayout, -⟩ := bind_eq_ok.1 h
  obtain ⟨-, rfl, -⟩ := Layout.ofLoops_sound hlayout
  have hclamped := Contraction.atLeastOne_clampThreads hsizes threads'
  have hlayout' : Layout.ofLoops layout.loops (clampThreads layout.loops threads') =
      .ok (layout.withThreads (clampThreads layout.loops threads')) := by
    rw [Layout.ofLoops_withThreads layout.loops threads, hlayout, hclamped]
    rfl
  obtain ⟨works, hworks⟩ := exists_works_clampThreads (Layout.ofLoops_sound hlayout').1 hsizes rfl
    (strideTable layout.loops)
  have hsetup := Layout.setup_eq (layout.withThreads (clampThreads layout.loops threads'))
    (strideTable layout.loops)
  rw [hworks] at hsetup
  exact ⟨_, bind_eq_ok.2 ⟨left, hleft, bind_eq_ok.2 ⟨right, hright, bind_eq_ok.2 ⟨_, hlayout',
    bind_eq_ok.2 ⟨_, hsetup, rfl⟩⟩⟩⟩⟩

end Program

namespace Contraction

/-- The contraction for other numbers of threads. -/
def withThreads (contraction : Contraction α) (threads : ThreadGrid) : Contraction α :=
  { contraction with threads := threads }

/-- Requires buffers with elements of the right type that are as long as a program reaches. -/
def checkFit (contraction : Contraction α) (program : Program) (buffers : Buffers α) :
    Except Error Unit := do
  if buffers.element ≠ contraction.types.out then
    .error (.elementTypeMismatch contraction.types.out buffers.element)
  checkLength .left program.extents.left buffers.left.size
  checkLength .right program.extents.right buffers.right.size
  checkLength .out program.extents.out buffers.out.size
  contraction.checkAux program buffers.outAux

variable {contraction : Contraction α} {program program' : Program} {bytes bytes' : Nat}

/-- How long buffers have to be depends on the extents alone. -/
theorem checkFit_congr (hextents : program'.extents = program.extents) (buffers : Buffers α) :
    contraction.checkFit program' buffers = contraction.checkFit program buffers := by
  unfold checkFit checkAux
  rw [hextents]

/-- Buffers are checked first, then the scratch memory. -/
theorem checkBuffers_eq (hprogram : contraction.program = some program) (buffers : Buffers α) :
    contraction.checkBuffers buffers = (do
      contraction.checkFit program buffers
      let required ← program.scratchBytes contraction.types.out.bytes
      contraction.scratch.check contraction.threads.total required
      return program) := by
  rw [checkBuffers, hprogram, checkFit]
  dsimp only
  split
  · rfl
  · cases checkLength .left program.extents.left buffers.left.size with
    | error e => rfl
    | ok =>
        cases checkLength .right program.extents.right buffers.right.size with
        | error e => rfl
        | ok => cases checkLength .out program.extents.out buffers.out.size <;> rfl

/-- A compiled contraction with scratch memory for all of its threads. -/
structure Ample (contraction : Contraction α) (program : Program) : Prop where
  compiled : contraction.program = some program
  memory : ∃ bytes, program.scratchBytes contraction.types.out.bytes = .ok bytes ∧
    contraction.scratch.check contraction.threads.total bytes = .ok ()

/-- Where there is scratch memory, buffers that fit are accepted. -/
theorem Ample.checkBuffers_eq (h : contraction.Ample program) (buffers : Buffers α) :
    contraction.checkBuffers buffers =
      (contraction.checkFit program buffers).map fun _ => program := by
  obtain ⟨bytes, hbytes, hcheck⟩ := h.memory
  rw [Contraction.checkBuffers_eq h.compiled, hbytes]
  simp only [bind, Except.bind]
  rw [hcheck]
  cases contraction.checkFit program buffers <;> rfl

variable [Scalar α]

/-- There is enough scratch memory right after compiling. -/
theorem Compiles.ample (h : contraction.Compiles program bytes) :
    contraction.compile.1.Ample program := by
  have hthreads : contraction.compile.1.threads =
      Program.clampThreads contraction.loops contraction.threads := by rw [h.compiled]
  have htypes : contraction.compile.1.types = contraction.types := by rw [h.compiled]
  exact ⟨by rw [h.compiled], bytes, htypes ▸ h.scratch, hthreads ▸ h.check⟩

/-- Right after compiling, buffers that fit are accepted. -/
theorem Compiles.checkBuffers_eq (h : contraction.Compiles program bytes) (buffers : Buffers α) :
    contraction.compile.1.checkBuffers buffers =
      (contraction.checkFit program buffers).map fun _ => program := by
  rw [h.ample.checkBuffers_eq, h.compiled]
  rfl

/-- What could be compiled can be compiled for any numbers of threads, if its scratch memory is new
and there is a pool for the threads. Other scratch memory may be too small for more threads. -/
theorem Compiles.compile_withThreads (h : contraction.Compiles program bytes)
    (hnew : contraction.program = none)
    (hscratch : contraction.scratch = { pool := { unit := contraction.types.out.bytes } })
    {threads : ThreadGrid}
    (hpool : contraction.pools.Supplies (Program.clampThreads contraction.loops threads).total) :
    (contraction.withThreads threads).compile.2 = .ok () := by
  have hsizes := sizes_of_makeKernels h.kernels
  obtain ⟨hbuilt, hloops, -⟩ := Program.build_isBuilt hsizes h.build
  obtain ⟨program', hbuild⟩ := Program.exists_build hsizes h.build threads
  obtain ⟨hbuilt', hloops', -, hthreads⟩ := Program.build_isBuilt hsizes hbuild
  have hcells : ∀ side, program'.slotCells side = program.slotCells side := fun side => by
    rw [Program.slotCells, Program.slotCells,
      Program.region_congr hbuilt hbuilt' (hloops'.trans hloops.symm)]
  have hbytes := (guard_eq_ok.1 h.scratch).1
  rw [← hcells, ← hcells] at hbytes
  refine compile_eq_ok hnew h.kernels hbuild (guard_eq_ok.2 ⟨hbytes, rfl⟩) hpool ?_
  rw [show (contraction.withThreads threads).scratch = contraction.scratch from rfl, hscratch]
  refine ScratchManager.check_provide _ _ ?_ _
  rw [atLeastOne_clampThreads hsizes] at hthreads
  exact hthreads ▸ hbuilt'.threads_pos

/-! ## Launches -/

/-- A launch on buffers that are accepted is carried out. -/
theorem exists_launches (hready : contraction.IsReady program) {buffers : Buffers α}
    (hchecked : contraction.checkBuffers buffers = .ok program) :
    ∃ slices next outcome, contraction.Launches program buffers 0 slices next outcome ∧
      (contraction.contract buffers).2 = .ok outcome := by
  have haccepts := checkBuffers_eq_ok hchecked
  obtain ⟨slices, hslices, henough⟩ := haccepts.exists_slices hready
  obtain ⟨⟨next, outcome⟩, hlaunch⟩ : ∃ result,
      contraction.launch program buffers 0 = .ok result := ⟨_, bind_eq_ok.2 ⟨slices, hslices, rfl⟩⟩
  refine ⟨slices, next, outcome, ⟨haccepts.compiled, hslices, henough, hlaunch⟩, ?_⟩
  rw [contract, hchecked]
  simp only [bind, Except.bind, hlaunch]
  rfl

/-- Launches of the same loops for different numbers of threads leave the same output. -/
theorem Launches.out_congr {contraction' : Contraction α} (hready : contraction.IsReady program)
    (hready' : contraction'.IsReady program') (hloops : contraction'.loops = contraction.loops)
    (hkernels : program'.kernels = program.kernels)
    (hunit : contraction.scratch.pool.unit = contraction.types.out.bytes)
    (hunit' : contraction'.scratch.pool.unit = contraction'.types.out.bytes)
    (horder : KeepsOrder contraction.loops) {buffers : Buffers α}
    {base : Operands Int} {slices slices' : List (ScratchSlice α)} {next next' : Contraction α}
    {outcome outcome' : Outcome α}
    (h : contraction.Launches program buffers base slices next outcome)
    (h' : contraction'.Launches program' buffers base slices' next' outcome') :
    outcome'.out = outcome.out := by
  have hprogram : program'.layout.loops = program.layout.loops := by
    rw [hready'.loops, hready.loops, hloops]
  have hmake := make_of_makeKernels hready.kernels
  rw [← hready.loops] at horder hmake
  have horder' : KeepsOrder program'.layout.loops := hprogram ▸ horder
  rw [h.out_eq_blockUpdates hready horder.kernelLast horder.forward hunit,
    h'.out_eq_blockUpdates hready' horder'.kernelLast horder'.forward hunit']
  exact Program.updateAll_launchRoutes_congr hready.built hready'.built hprogram hkernels
    (KernelTags.follows_of_make horder.kernelLast hready.built.sizes hmake) horder _ base buffers.out

/-- Right after compiling, the numbers of threads do not show in the output. -/
theorem Compiles.contract_congr {threads : ThreadGrid} (h : contraction.Compiles program bytes)
    (h' : (contraction.withThreads threads).Compiles program' bytes')
    (hunit : contraction.scratch.pool.unit = contraction.types.out.bytes)
    (horder : KeepsOrder contraction.loops) (buffers : Buffers α) :
    ((contraction.withThreads threads).compile.1.contract buffers).2.map Outcome.out =
      (contraction.compile.1.contract buffers).2.map Outcome.out := by
  have hready := h.isReady
  have hready' := h'.isReady
  have hsame := compile_sameSetup contraction
  have hsame' := compile_sameSetup (contraction.withThreads threads)
  have hloops : (contraction.withThreads threads).compile.1.loops = contraction.compile.1.loops :=
    hsame'.loops.trans hsame.loops.symm
  have hextents : program'.extents = program.extents := by
    rw [hready'.built.extents, hready.built.extents, hready'.loops, hready.loops, hloops]
  -- the same buffers are accepted
  have hchecked := h.checkBuffers_eq buffers
  have hchecked' := h'.checkBuffers_eq buffers
  rw [checkFit_congr hextents, show (contraction.withThreads threads).checkFit program buffers =
    contraction.checkFit program buffers from rfl] at hchecked'
  cases hfits : contraction.checkFit program buffers with
  | error e =>
      rw [hfits] at hchecked hchecked'
      rw [contract, contract, hchecked, hchecked']
      rfl
  | ok =>
      rw [hfits] at hchecked hchecked'
      obtain ⟨slices, next, outcome, hlaunch, heq⟩ := exists_launches hready hchecked
      obtain ⟨slices', next', outcome', hlaunch', heq'⟩ := exists_launches hready' hchecked'
      have hkernels : program'.kernels = program.kernels :=
        Except.ok.inj (h'.kernels.symm.trans h.kernels)
      rw [← hsame.loops] at horder
      have hsameOut := hlaunch.out_congr hready hready' hloops hkernels
        (by rw [hsame.unit, hsame.types, hunit])
        (by rw [hsame'.unit, hsame'.types]; exact hunit) horder hlaunch'
      rw [heq, heq', Except.map, Except.map, hsameOut]

/-- The numbers of threads do not show in the output, if no K loop is on the curve. A list of loops
that can be compiled can be compiled for any numbers of threads, unless its scratch memory is too
small for them or there is no pool to run them on. All of them accept the same buffers and leave the
same output, after any launches of each, whatever addition and multiplication of elements are. -/
theorem contract_withThreads (contraction : Contraction α) (hnew : contraction.program = none)
    (hunit : contraction.scratch.pool.unit = contraction.types.out.bytes)
    (horder : KeepsOrder contraction.loops)
    (hcompiled : contraction.compile.2 = .ok ()) (threads : ThreadGrid) :
    (contraction.scratch = { pool := { unit := contraction.types.out.bytes } } →
      contraction.pools.Supplies (Program.clampThreads contraction.loops threads).total →
        (contraction.withThreads threads).compile.2 = .ok ()) ∧
    ((contraction.withThreads threads).compile.2 = .ok () →
      ∀ requests requests' : List (Request α),
        (∀ request ∈ requests ++ requests', request.isLaunch = true) → ∀ buffers,
          ((requests'.foldl serve (contraction.withThreads threads).compile.1).contract
              buffers).2.map Outcome.out =
            ((requests.foldl serve contraction.compile.1).contract buffers).2.map
              Outcome.out) := by
  obtain ⟨program, bytes, h⟩ := exists_compiles hnew hcompiled
  refine ⟨fun hscratch hpool => h.compile_withThreads hnew hscratch hpool, ?_⟩
  intro hcompiled' requests requests' hlaunches buffers
  obtain ⟨program', bytes', h'⟩ :=
    exists_compiles (show (contraction.withThreads threads).program = none from hnew) hcompiled'
  rw [List.forall_mem_append] at hlaunches
  -- a launch after others is a launch right after compiling
  have hfresh : ∀ {c : Contraction α} {p : Program} {b : Nat}, c.Compiles p b →
      ∀ requests : List (Request α), (∀ request ∈ requests, request.isLaunch = true) →
        ((requests.foldl serve c.compile.1).contract buffers).2 =
          (c.compile.1.contract buffers).2 := by
    intro c p b hc requests hlaunches
    have hready : ∀ program, c.compile.1.program = some program → c.compile.1.IsReady program :=
      fun program hprogram => by
        rw [hc.compiled] at hprogram
        exact Option.some.inj hprogram ▸ hc.isReady
    exact (Contraction.contract_congr hready (outline_foldl_serve hready hlaunches) buffers).1
  rw [hfresh h requests hlaunches.1, hfresh h' requests' hlaunches.2]
  exact h.contract_congr h' hunit horder buffers

/-- One thread and four threads, which pack other blocks at other times, leave the same packed
product, also if the four threads have packed blocks of other buffers before. -/
theorem contract_withThreads_packedProduct :
    (packedProduct.withThreads ⟨1, 2, 2⟩).compile.1.threads.total = 4 ∧
      (packedProduct.compile.1.contract (packedBuffers 3)).2.isOk = true ∧
      (([.contract (packedBuffers 5)].foldl serve
          (packedProduct.withThreads ⟨1, 2, 2⟩).compile.1).contract (packedBuffers 3)).2.map
          Outcome.out =
        (packedProduct.compile.1.contract (packedBuffers 3)).2.map Outcome.out := by
  refine ⟨by decide +kernel, by decide +kernel, ?_⟩
  have hforward : ∀ side, PackedForward side packedProduct.loops := by
    intro side
    unfold PackedForward
    cases side <;> decide
  have horder : KeepsOrder packedProduct.loops :=
    ⟨by decide +kernel, by decide, by decide, by decide +kernel, hforward⟩
  obtain ⟨hcompiles, hsame⟩ :=
    contract_withThreads packedProduct rfl rfl horder (by decide +kernel) ⟨1, 2, 2⟩
  refine hsame (hcompiles rfl (PoolBuilder.supplies_unlimited _)) []
    [.contract (packedBuffers 5)] (fun request hrequest => ?_) (packedBuffers 3)
  obtain rfl := List.mem_singleton.1 hrequest
  rfl

end Contraction

end LoopNest
