import LoopNest.Proofs.Launch.Interleaving
import LoopNest.Proofs.Launch.Order
import LoopNest.Proofs.Launch.Relaunch
import LoopNest.Proofs.Launch.Updates

/-!
# Updates through the blocks of the inputs

What a main kernel finds at a packed input is fixed by the block that was packed, even if index tuples
meet in the packing buffer: each place of a block has one source (`Program.sourceOf`), and
`Program.blockView` looks through it into the caller's buffer. Every kernel call sees its inputs like
this, whatever was packed when (`Program.Stands.view_eq`).

So the output of a launch is the output buffer after the updates of its routes
(`Contraction.Launches.out_eq_blockUpdates`). They depend on the buffers and the loops alone, and not
on the slots, the states of the threads or the scratch memory.
-/

namespace LoopNest

variable {α : Type}

/-- A route as a visit by the strides of the loops and one from block to block. -/
def Route.visits (r : Route) : Visit × Visit := (r.visit Loop.strides, r.visit Loop.blockStrides)

namespace Program

variable (program : Program)

/-- Where a place of a block comes from, seen from the address of the block. Without a packed region
a block is a part of the caller's buffer. -/
def sourceOf (side : Side) (offset : Int) : Option Int :=
  match program.region side with
  | some region => region.copy.sourceOf offset
  | none => some offset

variable [Scalar α]

/-- The elements of an input from a place of a block on. -/
def blockView (inputs : Inputs α) (side : Side) (block start : Int) : Int → α := fun i =>
  match program.sourceOf side (start + i) with
  | some source => Buffer.readD (inputs.buffer side) (block + source) Scalar.zero
  | none => Scalar.zero

/-- The updates of the output by the kernel calls of a route, with the inputs read from blocks. -/
def blockUpdates (inputs : Inputs α) (p : Visit × Visit) : List (Update α) :=
  let view (side : Side) : Int → α := program.blockView inputs side (p.2.offset.input side)
    (p.1.offset.input side - p.2.offset.input side)
  (if p.1.first then program.touchUpdates inputs .first p.1.offset else []) ++
    (program.kernels.main.updates (view .left) (view .right)).map
      (fun u => u.shift p.1.offset.out) ++
    if p.1.last then program.touchUpdates inputs .last p.1.offset else []

omit [Scalar α] in
/-- The routes of all threads. -/
def launchRoutes : List Route :=
  (List.range program.layout.threads.total).flatMap fun thread =>
    program.threadRoutes (program.layout.shareOf thread)

variable {program} {inputs : Inputs α} {kernel : List Loop}

omit [Scalar α] in
/-- Parallel loops move from block to block. -/
theorem IsBuilt.keepsParallel_blockStrides (hbuilt : program.IsBuilt) :
    program.KeepsParallel Loop.blockStrides := by
  intro loop hloop hparallel
  have hleft := PackedRegion.isPacked_of_isParallel hbuilt.left hloop hparallel
  have hright := PackedRegion.isPacked_of_isParallel hbuilt.right hloop hparallel
  simp [Loop.blockStrides, hleft, hright]

/-! ## What the kernels see -/

/-- Where an input stands, the kernel loops see the block that it stands in. -/
theorem Stands.view_eq (hbuilt : program.IsBuilt) {side : Side} {scratch : Buffer α} {place : Place}
    {block : Int} {within : Int × Int}
    (h : program.Stands inputs side kernel scratch (program.region side).isSome place block within)
    {i : Int} (hi : i ∈ offsets (fun loop => loop.stride side) kernel) :
    view inputs side scratch place i = program.blockView inputs side block within.2 i := by
  generalize hpacked : (program.region side).isSome = isPacked at h
  cases h with
  | buffer =>
      have hnone : program.region side = none := by simpa using hpacked
      rw [blockView, sourceOf, hnone, Prod.snd_zero, zero_add]
      rfl
  | @scratch region slot _ _ hregion hslot hrest hholds =>
      rw [← map_snd_offsets] at hi
      obtain ⟨x, hx, rfl⟩ := List.mem_map.1 hi
      -- the place lies in the block, so that the copy has filled it from one source
      have hinside := hrest x hx
      rw [insideOf_eq hregion, ← (hbuilt.located hregion).1.mem_moves_iff] at hinside
      obtain ⟨source, hsource⟩ := StridedCopy.exists_sourceOf hinside
      rw [Prod.snd_add] at hsource
      rw [blockView, sourceOf, hregion]
      dsimp only
      rw [hsource]
      refine Buffer.readD_of_read? ?_ _
      rw [← hholds region hregion _ _ hsource, add_assoc]

variable (hbuilt : program.IsBuilt)
  (hreads : ∀ side, ∀ a ∈ program.kernels.main.reads side,
    a ∈ offsets (fun loop => loop.stride side) kernel)

include hbuilt hreads

/-- The kernel calls of a route make its updates. -/
theorem AtRoute.updates_eq {r : Route} {calls : List (Call × Buffer α)}
    (h : program.AtRoute inputs kernel r calls) :
    (calls.flatMap fun p => program.callUpdates inputs p.2 p.1) =
      program.blockUpdates inputs r.visits := by
  obtain ⟨cursor, scratch, rfl, haux, hout, hstands⟩ := h
  have hmain : program.callUpdates inputs scratch (.main cursor.left cursor.right cursor.out) =
      (program.kernels.main.updates
        (program.blockView inputs .left (r.block .left) (r.within .left).2)
        (program.blockView inputs .right (r.block .right) (r.within .right).2)).map
          fun u => u.shift (r.offset Loop.strides).out := by
    have hsame := MainKernel.updates_congr fun side a ha =>
      (hstands side).view_eq hbuilt (hreads side a ha)
    rw [← hout]
    exact congrArg (List.map _) hsame
  rw [flatMap_kernelCalls haux hout, hmain]
  rfl

/-- The calls of a thread make the updates of its routes. -/
theorem runCalls_threadRoutes (hforward : ∀ side, PackedForward side program.layout.loops)
    {share : Share} {work : Work} (hdoes : program.Does share work)
    {before omp sfc after : List Loop}
    (hcut : Layout.Cut program.layout.loops before omp sfc after kernel) (base : Operands Int)
    {state : ThreadState} (hfits : program.Fits work state) {scratch : Buffer α}
    (hsize : program.scratchCells ≤ scratch.size) (out : Buffer α) :
    (program.runCalls inputs ((program.threadCalls work base).run state).1 out scratch).1 =
      Buffer.updateAll out ((program.threadRoutes share).flatMap fun r =>
        program.blockUpdates inputs (r.shift base).visits) := by
  obtain ⟨calls, scratch', hroutes, hwatch⟩ :=
    watch_threadRoutes inputs hbuilt hforward hdoes hcut base hfits hsize
  rw [runCalls_eq, hwatch, flatMap_flatten_of_forall₂ (hroutes.imp fun r calls h =>
    (h.updates_eq hbuilt hreads).symm), List.flatMap_map]

omit hbuilt hreads [Scalar α] in
/-- With strides put in, the routes of a launch are its visits. -/
theorem map_visit_launchRoutes (hbuilt : program.IsBuilt) (stride : Loop → Operands Int)
    {before omp sfc after : List Loop}
    (hcut : Layout.Cut program.layout.loops before omp sfc after kernel) :
    program.launchRoutes.map (Route.visit stride) = program.launchVisits stride before after := by
  rw [launchRoutes, launchVisits, List.map_flatMap]
  refine List.flatMap_congr fun thread hthread => ?_
  obtain ⟨work, hdoes⟩ := hbuilt.exists_does (List.mem_range.1 hthread)
  exact map_visit_threadRoutes hbuilt hdoes stride hcut

omit hbuilt hreads in
/-- The updates of a route lie in the block of the output that the route leads to. -/
theorem address_of_mem_blockUpdates (hfollows : program.kernels.Follows kernel) {p : Visit × Visit}
    {u : Update α} (hu : u ∈ program.blockUpdates inputs p) :
    ∃ z ∈ offsets Loop.callerStrides kernel, u.address = p.1.offset.out + z.out := by
  have htouch : ∀ {which}, u ∈ program.touchUpdates inputs which p.1.offset →
      ∃ z ∈ offsets Loop.callerStrides kernel, u.address = p.1.offset.out + z.out := by
    intro which hu
    unfold touchUpdates at hu
    split at hu
    · rename_i touch hkernel
      obtain ⟨w, hw, rfl⟩ := List.mem_map.1 hu
      obtain ⟨z, hz, haddress⟩ := hfollows.touchWrites touch (made_of_touchKernel hkernel) _
        (TouchKernel.address_mem_writes hw)
      exact ⟨z, hz, congrArg (p.1.offset.out + ·) haddress.symm⟩
    · exact absurd hu List.not_mem_nil
  -- the first touch, the main kernel, the last touch
  rw [blockUpdates, List.mem_append, List.mem_append] at hu
  rcases hu with (hu | hu) | hu
  · split at hu
    · exact htouch hu
    · exact absurd hu List.not_mem_nil
  · obtain ⟨w, hw, rfl⟩ := List.mem_map.1 hu
    obtain ⟨z, hz, haddress⟩ := hfollows.writes _ (MainKernel.address_mem_writes hw)
    exact ⟨z, hz, congrArg (p.1.offset.out + ·) haddress.symm⟩
  · split at hu
    · exact htouch hu
    · exact absurd hu List.not_mem_nil

end Program

namespace Contraction

variable [Scalar α] {contraction : Contraction α} {program : Program}

/-- The output of a launch is the output buffer after the updates of the routes of all threads. -/
theorem Launches.out_eq_blockUpdates (hready : contraction.IsReady program)
    (hkernel : KernelLast program.layout.loops)
    (hforward : ∀ side, PackedForward side program.layout.loops)
    (hunit : contraction.scratch.pool.unit = contraction.types.out.bytes) {buffers : Buffers α}
    {base : Operands Int} {slices : List (ScratchSlice α)} {next : Contraction α}
    {outcome : Outcome α} (h : contraction.Launches program buffers base slices next outcome) :
    outcome.out = Buffer.updateAll buffers.out (program.launchRoutes.flatMap fun r =>
      program.blockUpdates ⟨buffers.left, buffers.right, buffers.outAux⟩ (r.shift base).visits) := by
  have hbuilt := hready.built
  obtain ⟨before, omp, sfc, after, kernel, hcut⟩ := hbuilt.sound.exists_cut hkernel
  have hprim : kernelLoops program.layout.loops = kernel :=
    (hcut.filter_mode fun mode => mode = .prim).trans (by simp)
  have hreads : ∀ side, ∀ a ∈ program.kernels.main.reads side,
      a ∈ offsets (fun loop => loop.stride side) kernel := fun side a ha => by
    rw [← hprim, ← KernelShape.kernelEnd_eq hkernel]
    exact hready.readsKernelEnd side a ha
  -- what a thread makes of the output does not depend on what its slice held before
  have hcalls : List.Forall₂
      (fun thread run => ∀ out, (program.runCalls ⟨buffers.left, buffers.right, buffers.outAux⟩
          run.1 out run.2.cells).1 =
        Buffer.updateAll out ((program.threadRoutes (program.layout.shareOf thread)).flatMap fun r =>
          program.blockUpdates ⟨buffers.left, buffers.right, buffers.outAux⟩ (r.shift base).visits))
      (List.range program.layout.threads.total)
      ((program.launchCalls contraction.states base).zip slices) := by
    refine (h.forall₂_runs hready hunit).imp fun thread run hrun out => ?_
    obtain ⟨⟨work, state, hdoes, hfits, hcalls⟩, hsize⟩ := hrun
    rw [hcalls]
    exact Program.runCalls_threadRoutes hbuilt hreads hforward hdoes hcut base hfits hsize out
  rw [h.out_eq, foldl_updateAll hcalls, Program.launchRoutes, List.flatMap_assoc]

end Contraction

end LoopNest
