import LoopNest.Proofs.Launch.Coherence
import LoopNest.Proofs.Launch.MainCalls

/-!
# What the main kernel reads

Whatever was packed, and by whatever level, a call of the main kernel finds the elements of the
caller's buffers of the same launch: for every index tuple of the kernel loops, the element in front
of which the packed strides lead is the one to which the strides of the caller's buffer lead
(`Contraction.readsCaller_launch`). This holds after any series of requests, so no copy of an earlier
launch is ever read.

`Program.mainCalls` takes the calls of the main kernel out of the calls of a thread, each with the
scratch memory in front of it. `Inputs.ServesTile` says of such a call on which tile it works and
what it finds, and `Program.ReadsCaller` says of the calls of all threads that they work on each tile
of the loops outside the kernel once.
-/

namespace LoopNest

variable {α : Type}

def Call.isMain : Call → Bool
  | .main .. => true
  | _ => false

/-- The calls of the main kernel in a list of calls, each with the scratch memory in front of it. -/
def Program.mainCalls [Scalar α] (program : Program) (inputs : Inputs α) (calls : List Call)
    (scratch : Buffer α) : List (Call × Buffer α) :=
  (program.watch inputs calls scratch).1.filter fun p => p.1.isMain

/-- A call of the main kernel works on the tile at an address, and finds both inputs of the tile. -/
def Inputs.ServesTile (inputs : Inputs α) (kernel : List Loop) (address : Operands Int)
    (p : Call × Buffer α) : Prop :=
  ∃ left right, p.1 = .main left right address.out ∧
    inputs.Finds .left kernel p.2 left address.left ∧
    inputs.Finds .right kernel p.2 right address.right

/-- Threads that run their calls on their scratch memory call the main kernel once for every index
tuple of the loops outside the kernel, and each call finds the inputs of its tile. -/
def Program.ReadsCaller [Scalar α] (program : Program) (inputs : Inputs α) (loops : List Loop)
    (base : Operands Int) (runs : List (List Call × ScratchSlice α)) : Prop :=
  ∃ tiles : List (List (Operands Int)),
    tiles.flatten.Perm (offsets Loop.callerStrides (outerLoops loops)) ∧
      List.Forall₂
        (fun thread run => List.Forall₂
          (fun offset => inputs.ServesTile (kernelLoops loops) (base + offset)) thread
          (program.mainCalls inputs run.1 run.2.cells))
        tiles runs

namespace Program

variable {program : Program} {inputs : Inputs α} {kernel : List Loop}

/-- Among the kernel calls of a visit there is one call of the main kernel. -/
theorem AtVisit.exists_main {v : Visit} {calls : List (Call × Buffer α)}
    (h : program.AtVisit inputs kernel v calls) :
    ∃ p, calls.filter (fun p => p.1.isMain) = [p] ∧ inputs.ServesTile kernel v.offset p := by
  obtain ⟨cursor, scratch, rfl, -, hout, hfinds⟩ := h
  have htouch : ∀ which (wanted : Bool),
      ((if wanted then [Call.touch which cursor.outAux cursor.out] else []).map
        fun call => (call, scratch)).filter (fun p => p.1.isMain) = [] := by
    intro which wanted
    cases wanted with
    | false => rfl
    | true => rfl
  refine ⟨(.main cursor.left cursor.right cursor.out, scratch), ?_, cursor.left, cursor.right, ?_,
    hfinds .left, hfinds .right⟩
  · rw [kernelCalls, List.map_append, List.map_append, List.filter_append, List.filter_append]
    dsimp only
    rw [htouch, htouch]
    rfl
  · rw [hout]

/-- The calls of the main kernel are those of the visits, in order. -/
theorem forall₂_servesTile {vs : List Visit} {calls : List (List (Call × Buffer α))}
    (h : List.Forall₂ (program.AtVisit inputs kernel) vs calls) :
    List.Forall₂ (inputs.ServesTile kernel) (vs.map Visit.offset)
      (calls.flatten.filter fun p => p.1.isMain) := by
  induction h with
  | nil => exact .nil
  | cons hfirst _ ih =>
      obtain ⟨p, hp, hserves⟩ := hfirst.exists_main
      rw [List.flatten_cons, List.filter_append, hp]
      exact .cons hserves ih

end Program

namespace Contraction

variable [Scalar α] {contraction : Contraction α} {program : Program} {buffers : Buffers α}
  {base : Operands Int} {slices : List (ScratchSlice α)} {next : Contraction α}
  {outcome : Outcome α}

/-- A launch of a contraction that is ready reads the caller's buffers. -/
theorem Launches.readsCaller (hready : contraction.IsReady program)
    (hkernel : KernelLast contraction.loops)
    (hapart : ∀ side, PackedApart side contraction.loops)
    (hunit : contraction.scratch.pool.unit = contraction.types.out.bytes)
    (h : contraction.Launches program buffers base slices next outcome) :
    program.ReadsCaller ⟨buffers.left, buffers.right, buffers.outAux⟩ contraction.loops base
      ((program.launchCalls contraction.states base).zip slices) := by
  have hbuilt := hready.built
  rw [← hready.loops] at hkernel hapart ⊢
  obtain ⟨before, omp, sfc, after, kernel, hcut⟩ := hbuilt.sound.exists_cut hkernel
  have hprim : kernelLoops program.layout.loops = kernel :=
    (hcut.filter_mode fun mode => mode = .prim).trans (by simp)
  refine ⟨(List.range program.layout.threads.total).map fun thread =>
    (program.threadVisits Loop.callerStrides before after
      (program.layout.shareOf thread)).map Visit.offset, ?_, ?_⟩
  · -- the schedules of all threads together are the plain loop nest
    have hoffsets := Program.map_offset_launchVisits hbuilt hbuilt.keepsParallel hcut
    rwa [Program.launchVisits, List.map_flatMap, List.flatMap_def] at hoffsets
  · rw [List.forall₂_map_left_iff]
    apply (h.forall₂_runs hready hunit).imp
    rintro thread ⟨calls, slice⟩ ⟨⟨work, state, hdoes, hfits, rfl⟩, hsize⟩
    obtain ⟨found, scratch', hvisits, hwatch⟩ := Program.watch_threadCalls
      ⟨buffers.left, buffers.right, buffers.outAux⟩ hbuilt hapart hdoes hcut base hfits hsize
    have hserves := Program.forall₂_servesTile hvisits
    rw [List.map_map, show Visit.offset ∘ Visit.shift base = (base + ·) ∘ Visit.offset from rfl,
      ← List.map_map, List.forall₂_map_left_iff] at hserves
    rw [Program.mainCalls, hwatch, hprim]
    exact hserves

/-- In every launch the main kernel finds the elements of the caller's buffers of that launch, for
every index tuple of all loops. -/
theorem readsCaller_launch (hnew : contraction.program = none)
    (hunit : contraction.scratch.pool.unit = contraction.types.out.bytes)
    (hkernel : KernelLast contraction.loops)
    (hapart : ∀ side, PackedApart side contraction.loops) (requests : List (Request α))
    (h : (requests.foldl serve contraction).Launches program buffers base slices next outcome) :
    program.ReadsCaller ⟨buffers.left, buffers.right, buffers.outAux⟩ contraction.loops base
      ((program.launchCalls (requests.foldl serve contraction).states base).zip slices) := by
  obtain ⟨hready, hsame⟩ := isReady_foldl_serve
    (fun program hprogram => absurd (hnew.symm.trans hprogram) (by simp)) requests
  have hloops := hsame.loops
  rw [← hloops] at hkernel hapart ⊢
  apply h.readsCaller (hready program h.compiled) hkernel hapart
  rw [hsame.unit, hsame.types, hunit]

/-- A matrix product of which both inputs are packed behind the curve, with one slot for two
blocks. -/
def packedProduct : Contraction Int :=
  { create
      [⟨.n, .sfc, 2, ⟨0, 4, 8, 8⟩, 0, 0⟩, ⟨.m, .sfc, 2, ⟨4, 0, 2, 2⟩, 0, 0⟩,
        ⟨.m, .prim, 2, ⟨1, 0, 1, 1⟩, 2, 0⟩, ⟨.n, .prim, 2, ⟨0, 1, 4, 4⟩, 0, 2⟩,
        ⟨.k, .prim, 2, ⟨2, 2, 0, 0⟩, 1, 1⟩]
      ⟨.fp32, .fp32, .fp32, .fp32⟩ ⟨.zero, .madd, .relu⟩ ⟨1, 1, 1⟩ .strided .unlimited with
    maxSlots := 1 }

/-- Buffers for `packedProduct`. -/
def packedBuffers (first : Int) : Buffers Int :=
  ⟨.fp32, Array.ofFn (n := 8) fun i => first + i, Array.ofFn (n := 8) fun i => first - 2 * i, none,
    .replicate 16 0⟩

/-- The second launch of the packed product, on other buffers than the first. -/
theorem readsCaller_launch_packedProduct :
    ∃ program slices next outcome,
      ([.compile, .contract (packedBuffers 3)].foldl serve packedProduct).Launches program
          (packedBuffers 7) 0 slices next outcome ∧
        program.ReadsCaller
          ⟨(packedBuffers 7).left, (packedBuffers 7).right, (packedBuffers 7).outAux⟩
          packedProduct.loops 0
          ((program.launchCalls ([.compile, .contract (packedBuffers 3)].foldl serve
            packedProduct).states 0).zip slices) := by
  have hkernel : KernelLast packedProduct.loops := by decide +kernel
  have hapart : ∀ side, PackedApart side packedProduct.loops := by
    intro side
    cases side with
    | left => exact ⟨by decide, by decide +kernel⟩
    | right => exact ⟨by decide, by decide +kernel⟩
  obtain ⟨hready, -⟩ := isReady_foldl_serve
    (show ∀ program, packedProduct.program = some program → _ from
      fun program hprogram => absurd hprogram (by simp [packedProduct, create]))
    [.compile, .contract (packedBuffers 3)]
  have haccepted : (([.compile, .contract (packedBuffers 3)].foldl serve packedProduct).contract
      (packedBuffers 7)).2.isOk = true := by decide +kernel
  rcases hlaunch : ([.compile, .contract (packedBuffers 3)].foldl serve packedProduct).contract
    (packedBuffers 7) with ⟨next, error | outcome⟩
  · rw [hlaunch] at haccepted
    exact absurd haccepted (by simp [Except.isOk, Except.toBool])
  · obtain ⟨program, slices, -, hlaunches⟩ := contract_launches hready hlaunch
    exact ⟨program, slices, next, outcome, hlaunches,
      readsCaller_launch rfl rfl hkernel hapart _ hlaunches⟩

end Contraction

end LoopNest
