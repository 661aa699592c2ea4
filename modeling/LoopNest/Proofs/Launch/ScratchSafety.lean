import LoopNest.Proofs.Launch.Capacity
import LoopNest.Proofs.Launch.ScratchUse

/-!
# Scratch memory is never overrun

A contraction works with the scratch memory that its manager hands out, and the bounds of the manager
may change at any time. Compiling and launching check what is handed out before they use it. Both are
refused for lack of memory exactly if fewer slices are handed out than there are threads, or if one of
those for the threads has less than the packing slots take up (`Contraction.compile_lacks_iff`,
`Contraction.contract_lacks_iff`). A refused launch has made no call.

An accepted launch runs every thread, and each keeps to the packing slots in the slice that was handed
out to it (`Contraction.Launches.safe`). `Contraction.scratch_never_overrun` is the result, for any
series of requests before the launch.
-/

namespace LoopNest

variable {α : Type}

/-- Scratch memory that can be handed out is handed out after any request, once there is a
program. -/
def Contraction.HandsOut (contraction : Contraction α) : Prop :=
  ∀ program, contraction.program = some program →
    ∃ slices, contraction.scratch.pool.slices = .ok slices

/-- What comes before the scratch memory is in order: the program is made, there is a pool for its
threads, and it needs `bytes` of scratch memory for each of them. -/
def Contraction.Prepares (contraction : Contraction α) (program : Program) (bytes : Nat) : Prop :=
  ∃ kernels, contraction.makeKernels = .ok kernels ∧
    contraction.clamped.makeProgram kernels = .ok (program, bytes)

namespace Program

/-- The bytes of scratch memory are those of the packing slots of both inputs. -/
theorem natCast_scratchBytes {program : Program} {width bytes : Nat}
    (h : program.scratchBytes width = .ok bytes) :
    (bytes : Int) = program.scratchCells * width := by
  obtain ⟨hcells, heq⟩ := guard_eq_ok.1 h
  rw [not_or, not_lt, not_lt] at hcells
  have hleft := Int.mul_nonneg hcells.1 (Int.natCast_nonneg program.slotsLeft)
  have hright := Int.mul_nonneg hcells.2 (Int.natCast_nonneg program.slotsRight)
  have hnonneg : 0 ≤ program.scratchCells := Int.add_nonneg hleft hright
  rw [← Except.ok.inj heq, Nat.cast_mul, Int.toNat_of_nonneg hnonneg]

/-- A thread keeps to the packing slots, and these lie in the scratch memory of its task, within the
first `length` bytes. -/
structure KeepsWithin (program : Program) (width : Nat) (task : ThreadTask α) (length : Nat) :
    Prop where
  calls : ∀ call ∈ ((program.threadCalls task.work 0).run task.state).1, program.KeepsToSlots call
  slots : ∀ side, ∀ slot < program.slots side, ∀ cell, program.InSlot side slot cell →
    0 ≤ cell ∧ cell < task.scratch.size ∧ (cell + 1) * width ≤ length

end Program

namespace Contraction

variable {contraction : Contraction α} {program : Program}

/-! ## Refusals -/

theorem Prepares.natCast_eq {bytes : Nat} (h : contraction.Prepares program bytes) :
    (bytes : Int) = program.scratchCells * contraction.types.out.bytes := by
  obtain ⟨kernels, -, hmade⟩ := h
  obtain ⟨-, hbytes, -⟩ := (makeProgram_eq_ok_iff _).1 hmade
  exact Program.natCast_scratchBytes hbytes

theorem checkLength_refusedIn (operand : Operand) (required actual : Nat) :
    RefusedIn [.buffers] (checkLength operand required actual) :=
  RefusedIn.guard (by simp [Error.stage]) (RefusedIn.ok ())

/-- Buffers that do not fit are refused for a reason of their own. -/
theorem checkFit_refusedIn (contraction : Contraction α) (program : Program) (buffers : Buffers α) :
    RefusedIn [.buffers] (contraction.checkFit program buffers) := by
  unfold checkFit
  apply RefusedIn.guard_chain (by simp [Error.stage])
  apply RefusedIn.chain (checkLength_refusedIn _ _ _)
  intro
  apply RefusedIn.chain (checkLength_refusedIn _ _ _)
  intro
  apply RefusedIn.chain (checkLength_refusedIn _ _ _)
  intro
  unfold checkAux
  split
  · exact checkLength_refusedIn _ _ _
  · exact RefusedIn.error (by simp [Error.stage])
  · exact RefusedIn.ok ()

variable [Scalar α]

omit [Scalar α] in
/-- Compiling asks for scratch memory for one thread or more. -/
theorem clamped_total_pos {kernels : KernelSet} (h : contraction.makeKernels = .ok kernels) :
    1 ≤ contraction.clamped.threads.total := by
  have hclamped := atLeastOne_clampThreads (sizes_of_makeKernels h) contraction.threads
  obtain ⟨homp, hm, hn⟩ := ThreadGrid.mk.inj hclamped
  exact Nat.mul_pos (Nat.mul_pos (max_eq_left_iff.1 homp) (max_eq_left_iff.1 hm))
    (max_eq_left_iff.1 hn)

/-- Compiling is refused for lack of memory exactly if everything else is in order and what the
manager hands out falls short. -/
theorem compile_lacks_iff (hnew : contraction.program = none)
    {threads slices required shortest : Nat} :
    contraction.compile.2 = .error (.threadMemory threads slices required shortest) ↔
      ∃ program, contraction.Prepares program required ∧
        threads = contraction.clamped.threads.total ∧
        (contraction.scratch.provide required threads Scalar.zero).Lacks threads slices required
          shortest := by
  -- only the last check can find that memory is lacking: the stages before it name other causes
  constructor
  · intro herror
    rcases compile_eq_error herror with hkernels | ⟨kernels, hkernels, hmade | hmemory⟩
    · have hstages : RefusedIn [.shape, .kernels] contraction.makeKernels :=
        contraction.makeKernels_refusedIn (KernelShape.ofLoops_refusedIn _ _) (by decide)
      exact absurd (hstages _ hkernels) (by simp [Error.stage])
    · have hstages :=
        makeProgram_clamped_refusedIn contraction (sizes_of_makeKernels hkernels) kernels
      exact absurd (hstages _ hmade) (by simp [Error.stage])
    · obtain ⟨program, bytes, hmade, hcheck⟩ := hmemory
      obtain ⟨lengths, hlengths⟩ := contraction.scratch.exists_handedOut_provide bytes
        contraction.clamped.threads.total Scalar.zero
      obtain ⟨rfl, rfl, hlacks⟩ :=
        (ScratchManager.check_eq_threadMemory_iff hlengths (clamped_total_pos hkernels)).1 hcheck
      exact ⟨program, ⟨kernels, hkernels, hmade⟩, rfl, hlacks⟩
  · rintro ⟨program, ⟨kernels, hkernels, hmade⟩, rfl, hlacks⟩
    obtain ⟨lengths, hlengths⟩ := contraction.scratch.exists_handedOut_provide required
      contraction.clamped.threads.total Scalar.zero
    refine (compile_eq_check hnew hkernels hmade).trans ?_
    exact (ScratchManager.check_eq_threadMemory_iff hlengths (clamped_total_pos hkernels)).2
      ⟨rfl, rfl, hlacks⟩

omit [Scalar α] in
theorem IsReady.total_pos (hready : contraction.IsReady program) :
    1 ≤ contraction.threads.total := by
  rw [← hready.threads, ← hready.built.works.length_eq, List.length_range]
  exact hready.built.threads_pos

/-- A launch is refused exactly if its buffers or its scratch memory are. -/
theorem contract_eq_error_iff (hhands : contraction.HandsOut) {buffers : Buffers α} {e : Error} :
    (contraction.contract buffers).2 = .error e ↔ contraction.checkBuffers buffers = .error e := by
  rw [contract, snd_settle]
  cases hchecked : contraction.checkBuffers buffers with
  | error e' =>
      constructor
      · intro heq
        exact congrArg Except.error (Except.error.inj heq)
      · intro heq
        obtain rfl := Except.error.inj heq
        rfl
  | ok program =>
      -- a launch that was checked is carried out
      obtain ⟨slices, hslices⟩ :=
        ScratchManager.exists_slices (hhands program (checkBuffers_eq_ok hchecked).compiled)
      have hlaunch : contraction.launch program buffers 0 = .ok _ :=
        bind_eq_ok.2 ⟨slices, hslices, rfl⟩
      constructor
      · intro heq
        simp only [bind, Except.bind, hlaunch] at heq
        cases heq
      · intro heq
        cases heq

omit [Scalar α] in
/-- The buffers of a launch are refused, or they are in order and the scratch memory is. -/
theorem checkBuffers_eq_error_iff (hprogram : contraction.program = some program) {bytes : Nat}
    (hbytes : program.scratchBytes contraction.types.out.bytes = .ok bytes) {buffers : Buffers α}
    {e : Error} :
    contraction.checkBuffers buffers = .error e ↔
      contraction.checkFit program buffers = .error e ∨
        contraction.checkFit program buffers = .ok () ∧
          contraction.scratch.check contraction.threads.total bytes = .error e := by
  rw [checkBuffers_eq hprogram, hbytes, bind_eq_error]
  refine or_congr Iff.rfl ⟨?_, ?_⟩
  · rintro ⟨⟨⟩, hfit, hrest⟩
    rcases bind_eq_error.1 hrest with hnone | ⟨_, hsome, hrest⟩
    · cases hnone
    · obtain rfl := Except.ok.inj hsome
      rcases bind_eq_error.1 hrest with hmemory | ⟨_, -, hdone⟩
      · exact ⟨hfit, hmemory⟩
      · cases hdone
  · rintro ⟨hfit, hmemory⟩
    refine ⟨(), hfit, bind_eq_error.2 (.inr ⟨bytes, rfl, ?_⟩)⟩
    exact bind_eq_error.2 (.inl hmemory)

/-- A launch is refused for lack of memory exactly if its buffers are in order and what the manager
hands out falls short. -/
theorem contract_lacks_iff
    (hready : ∀ program, contraction.program = some program → contraction.IsReady program)
    (hhands : contraction.HandsOut) {buffers : Buffers α} {threads slices required shortest : Nat} :
    (contraction.contract buffers).2 = .error (.threadMemory threads slices required shortest) ↔
      ∃ program, contraction.program = some program ∧
        contraction.checkFit program buffers = .ok () ∧ threads = contraction.threads.total ∧
        (required : Int) = program.scratchCells * contraction.types.out.bytes ∧
        contraction.scratch.Lacks threads slices required shortest := by
  rw [contract_eq_error_iff hhands]
  constructor
  · intro herror
    cases hprogram : contraction.program with
    | none =>
        rw [checkBuffers, hprogram] at herror
        cases herror
    | some program =>
        obtain ⟨bytes, hbytes, -⟩ := (hready program hprogram).scratch
        obtain ⟨lengths, hlengths⟩ := ScratchManager.exists_handedOut (hhands program hprogram)
        rcases (checkBuffers_eq_error_iff hprogram hbytes).1 herror with hfit | ⟨hfit, hmemory⟩
        · -- what is wrong with the buffers is no lack of memory
          have hstage := contraction.checkFit_refusedIn program buffers _ hfit
          exact absurd hstage (by simp [Error.stage])
        · obtain ⟨rfl, rfl, hlacks⟩ := (ScratchManager.check_eq_threadMemory_iff hlengths
            (hready program hprogram).total_pos).1 hmemory
          exact ⟨program, rfl, hfit, rfl, Program.natCast_scratchBytes hbytes, hlacks⟩
  · rintro ⟨program, hprogram, hfit, rfl, hrequired, hlacks⟩
    obtain ⟨bytes, hbytes, -⟩ := (hready program hprogram).scratch
    obtain ⟨lengths, hlengths⟩ := ScratchManager.exists_handedOut (hhands program hprogram)
    -- bytes are counted as the check counts them
    have hcast := Program.natCast_scratchBytes hbytes
    obtain rfl : required = bytes := by omega
    refine (checkBuffers_eq_error_iff hprogram hbytes).2 (.inr ⟨hfit, ?_⟩)
    exact (ScratchManager.check_eq_threadMemory_iff hlengths
      (hready program hprogram).total_pos).2 ⟨rfl, rfl, hlacks⟩

/-! ## Accepted launches -/

omit [Scalar α] in
/-- Each thread of a launch has work and a state that fits it, and works on one of the slices. -/
theorem IsReady.of_mem_threadTasks (hready : contraction.IsReady program)
    {slices : List (ScratchSlice α)} {task : ThreadTask α}
    (htask : task ∈ contraction.threadTasks program slices) :
    (∃ share, program.Does share task.work) ∧ program.Fits task.work task.state ∧
      ∃ slice ∈ slices, task.scratch = slice.cells := by
  obtain ⟨p, hp, rfl⟩ := List.mem_map.1 htask
  obtain ⟨hwork, hslice⟩ := List.of_mem_zip hp
  obtain ⟨thread, -, hdoes⟩ :=
    exists_left_of_forall₂ hready.built.forall₂_does (List.of_mem_zip hwork).1
  exact ⟨⟨_, hdoes⟩, (List.forall₂_iff_zip.1 hready.states).2 hwork, p.2, hslice, rfl⟩

/-- A launch runs every thread, and each one keeps to the slice that was handed out to it. -/
theorem Launches.safe (hready : contraction.IsReady program)
    (hunit : contraction.scratch.pool.unit = contraction.types.out.bytes)
    (hkernel : KernelLast contraction.loops)
    (hforward : ∀ side, PackedForward side contraction.loops) {buffers : Buffers α}
    (haccepts : contraction.Accepts program buffers) {slices : List (ScratchSlice α)}
    {next : Contraction α} {outcome : Outcome α}
    (h : contraction.Launches program buffers 0 slices next outcome) {lengths : List Nat}
    (hlengths : contraction.scratch.handedOut = .ok lengths) :
    contraction.threads.total ≤ lengths.length ∧
    (contraction.threadTasks program slices).map ThreadTask.work = program.works ∧
    List.Forall₂ (program.KeepsWithin contraction.types.out.bytes)
      (contraction.threadTasks program slices) (lengths.take contraction.threads.total) := by
  obtain ⟨required, hrequired, hcheck⟩ := haccepts.scratch
  rw [ScratchManager.check_eq_ok_iff hlengths hready.total_pos, ScratchManager.FallsShort, not_or,
    not_lt] at hcheck
  obtain ⟨henough, hlong⟩ := hcheck
  have hcast := Program.natCast_scratchBytes hrequired
  have hcells := hready.scratchCells_le hunit h.handed
  have hreads := hready.readsKernelEnd
  rw [← hready.loops] at hkernel hforward
  -- no thread is dropped: there are no fewer slices than threads
  have hworks : (contraction.threadTasks program slices).map ThreadTask.work = program.works := by
    refine (map_threadTasks hready.states.length_eq.symm h.enough fun work _ => work).trans ?_
    exact List.map_fst_zip hready.states.length_eq.le
  refine ⟨henough, hworks, List.forall₂_iff_zip.2 ⟨?_, ?_⟩⟩
  · rw [← List.length_map ThreadTask.work, hworks, hready.threads, List.length_take,
      Nat.min_eq_left henough]
  · intro task length hpair
    obtain ⟨htask, hlength⟩ := List.of_mem_zip hpair
    obtain ⟨⟨share, hdoes⟩, hfits, slice, hslice, hscratch⟩ := hready.of_mem_threadTasks htask
    -- none of the slices for the threads falls short
    have hroom : required ≤ length := by
      by_contra hshort
      exact hlong ⟨length, hlength, by omega⟩
    constructor
    · exact Program.keepsToSlots_threadCalls hready.built hforward hkernel hdoes 0 hfits hreads
    · intro side slot hslot cell hcell
      obtain ⟨hlow, hhigh⟩ := Program.slot_bounds hready.built hforward hslot
      obtain ⟨hfrom, hto⟩ := hcell
      have hfits := hcells slice hslice
      have hbelow : cell + 1 ≤ program.scratchCells := by omega
      refine ⟨by omega, by rw [hscratch]; omega, ?_⟩
      calc (cell + 1) * contraction.types.out.bytes
          ≤ program.scratchCells * contraction.types.out.bytes :=
            Int.mul_le_mul_of_nonneg_right hbelow (Int.natCast_nonneg _)
        _ = required := hcast.symm
        _ ≤ length := Int.ofNat_le.2 hroom

/-! ## Any requests -/

/-- Memory can be handed out after a request if it could before. -/
theorem Serves.handsOut {request : Request α} {next : Contraction α}
    (hserves : contraction.Serves request next)
    (hready : ∀ program, contraction.program = some program → contraction.IsReady program)
    (hhands : contraction.HandsOut) : next.HandsOut := by
  cases hserves with
  | compile =>
      intro program hprogram
      rcases compile_program hprogram with heq | ⟨bytes, hcompiles⟩
      · rw [heq] at hprogram ⊢
        exact hhands program hprogram
      · rw [hcompiles.compiled]
        exact ScratchPool.exists_slices_of_allocate _ _ _
  | limitScratch limits => exact hhands
  | refused => exact hhands
  | launched h =>
      -- a launch changes the contents of the memory only
      intro program hprogram
      have hpool : next.scratch.pool.outline = contraction.scratch.pool.outline :=
        congrArg (fun c : Contraction Unit => c.scratch.pool)
          (h.outline_next (hready _ h.compiled))
      obtain ⟨slices', hslices'⟩ := hhands _ h.compiled
      have hslices := ScratchPool.slices_outline next.scratch.pool
      rw [hpool, ScratchPool.slices_outline, hslices'] at hslices
      cases hnext : next.scratch.pool.slices with
      | ok slices' => exact ⟨slices', rfl⟩
      | error e =>
          rw [hnext] at hslices
          cases hslices

/-- Memory can be handed out after any requests: before the first program nothing is asked of it. -/
theorem handsOut_foldl_serve (hnew : contraction.program = none) (requests : List (Request α)) :
    (requests.foldl serve contraction).HandsOut := by
  apply foldl_serve_induction (fun hready hserves => hserves.handsOut hready) (isReady_of_new hnew)
  intro program hprogram
  cases hnew.symm.trans hprogram

/-- Scratch memory is never overrun and no thread is left out, whatever the manager hands out when a
contraction is compiled and before each launch. Compiling and launching are refused for lack of memory
exactly if everything checked before is in order and what is handed out falls short of the packing
slots of all threads; a launch that is refused, for whatever reason, has made no call. An accepted
launch runs every thread on a slice of its own. All calls of a thread keep to packing slots, these lie
within the bytes handed out to the thread, and no two of them share a cell. -/
theorem scratch_never_overrun (contraction : Contraction α) (hnew : contraction.program = none)
    (hunit : contraction.scratch.pool.unit = contraction.types.out.bytes)
    (hkernel : KernelLast contraction.loops)
    (hforward : ∀ side, PackedForward side contraction.loops) :
    (∀ threads slices required shortest,
      contraction.compile.2 = .error (.threadMemory threads slices required shortest) ↔
        ∃ program, contraction.Prepares program required ∧
          threads = contraction.clamped.threads.total ∧
          (required : Int) = program.scratchCells * contraction.types.out.bytes ∧
          (contraction.scratch.provide required threads Scalar.zero).Lacks threads slices required
            shortest) ∧
    ∀ (requests : List (Request α)) (current : Contraction α),
      requests.foldl Contraction.serve contraction = current → ∀ buffers,
        (∀ threads slices required shortest,
          (current.contract buffers).2 = .error (.threadMemory threads slices required shortest) ↔
            ∃ program, current.program = some program ∧
              current.checkFit program buffers = .ok () ∧ threads = current.threads.total ∧
              (required : Int) = program.scratchCells * current.types.out.bytes ∧
              current.scratch.Lacks threads slices required shortest) ∧
        (∀ e, (current.contract buffers).2 = .error e →
          (current.contract buffers).1 = current ∧ current.checkBuffers buffers = .error e) ∧
        ∀ next outcome, current.contract buffers = (next, .ok outcome) →
          ∃ program slices lengths, current.program = some program ∧
            current.scratch.slices = .ok slices ∧ current.scratch.handedOut = .ok lengths ∧
            current.threads.total ≤ lengths.length ∧
            (current.threadTasks program slices).map ThreadTask.work = program.works ∧
            program.works.length = current.threads.total ∧
            outcome.out = (program.runThreads ⟨buffers.left, buffers.right, buffers.outAux⟩
              (current.provider = .recording) 0 (current.threadTasks program slices)
                buffers.out).2 ∧
            List.Forall₂ (program.KeepsWithin current.types.out.bytes)
              (current.threadTasks program slices) (lengths.take current.threads.total) ∧
            ∀ side, ∀ slot < program.slots side, ∀ other, ∀ otherSlot < program.slots other,
              ∀ cell, program.InSlot side slot cell → program.InSlot other otherSlot cell →
                other = side ∧ otherSlot = slot := by
  have hfresh := isReady_of_new hnew
  constructor
  · intro threads slices required shortest
    rw [compile_lacks_iff hnew]
    apply exists_congr
    intro program
    constructor
    · rintro ⟨hprepares, hthreads, hlacks⟩
      exact ⟨hprepares, hthreads, hprepares.natCast_eq, hlacks⟩
    · rintro ⟨hprepares, hthreads, -, hlacks⟩
      exact ⟨hprepares, hthreads, hlacks⟩
  · rintro requests current rfl buffers
    obtain ⟨hready, hsame⟩ := isReady_foldl_serve hfresh requests
    have hhands := handsOut_foldl_serve hnew requests
    rw [← hsame.loops] at hkernel hforward
    rw [← hsame.unit, ← hsame.types] at hunit
    generalize requests.foldl Contraction.serve contraction = current at *
    refine ⟨fun threads slices required shortest => contract_lacks_iff hready hhands, ?_, ?_⟩
    · intro e herror
      refine ⟨?_, (contract_eq_error_iff hhands).1 herror⟩
      -- a launch that is refused leaves everything as it was
      rcases settle_cases current _ with hsettled | ⟨next, outcome, hsettled⟩
      · exact hsettled
      · rw [contract, hsettled] at herror
        cases herror
    · intro next outcome haccepted
      obtain ⟨program, slices, haccepts, hlaunches⟩ := contract_launches hready haccepted
      have hprogram := hready program haccepts.compiled
      obtain ⟨lengths, hlengths⟩ :=
        ScratchManager.exists_handedOut (hhands program haccepts.compiled)
      obtain ⟨henough, hworks, hkeeps⟩ :=
        hlaunches.safe hprogram hunit hkernel hforward haccepts hlengths
      refine ⟨program, slices, lengths, haccepts.compiled, hlaunches.handed, hlengths, henough,
        hworks, hprogram.threads, ?_, hkeeps, ?_⟩
      · obtain ⟨-, rfl⟩ := hlaunches.eq_leaves
        rfl
      · intro side slot hslot other otherSlot hotherSlot cell hcell hother
        rw [← hprogram.loops] at hforward
        exact Program.slot_unique hprogram.built hforward hslot hotherSlot hcell hother

/-- The packed product for four threads, with scratch memory for three. -/
def crampedProduct : Contraction Int :=
  (packedProduct.withThreads ⟨1, 2, 2⟩).limitScratch ⟨3, 32⟩

/-- The same product compiled with scratch memory for four threads. -/
def roomyProduct : Contraction Int := (crampedProduct.limitScratch ⟨4, 32⟩).compile.1

/-- With three slices the product is refused. Compiled with four slices of the size that is needed, it
is refused if they get one byte shorter, and runs all four threads if they do not. -/
theorem scratch_never_overrun_crampedProduct :
    (∃ program, crampedProduct.Prepares program 32 ∧
      (crampedProduct.scratch.provide 32 4 Scalar.zero).Lacks 4 3 32 32) ∧
    ((roomyProduct.limitScratch ⟨4, 31⟩).contract (packedBuffers 3)).1 =
      roomyProduct.limitScratch ⟨4, 31⟩ ∧
    (∃ program, (roomyProduct.limitScratch ⟨4, 31⟩).checkFit program (packedBuffers 3) = .ok () ∧
      (roomyProduct.limitScratch ⟨4, 31⟩).scratch.Lacks 4 4 32 31) ∧
    ∃ (program : Program) (slices : List (ScratchSlice Int)) (lengths : List Nat),
      roomyProduct.program = some program ∧ roomyProduct.scratch.handedOut = .ok lengths ∧
        (roomyProduct.threadTasks program slices).map ThreadTask.work = program.works ∧
        program.works.length = roomyProduct.threads.total ∧
        List.Forall₂ (program.KeepsWithin roomyProduct.types.out.bytes)
          (roomyProduct.threadTasks program slices) (lengths.take roomyProduct.threads.total) := by
  have hforward : ∀ side, PackedForward side crampedProduct.loops := by
    intro side
    unfold PackedForward
    cases side <;> decide
  obtain ⟨hcompile, hserved⟩ := scratch_never_overrun crampedProduct rfl rfl (by decide +kernel)
    hforward
  obtain ⟨hshort, hkept, -⟩ := hserved [.limitScratch ⟨4, 32⟩, .compile, .limitScratch ⟨4, 31⟩]
    (roomyProduct.limitScratch ⟨4, 31⟩) rfl (packedBuffers 3)
  obtain ⟨-, -, hruns⟩ := hserved [.limitScratch ⟨4, 32⟩, .compile] roomyProduct rfl
    (packedBuffers 3)
  have hrefused : ((roomyProduct.limitScratch ⟨4, 31⟩).contract (packedBuffers 3)).2 =
      .error (.threadMemory 4 4 32 31) := by
    have hsize : ((roomyProduct.limitScratch ⟨4, 31⟩).contract (packedBuffers 3)).2.map
        (fun outcome => outcome.out.size) = .error (.threadMemory 4 4 32 31) := by decide +kernel
    cases hresult : ((roomyProduct.limitScratch ⟨4, 31⟩).contract (packedBuffers 3)).2 with
    | ok outcome =>
        rw [hresult] at hsize
        cases hsize
    | error e =>
        rw [hresult] at hsize
        exact congrArg Except.error (Except.error.inj hsize)
  have haccepted : (roomyProduct.contract (packedBuffers 3)).2.isOk = true := by decide +kernel
  refine ⟨?_, (hkept _ hrefused).1, ?_, ?_⟩
  · have hcramped : crampedProduct.compile.2 = .error (.threadMemory 4 3 32 32) := by decide +kernel
    obtain ⟨program, hprepares, -, -, hlacks⟩ := (hcompile 4 3 32 32).1 hcramped
    exact ⟨program, hprepares, hlacks⟩
  · obtain ⟨program, -, hfit, -, -, hlacks⟩ := (hshort 4 4 32 31).1 hrefused
    exact ⟨program, hfit, hlacks⟩
  · rcases hlaunch : roomyProduct.contract (packedBuffers 3) with ⟨next, error | outcome⟩
    · rw [hlaunch] at haccepted
      exact absurd haccepted (by simp [Except.isOk, Except.toBool])
    · obtain ⟨program, slices, lengths, hprogram, -, hlengths, -, hworks, htotal, -, hkeeps, -⟩ :=
        hruns next outcome hlaunch
      exact ⟨program, slices, lengths, hprogram, hlengths, hworks, htotal, hkeeps⟩

end Contraction

end LoopNest
