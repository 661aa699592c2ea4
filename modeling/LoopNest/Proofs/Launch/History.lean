import LoopNest.Proofs.Compilation
import LoopNest.Proofs.Launch.Resets
import LoopNest.Proofs.Packing.Region
import LoopNest.Proofs.Scratch

/-!
# Contractions in use

A contraction is used by a series of requests: it is compiled, launched any number of times, and
given other bounds on its scratch memory in between. `Contraction.serve` is the contraction after
one request, also after one that was refused.

`Contraction.IsReady` collects what holds of a compiled contraction at any time. It holds after
every request (`Contraction.serve_isReady`) and so after every series of requests
(`Contraction.isReady_foldl_serve`).
-/

namespace LoopNest

variable {α : Type}

/-- What can be asked of a contraction. -/
inductive Request (α : Type) where
  | compile
  | limitScratch (limits : ScratchLimits)
  | contract (buffers : Buffers α)
  | contractRaw (buffers : Buffers α) (base : Operands Int)

/-- Whether some loop is packed in an input. -/
def packedIn (loops : List Loop) (side : Side) : Bool := loops.any fun loop => loop.isPacked side

namespace Program

/-- The calls of a launch, thread by thread. -/
def launchCalls (program : Program) (states : List ThreadState) (base : Operands Int) :
    List (List Call) :=
  (program.works.zip states).map fun p => ((program.threadCalls p.1 base).run p.2).1

theorem IsBuilt.isSome_region {program : Program} (hbuilt : program.IsBuilt) (side : Side) :
    (program.region side).isSome = packedIn program.layout.loops side := by
  cases side with
  | left => exact PackedRegion.ofLoops_isSome hbuilt.left
  | right => exact PackedRegion.ofLoops_isSome hbuilt.right

/-- The states that threads leave. -/
theorem map_state_runThreads [Scalar α] (program : Program) (inputs : Inputs α) (recording : Bool)
    (base : Operands Int) (tasks : List (ThreadTask α)) (out : Buffer α) :
    (program.runThreads inputs recording base tasks out).1.map ThreadOutcome.state =
      tasks.map fun task => ((program.threadCalls task.work base).run task.state).2 := by
  induction tasks generalizing out with
  | nil => rfl
  | cons task rest ih =>
      rw [List.map_cons, ← ih]
      rfl

/-- Threads run their calls one after the other. -/
theorem out_runThreads [Scalar α] (program : Program) (inputs : Inputs α) (recording : Bool)
    (base : Operands Int) (tasks : List (ThreadTask α)) (out : Buffer α) :
    (program.runThreads inputs recording base tasks out).2 =
      tasks.foldl (fun out task =>
        (program.runCalls inputs ((program.threadCalls task.work base).run task.state).1 out
          task.scratch).1) out := by
  induction tasks generalizing out with
  | nil => rfl
  | cons task rest ih =>
      rw [List.foldl_cons, ← ih]
      rfl

end Program

namespace Contraction

variable [Scalar α] {contraction : Contraction α} {program : Program}

/-- The contraction after a request. -/
def serve (contraction : Contraction α) : Request α → Contraction α
  | .compile => contraction.compile.1
  | .limitScratch limits => contraction.limitScratch limits
  | .contract buffers => (contraction.contract buffers).1
  | .contractRaw buffers base => (contraction.contractRaw buffers base).1

/-- What a contraction was made from, which no request changes. -/
structure SameSetup (contraction contraction' : Contraction α) : Prop where
  loops : contraction'.loops = contraction.loops
  types : contraction'.types = contraction.types
  tags : contraction'.tags = contraction.tags
  provider : contraction'.provider = contraction.provider
  pools : contraction'.pools = contraction.pools
  unit : contraction'.scratch.pool.unit = contraction.scratch.pool.unit

omit [Scalar α] in
theorem SameSetup.refl (contraction : Contraction α) : contraction.SameSetup contraction :=
  ⟨rfl, rfl, rfl, rfl, rfl, rfl⟩

omit [Scalar α] in
theorem SameSetup.trans {contraction' contraction'' : Contraction α}
    (h : contraction.SameSetup contraction') (h' : contraction'.SameSetup contraction'') :
    contraction.SameSetup contraction'' :=
  ⟨h'.loops.trans h.loops, h'.types.trans h.types, h'.tags.trans h.tags,
    h'.provider.trans h.provider, h'.pools.trans h.pools, h'.unit.trans h.unit⟩

/-- What is known of a contraction that was compiled to a program. -/
structure IsReady (contraction : Contraction α) (program : Program) : Prop where
  built : program.IsBuilt
  loops : program.layout.loops = contraction.loops
  kernels : contraction.makeKernels = .ok program.kernels
  threads : program.works.length = contraction.threads.total
  states : List.Forall₂ program.Fits program.works contraction.states
  scratch : ∃ bytes, program.scratchBytes contraction.types.out.bytes = .ok bytes ∧
    bytes ≤ contraction.scratch.pool.sliceBytes

omit [Scalar α] in
/-- Inputs with a packed region are packed. -/
theorem IsReady.packedIn_eq_true (hready : contraction.IsReady program) (side : Side)
    (hside : (program.region side).isSome) : packedIn contraction.loops side = true := by
  rwa [hready.built.isSome_region, hready.loops] at hside

/-! ## Compiling -/

/-- What compiling has done once there is a program, with `bytes` of scratch memory for each
thread. -/
structure Compiles (contraction : Contraction α) (program : Program) (bytes : Nat) : Prop where
  kernels : contraction.makeKernels = .ok program.kernels
  build : Program.build contraction.loops program.kernels
    (Program.clampThreads contraction.loops contraction.threads) contraction.maxSlots = .ok program
  scratch : program.scratchBytes contraction.types.out.bytes = .ok bytes
  pool : contraction.pools.Supplies
    (Program.clampThreads contraction.loops contraction.threads).total
  check : contraction.compile.1.scratch.check
    (Program.clampThreads contraction.loops contraction.threads).total bytes = .ok ()
  compiled : contraction.compile.1 =
    { contraction with
      threads := Program.clampThreads contraction.loops contraction.threads
      scratch := contraction.scratch.provide bytes
        (Program.clampThreads contraction.loops contraction.threads).total Scalar.zero
      program := some program
      states := program.works.map program.initialState }

omit [Scalar α] in
theorem sizes_of_makeKernels {kernels : KernelSet} (h : contraction.makeKernels = .ok kernels) :
    ∀ loop ∈ contraction.loops, 1 ≤ loop.size := by
  obtain ⟨⟨⟩, -, h⟩ := bind_eq_ok.1 h
  obtain ⟨⟨⟩, -, h⟩ := bind_eq_ok.1 h
  obtain ⟨⟨⟩, hsizes, -⟩ := bind_eq_ok.1 h
  exact size_pos_of_checkSizes hsizes

omit [Scalar α] in
theorem make_of_makeKernels {kernels : KernelSet} (h : contraction.makeKernels = .ok kernels) :
    contraction.tags.make contraction.provider contraction.loops = .ok kernels := by
  obtain ⟨⟨⟩, -, h⟩ := bind_eq_ok.1 h
  obtain ⟨⟨⟩, -, h⟩ := bind_eq_ok.1 h
  obtain ⟨⟨⟩, -, h⟩ := bind_eq_ok.1 h
  exact h

/-- A contraction that has a program after compiling had it before, or compiling has made it. -/
theorem compile_program (h : contraction.compile.1.program = some program) :
    contraction.compile.1 = contraction ∨ ∃ bytes, contraction.Compiles program bytes := by
  have hcases := contraction.compilation
  generalize hresult : contraction.compile = result at hcases h
  cases hcases with
  | kept => exact .inl rfl
  | noKernels => exact .inl rfl
  | noProgram hnew => cases hnew.symm.trans h
  | noMemory hnew => cases hnew.symm.trans h
  | done hnew hkernels hmade hcheck =>
      obtain rfl := Option.some.inj h
      obtain ⟨hbuild, hbytes, hpool⟩ := (makeProgram_eq_ok_iff _).1 hmade
      obtain ⟨-, -, rfl, -⟩ := Program.build_isBuilt (sizes_of_makeKernels hkernels) hbuild
      exact .inr ⟨_, hkernels, hbuild, hbytes, hpool, by rw [hresult]; exact hcheck,
        by rw [hresult]; rfl⟩

/-- A new contraction that could be compiled has a program. -/
theorem exists_compiles (hnew : contraction.program = none) (h : contraction.compile.2 = .ok ()) :
    ∃ program bytes, contraction.Compiles program bytes := by
  have hsome : ∃ program, contraction.compile.1.program = some program := by
    have hcases := contraction.compilation
    generalize contraction.compile = result at hcases h ⊢
    cases hcases with
    | kept hcompiled =>
        rw [hnew] at hcompiled
        cases hcompiled
    | noKernels => cases h
    | noProgram => cases h
    | noMemory => cases h
    | done => exact ⟨_, rfl⟩
  obtain ⟨program, hprogram⟩ := hsome
  rcases compile_program hprogram with hkept | ⟨bytes, hcompiles⟩
  · rw [hkept, hnew] at hprogram
    cases hprogram
  · exact ⟨program, bytes, hcompiles⟩

/-- Once there is a program, the check of the scratch memory decides. -/
theorem compile_eq_check {kernels : KernelSet} {bytes : Nat} (hnew : contraction.program = none)
    (hkernels : contraction.makeKernels = .ok kernels)
    (hmade : makeProgram { contraction with
      threads := Program.clampThreads contraction.loops contraction.threads } kernels =
        .ok (program, bytes)) :
    contraction.compile.2 = (contraction.scratch.provide bytes
      (Program.clampThreads contraction.loops contraction.threads).total Scalar.zero).check
        (Program.clampThreads contraction.loops contraction.threads).total bytes := by
  unfold compile
  rw [if_neg (by simp [isCompiled, hnew]), hkernels]
  dsimp only
  rw [hmade]
  dsimp only
  split
  · rename_i e hcheck
    exact hcheck.symm
  · rename_i hcheck
    exact hcheck.symm

/-- A new contraction with a program, a pool for its threads and enough scratch memory can be
compiled. -/
theorem compile_eq_ok {kernels : KernelSet} {bytes : Nat} (hnew : contraction.program = none)
    (hkernels : contraction.makeKernels = .ok kernels)
    (hbuild : Program.build contraction.loops kernels
      (Program.clampThreads contraction.loops contraction.threads) contraction.maxSlots = .ok program)
    (hbytes : program.scratchBytes contraction.types.out.bytes = .ok bytes)
    (hpool : contraction.pools.Supplies
      (Program.clampThreads contraction.loops contraction.threads).total)
    (hcheck : (contraction.scratch.provide bytes
      (Program.clampThreads contraction.loops contraction.threads).total Scalar.zero).check
        (Program.clampThreads contraction.loops contraction.threads).total bytes = .ok ()) :
    contraction.compile.2 = .ok () := by
  rw [compile_eq_check hnew hkernels
    ((makeProgram_eq_ok_iff _).2 ⟨hbuild, hbytes, hpool⟩)]
  exact hcheck

omit [Scalar α] in
/-- Thread counts that were brought into their bounds are at least one. -/
theorem atLeastOne_clampThreads {loops : List Loop} (hsizes : ∀ loop ∈ loops, 1 ≤ loop.size)
    (threads : ThreadGrid) :
    (Program.clampThreads loops threads).atLeastOne = Program.clampThreads loops threads := by
  have hpos : ∀ p : Loop → Bool, 1 ≤ Program.sizeWhere loops p := fun p => by
    rw [sizeWhere_eq_prod]
    exact one_le_prod_size fun loop hloop => hsizes loop (List.mem_of_mem_filter hloop)
  have homp := hpos fun loop => loop.mode = .omp
  have hm := hpos fun loop => loop.mode = .sfc && loop.axis = .m
  have hn := hpos fun loop => loop.mode = .sfc && loop.axis = .n
  simp only [ThreadGrid.atLeastOne, Program.clampThreads, ThreadGrid.mk.injEq]
  omega

theorem compile_sameSetup (contraction : Contraction α) :
    contraction.SameSetup contraction.compile.1 := by
  have hcases := contraction.compilation
  generalize contraction.compile = result at hcases ⊢
  cases hcases with
  | kept => exact .refl contraction
  | noKernels => exact .refl contraction
  | noProgram => exact ⟨rfl, rfl, rfl, rfl, rfl, rfl⟩
  | noMemory => exact ⟨rfl, rfl, rfl, rfl, rfl, ScratchManager.unit_provide _ _ _ _⟩
  | done => exact ⟨rfl, rfl, rfl, rfl, rfl, ScratchManager.unit_provide _ _ _ _⟩

/-- A contraction is ready when it was compiled. -/
theorem Compiles.isReady {bytes : Nat} (h : contraction.Compiles program bytes) :
    contraction.compile.1.IsReady program := by
  have hsizes := sizes_of_makeKernels h.kernels
  obtain ⟨hbuilt, hloops, -, hthreads⟩ := Program.build_isBuilt hsizes h.build
  rw [atLeastOne_clampThreads hsizes] at hthreads
  have hroom := ScratchManager.required_le_sliceBytes h.check (hthreads ▸ hbuilt.threads_pos)
  rw [h.compiled] at hroom ⊢
  refine ⟨hbuilt, hloops, h.kernels, ?_, ?_, bytes, h.scratch, hroom⟩
  · rw [← hbuilt.works.length_eq, List.length_range, hthreads]
  · rw [List.forall₂_map_right_iff]
    exact List.forall₂_same.2 fun work _ => program.fits_initialState work

/-! ## Launching -/

/-- A launch that was accepted: the scratch slices that it was handed, one for each thread. -/
structure Launches (contraction : Contraction α) (program : Program) (buffers : Buffers α)
    (base : Operands Int) (slices : List (ScratchSlice α)) (next : Contraction α)
    (outcome : Outcome α) : Prop where
  compiled : contraction.program = some program
  handed : contraction.scratch.slices = .ok slices
  enough : program.works.length ≤ slices.length
  launch : contraction.launch program buffers base = .ok (next, outcome)

/-- What the threads of a launch leave: what each of them remembers, and the output. -/
def leaves (contraction : Contraction α) (program : Program) (buffers : Buffers α)
    (base : Operands Int) (slices : List (ScratchSlice α)) : List (ThreadOutcome α) × Buffer α :=
  program.runThreads ⟨buffers.left, buffers.right, buffers.outAux⟩
    (contraction.provider = .recording) base (contraction.threadTasks program slices) buffers.out

theorem Launches.eq_leaves {buffers : Buffers α} {base : Operands Int}
    {slices : List (ScratchSlice α)} {next : Contraction α} {outcome : Outcome α}
    (h : contraction.Launches program buffers base slices next outcome) :
    next = contraction.afterLaunch (contraction.leaves program buffers base slices).1 ∧
      outcome = ⟨(contraction.leaves program buffers base slices).2,
        contraction.arrange ((contraction.leaves program buffers base slices).1.flatMap
          ThreadOutcome.observations)⟩ := by
  obtain ⟨slices', hslices, hlaunch⟩ := bind_eq_ok.1 h.launch
  obtain rfl := Except.ok.inj (hslices.symm.trans h.handed)
  obtain ⟨rfl, rfl⟩ := Prod.mk.inj (pure_eq_ok.1 hlaunch)
  exact ⟨rfl, rfl⟩

omit [Scalar α] in
theorem settle_eq_ok {result : Except Error (Contraction α × Outcome α)} {next : Contraction α}
    {outcome : Outcome α} (h : contraction.settle result = (next, .ok outcome)) :
    result = .ok (next, outcome) := by
  unfold settle at h
  split at h
  · exact absurd (Prod.mk.inj h).2 (by simp)
  · obtain ⟨rfl, houtcome⟩ := Prod.mk.inj h
    rw [Except.ok.inj houtcome]

omit [Scalar α] in
/-- A refused launch leaves the contraction as it is. -/
theorem settle_cases (contraction : Contraction α)
    (result : Except Error (Contraction α × Outcome α)) :
    (contraction.settle result).1 = contraction ∨
      ∃ next outcome, contraction.settle result = (next, .ok outcome) := by
  cases result with
  | error e => exact .inl rfl
  | ok pair => exact .inr ⟨pair.1, pair.2, rfl⟩

/-- Buffers that are accepted: they are as long as the program reaches, and there is scratch memory
for every thread. -/
structure Accepts (contraction : Contraction α) (program : Program) (buffers : Buffers α) :
    Prop where
  compiled : contraction.program = some program
  left : program.extents.left ≤ buffers.left.size
  right : program.extents.right ≤ buffers.right.size
  out : program.extents.out ≤ buffers.out.size
  outAux : ∀ aux, buffers.outAux = some aux → program.extents.outAux ≤ aux.size
  given : contraction.tags.readsAux.isSome = true → buffers.outAux.isSome = true
  scratch : ∃ required, program.scratchBytes contraction.types.out.bytes = .ok required ∧
    contraction.scratch.check contraction.threads.total required = .ok ()

omit [Scalar α] in
theorem checkBuffers_eq_ok {buffers : Buffers α} (h : contraction.checkBuffers buffers = .ok program) :
    contraction.Accepts program buffers := by
  have hlength : ∀ {operand required actual}, checkLength operand required actual = .ok () →
      required ≤ actual := by
    intro operand required actual hcheck
    have := (guard_eq_ok.1 hcheck).1
    omega
  unfold checkBuffers at h
  split at h
  · exact absurd h (by simp)
  · rename_i program' hprogram
    obtain ⟨-, h⟩ := guard_bind_eq_ok.1 h
    obtain ⟨⟨⟩, hleft, h⟩ := bind_eq_ok.1 h
    obtain ⟨⟨⟩, hright, h⟩ := bind_eq_ok.1 h
    obtain ⟨⟨⟩, hout, h⟩ := bind_eq_ok.1 h
    obtain ⟨⟨⟩, haux, h⟩ := bind_eq_ok.1 h
    obtain ⟨required, hrequired, h⟩ := bind_eq_ok.1 h
    obtain ⟨⟨⟩, hscratch, h⟩ := bind_eq_ok.1 h
    obtain rfl := pure_eq_ok.1 h
    refine ⟨hprogram, hlength hleft, hlength hright, hlength hout, fun aux hsome => ?_,
      fun hreads => ?_, required, hrequired, hscratch⟩
    · rw [hsome] at haux
      exact hlength haux
    · obtain ⟨kernel, hkernel⟩ := Option.isSome_iff_exists.1 hreads
      unfold checkAux at haux
      split at haux
      · rename_i hsome
        rw [hsome]
        rfl
      · exact absurd haux (by simp)
      · rename_i hnone
        exact absurd (hkernel.symm.trans hnone) (by simp)

omit [Scalar α] in
/-- The slices that are handed out hold the packing slots of a thread. -/
theorem IsReady.scratchCells_le (hready : contraction.IsReady program)
    (hunit : contraction.scratch.pool.unit = contraction.types.out.bytes)
    {slices : List (ScratchSlice α)} (hslices : contraction.scratch.slices = .ok slices) :
    ∀ slice ∈ slices, program.scratchCells ≤ slice.cells.size := by
  intro slice hslice
  obtain ⟨whole, hwhole, origin, horigin, hstart⟩ :=
    ScratchManager.exists_of_mem_slices hslices hslice
  obtain ⟨bytes, hbytes, hroom⟩ := hready.scratch
  obtain rfl := Except.ok.inj (guard_eq_ok.1 hbytes).2
  have hpos : 0 < contraction.types.out.bytes := by
    cases contraction.types.out <;> decide
  have hcells := Nat.div_le_div_right (c := contraction.types.out.bytes) hroom
  have hsize := (ScratchPool.size_of_mem_slices hwhole horigin).2
  rw [hunit, ← hstart.cells] at hsize
  rw [Nat.mul_div_cancel _ hpos] at hcells
  omega

omit [Scalar α] in
/-- Every thread of an accepted launch has a slice of the scratch memory. -/
theorem Accepts.exists_slices {buffers : Buffers α} (h : contraction.Accepts program buffers)
    (hready : contraction.IsReady program) :
    ∃ slices, contraction.scratch.slices = .ok slices ∧
      program.works.length ≤ slices.length := by
  obtain ⟨required, -, hcheck⟩ := h.scratch
  obtain ⟨lengths, hlengths, hcheck⟩ := bind_eq_ok.1 hcheck
  obtain ⟨slices, hslices, rfl⟩ := ScratchManager.handedOut_eq_ok hlengths
  have henough := (guard_eq_ok.1 hcheck).1
  have hthreads := hready.threads
  rw [List.length_map] at henough
  exact ⟨slices, hslices, by omega⟩

/-- A launch on buffers that were checked. -/
theorem contract_launches (hready : ∀ program, contraction.program = some program →
    contraction.IsReady program) {buffers : Buffers α} {next : Contraction α}
    {outcome : Outcome α} (h : contraction.contract buffers = (next, .ok outcome)) :
    ∃ program slices, contraction.Accepts program buffers ∧
      contraction.Launches program buffers 0 slices next outcome := by
  obtain ⟨program, hchecked, hlaunch⟩ := bind_eq_ok.1 (settle_eq_ok h)
  have haccepts := checkBuffers_eq_ok hchecked
  obtain ⟨slices, hslices, henough⟩ := haccepts.exists_slices (hready program haccepts.compiled)
  exact ⟨program, slices, haccepts, haccepts.compiled, hslices, henough, hlaunch⟩

/-- A launch on parts of buffers that were not checked. -/
theorem contractRaw_launches {buffers : Buffers α} {base : Operands Int} {next : Contraction α}
    {outcome : Outcome α} (h : contraction.contractRaw buffers base = (next, .ok outcome)) :
    ∃ program slices, contraction.Launches program buffers
      { base with outAux := if buffers.outAux.isSome then base.outAux else 0 } slices next
        outcome := by
  have hraw := settle_eq_ok h
  split at hraw
  · exact absurd hraw (by simp)
  · rename_i program hprogram
    obtain ⟨slices, hslices, hraw⟩ := bind_eq_ok.1 hraw
    obtain ⟨henough, hlaunch⟩ := guard_bind_eq_ok.1 hraw
    exact ⟨program, slices, hprogram, hslices, by omega, hlaunch⟩

/-- Values that are replaced one by one keep their relation. -/
theorem forall₂_map_zip {β γ δ : Type} {R : β → γ → Prop} {S : γ → δ → Prop} {bs : List β}
    {cs : List γ} {ds : List δ} {g : γ → δ → δ} (hbs : List.Forall₂ R bs cs)
    (hds : List.Forall₂ S cs ds) (hg : ∀ b c d, R b c → S c d → S c (g c d)) :
    List.Forall₂ S cs ((cs.zip ds).map fun p => g p.1 p.2) := by
  induction hbs generalizing ds with
  | nil => exact .nil
  | cons hb _ ih =>
      cases hds with
      | cons hd hds => exact .cons (hg _ _ _ hb hd) (ih hds)

theorem forall₂_zip_right {β γ δ : Type} {R : β → γ → Prop} {S : γ → δ → Prop} {bs : List β}
    {cs : List γ} {ds : List δ} (hbs : List.Forall₂ R bs cs) (hds : List.Forall₂ S cs ds) :
    List.Forall₂ (fun b p => R b p.1 ∧ S p.1 p.2) bs (cs.zip ds) := by
  induction hbs generalizing ds with
  | nil => exact .nil
  | cons hb _ ih =>
      cases hds with
      | cons hd hds => exact .cons ⟨hb, hd⟩ (ih hds)

omit [Scalar α] in
/-- The tasks of a launch, apart from the scratch memory. -/
theorem map_threadTasks {program : Program} {slices : List (ScratchSlice α)} {β : Type}
    (hstates : contraction.states.length = program.works.length)
    (henough : program.works.length ≤ slices.length) (f : Work → ThreadState → β) :
    (contraction.threadTasks program slices).map (fun task => f task.work task.state) =
      (program.works.zip contraction.states).map fun p => f p.1 p.2 := by
  have hlength : (program.works.zip contraction.states).length ≤ slices.length := by
    rw [List.length_zip]
    omega
  conv_rhs => rw [← List.map_fst_zip hlength]
  rw [threadTasks, List.map_map, List.map_map]
  rfl

/-- A launch leaves the contraction ready. -/
theorem IsReady.launches_next (hready : contraction.IsReady program) {buffers : Buffers α}
    {base : Operands Int} {slices : List (ScratchSlice α)} {next : Contraction α} {outcome : Outcome α}
    (h : contraction.Launches program buffers base slices next outcome) :
    (∀ program, next.program = some program → next.IsReady program) ∧
      contraction.SameSetup next := by
  obtain ⟨rfl, -⟩ := h.eq_leaves
  have hwrites := ScratchPool.foldl_write
    (fun p : ThreadOutcome α × Nat => (p.2, p.1.scratch)) contraction.scratch.pool
  refine ⟨fun program' hprogram => ?_, rfl, rfl, rfl, rfl, rfl, ?_⟩
  swap
  · exact (hwrites _).1
  obtain rfl := Option.some.inj (h.compiled.symm.trans hprogram)
  refine ⟨hready.built, hready.loops, hready.kernels, hready.threads, ?_, ?_⟩
  swap
  · obtain ⟨bytes, hbytes, hroom⟩ := hready.scratch
    exact ⟨bytes, hbytes, hroom.trans_eq (hwrites _).2.symm⟩
  show List.Forall₂ _ _ (List.map _ _)
  rw [leaves, Program.map_state_runThreads, map_threadTasks hready.states.length_eq.symm h.enough
    fun work state => ((program.threadCalls work base).run state).2]
  exact forall₂_map_zip hready.built.forall₂_does hready.states fun thread work state _ hfits =>
    Program.fits_threadCalls base hfits

/-! ## Requests -/

/-- What can come of a request. Compiling and new bounds leave their mark whatever comes of them. Any
other request is refused, or is a launch that was accepted. -/
inductive Serves (contraction : Contraction α) : Request α → Contraction α → Prop where
  | compile : Serves contraction .compile contraction.compile.1
  | limitScratch (limits : ScratchLimits) :
      Serves contraction (.limitScratch limits) (contraction.limitScratch limits)
  | refused (request : Request α) : Serves contraction request contraction
  | launched {request : Request α} {program : Program} {buffers : Buffers α}
      {base : Operands Int} {slices : List (ScratchSlice α)} {next : Contraction α}
      {outcome : Outcome α} (h : contraction.Launches program buffers base slices next outcome) :
      Serves contraction request next

theorem serves_serve
    (hready : ∀ program, contraction.program = some program → contraction.IsReady program)
    (request : Request α) : contraction.Serves request (contraction.serve request) := by
  cases request with
  | compile => exact .compile
  | limitScratch limits => exact .limitScratch limits
  | contract buffers =>
      obtain heq | ⟨next, outcome, heq⟩ := settle_cases contraction _
      · rw [serve, contract, heq]
        exact .refused _
      · obtain ⟨program, slices, -, hlaunch⟩ := contract_launches hready heq
        rw [serve, contract, heq]
        exact .launched hlaunch
  | contractRaw buffers base =>
      obtain heq | ⟨next, outcome, heq⟩ := settle_cases contraction _
      · rw [serve, contractRaw, heq]
        exact .refused _
      · obtain ⟨program, slices, hlaunch⟩ := contractRaw_launches heq
        rw [serve, contractRaw, heq]
        exact .launched hlaunch

theorem Serves.isReady {request : Request α} {next : Contraction α}
    (h : contraction.Serves request next)
    (hready : ∀ program, contraction.program = some program → contraction.IsReady program) :
    (∀ program, next.program = some program → next.IsReady program) ∧
      contraction.SameSetup next := by
  cases h with
  | compile =>
      refine ⟨fun program hprogram => ?_, compile_sameSetup contraction⟩
      obtain heq | ⟨bytes, hcompiles⟩ := compile_program hprogram
      · rw [heq] at hprogram ⊢
        exact hready program hprogram
      · exact hcompiles.isReady
  | limitScratch limits =>
      refine ⟨fun program hprogram => ?_, ⟨rfl, rfl, rfl, rfl, rfl, rfl⟩⟩
      have hold := hready program hprogram
      exact ⟨hold.built, hold.loops, hold.kernels, hold.threads, hold.states, hold.scratch⟩
  | refused => exact ⟨hready, .refl _⟩
  | launched hlaunch => exact (hready _ hlaunch.compiled).launches_next hlaunch

/-- Requests keep a compiled contraction ready and its setup as it is. -/
theorem serve_isReady
    (hready : ∀ program, contraction.program = some program → contraction.IsReady program)
    (request : Request α) :
    (∀ program, (contraction.serve request).program = some program →
      (contraction.serve request).IsReady program) ∧
      contraction.SameSetup (contraction.serve request) :=
  (serves_serve hready request).isReady hready

/-- A contraction is ready after any series of requests by which it was compiled. -/
theorem isReady_foldl_serve
    (hready : ∀ program, contraction.program = some program → contraction.IsReady program)
    (requests : List (Request α)) :
    (∀ program, (requests.foldl serve contraction).program = some program →
      (requests.foldl serve contraction).IsReady program) ∧
      contraction.SameSetup (requests.foldl serve contraction) := by
  induction requests generalizing contraction with
  | nil => exact ⟨hready, .refl _⟩
  | cons request rest ih =>
      obtain ⟨hnext, hsame⟩ := serve_isReady hready request
      obtain ⟨hlast, hsame'⟩ := ih hnext
      exact ⟨hlast, hsame.trans hsame'⟩

/-- What holds of a contraction, and what no request takes away, holds after any series of
requests. -/
theorem foldl_serve_induction {motive : Contraction α → Prop}
    (hserves : ∀ {current next : Contraction α} {request : Request α},
      (∀ program, current.program = some program → current.IsReady program) →
        current.Serves request next → motive current → motive next)
    (hready : ∀ program, contraction.program = some program → contraction.IsReady program)
    (hstart : motive contraction) (requests : List (Request α)) :
    motive (requests.foldl serve contraction) := by
  induction requests generalizing contraction with
  | nil => exact hstart
  | cons request rest ih =>
      have hserve := serves_serve hready request
      exact ih (hserve.isReady hready).1 (hserves hready hserve hstart)

omit [Scalar α] in
/-- A contraction is ready once there is a program, if there is none. -/
theorem isReady_of_new (hnew : contraction.program = none) :
    ∀ program, contraction.program = some program → contraction.IsReady program := by
  intro program hprogram
  cases hnew.symm.trans hprogram

/-! ## The calls of a launch -/

/-- The output of a launch is what its calls make of the output buffer, thread by thread. -/
theorem Launches.out_eq {buffers : Buffers α} {base : Operands Int} {slices : List (ScratchSlice α)}
    {next : Contraction α} {outcome : Outcome α}
    (h : contraction.Launches program buffers base slices next outcome) :
    outcome.out = ((program.launchCalls contraction.states base).zip slices).foldl
      (fun out p => (program.runCalls ⟨buffers.left, buffers.right, buffers.outAux⟩ p.1 out
        p.2.cells).1) buffers.out := by
  obtain ⟨-, rfl⟩ := h.eq_leaves
  refine (program.out_runThreads _ _ _ _ _).trans ?_
  rw [threadTasks, Program.launchCalls, List.zip_map_left, List.foldl_map, List.foldl_map]
  rfl

omit [Scalar α] in
/-- The calls of each thread are those of its work, from a state that fits it. -/
theorem IsReady.forall₂_launchCalls (hready : contraction.IsReady program) (base : Operands Int) :
    List.Forall₂
      (fun thread calls => ∃ work state, program.Does (program.layout.shareOf thread) work ∧
        program.Fits work state ∧ calls = ((program.threadCalls work base).run state).1)
      (List.range program.layout.threads.total)
      (program.launchCalls contraction.states base) := by
  rw [Program.launchCalls, List.forall₂_map_right_iff]
  exact (forall₂_zip_right hready.built.forall₂_does hready.states).imp
    fun thread p hp => ⟨p.1, p.2, hp.1, hp.2, rfl⟩

omit [Scalar α] in
/-- The kernel calls of each thread are those of its schedule. -/
theorem IsReady.sights_launchCalls (hready : contraction.IsReady program)
    {before omp sfc after kernel : List Loop}
    (hcut : Layout.Cut program.layout.loops before omp sfc after kernel) (base : Operands Int) :
    List.Forall₂
      (fun thread calls => sights (packedIn contraction.loops) calls =
        (program.threadVisits Loop.strides before after (program.layout.shareOf thread)).flatMap
          (program.visitSights (packedIn contraction.loops) base))
      (List.range program.layout.threads.total)
      (program.launchCalls contraction.states base) := by
  apply (hready.forall₂_launchCalls base).imp
  rintro thread calls ⟨work, state, hdoes, hfits, rfl⟩
  exact (Program.sights_threadCalls hready.built hdoes hready.packedIn_eq_true hcut base hfits).1

end Contraction

end LoopNest
