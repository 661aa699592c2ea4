import LoopNest.Proofs.Launch.Relaunch
import LoopNest.Proofs.Launch.ScratchSafety

/-!
# Compiling again after a refusal

Compiling brings the numbers of threads into their bounds and reserves scratch memory before its last
check, so a contraction that was refused for lack of memory is not what it was before. Neither change
makes a difference to a second attempt: numbers in their bounds stay as they are, and memory that was
provided is provided again as it is. An attempt to compile what a refused attempt has left is
therefore the attempt to compile what was there before (`Contraction.compile_compile`), bounds on the
scratch memory apart.

A contraction that was only tried (`Contraction.Tried`) is compiled or refused like a new one
(`Contraction.Tried.compile_managed`). If it is compiled in the end, nothing is left to tell the two
apart but the bounds, and these play no part in launches as long as they suffice
(`Contraction.Launchable.foldl_serve_managed`). `Contraction.compile_retried` is the result.
-/

namespace LoopNest

variable {α : Type}

namespace Program

/-- Numbers of threads that are in their bounds stay as they are. -/
theorem clampThreads_clampThreads (loops : List Loop) (hsizes : ∀ loop ∈ loops, 1 ≤ loop.size)
    (threads : ThreadGrid) :
    clampThreads loops (clampThreads loops threads) = clampThreads loops threads := by
  have hclamped := Contraction.atLeastOne_clampThreads hsizes threads
  obtain ⟨homp, hm, hn⟩ := ThreadGrid.mk.inj hclamped
  simp only [clampThreads, ThreadGrid.mk.injEq] at homp hm hn ⊢
  omega

end Program

namespace Contraction

/-- The contraction with other bounds on its scratch memory, or none, and another record of what was
reserved. -/
def managed (contraction : Contraction α) (limits : Option ScratchLimits)
    (reservations : List (Nat × Nat)) : Contraction α :=
  { contraction with scratch := ⟨contraction.scratch.pool, limits, reservations⟩ }

/-- The contraction with other bounds on its scratch memory, or none. -/
def withLimits (contraction : Contraction α) (limits : Option ScratchLimits) : Contraction α :=
  contraction.managed limits contraction.scratch.reservations

variable [Scalar α] {contraction current : Contraction α} {program : Program}

/-- What can become of a contraction that nobody manages to compile: attempts to compile it are
refused, it is given other bounds on its scratch memory, and launches are asked of it. -/
inductive Tried (contraction : Contraction α) : Contraction α → Prop where
  | untouched : Tried contraction contraction
  | refused {current : Contraction α} {e : Error} (h : Tried contraction current)
      (herror : current.compile.2 = .error e) : Tried contraction current.compile.1
  | limited {current : Contraction α} (h : Tried contraction current)
      (limits : Option ScratchLimits) : Tried contraction (current.withLimits limits)
  | launched {current : Contraction α} (h : Tried contraction current) (request : Request α)
      (hlaunch : request.isLaunch = true) : Tried contraction (current.serve request)

/-! ## One attempt after another -/

/-- The last step of compiling: the scratch memory that was provided is checked. -/
def completed (contraction : Contraction α) (program : Program) (bytes : Nat) :
    Contraction α × Except Error Unit :=
  match contraction.scratch.check contraction.threads.total bytes with
  | .error e => (contraction, .error e)
  | .ok () =>
      ({ contraction with
          program := some program
          states := program.works.map program.initialState },
        .ok ())

omit [Scalar α] in
theorem snd_completed (contraction : Contraction α) (program : Program) (bytes : Nat) :
    (contraction.completed program bytes).2 =
      contraction.scratch.check contraction.threads.total bytes := by
  unfold completed
  split
  · rename_i e hcheck
    exact hcheck.symm
  · rename_i hcheck
    exact hcheck.symm

theorem compile_eq_noKernels {e : Error} (hnew : contraction.program = none)
    (hkernels : contraction.makeKernels = .error e) :
    contraction.compile = (contraction, .error e) := by
  rw [compile, if_neg (by simp [isCompiled, hnew]), hkernels]

theorem compile_eq_noProgram {kernels : KernelSet} {e : Error} (hnew : contraction.program = none)
    (hkernels : contraction.makeKernels = .ok kernels)
    (hmade : contraction.clamped.makeProgram kernels = .error e) :
    contraction.compile = (contraction.clamped, .error e) := by
  have hmade' : makeProgram { contraction with
      threads := Program.clampThreads contraction.loops contraction.threads } kernels = .error e :=
    hmade
  rw [compile, if_neg (by simp [isCompiled, hnew]), hkernels]
  dsimp only
  rw [hmade']
  rfl

theorem compile_eq_completed {kernels : KernelSet} {bytes : Nat}
    (hnew : contraction.program = none) (hkernels : contraction.makeKernels = .ok kernels)
    (hmade : contraction.clamped.makeProgram kernels = .ok (program, bytes)) :
    contraction.compile = (contraction.clamped.provided bytes).completed program bytes := by
  have hmade' : makeProgram { contraction with
      threads := Program.clampThreads contraction.loops contraction.threads } kernels =
        .ok (program, bytes) := hmade
  rw [compile, if_neg (by simp [isCompiled, hnew]), hkernels]
  dsimp only
  rw [hmade']
  rfl

omit [Scalar α] in
/-- A contraction whose threads are in their bounds is compiled for them. -/
theorem clamped_clamped {kernels : KernelSet} (hkernels : contraction.makeKernels = .ok kernels) :
    contraction.clamped.clamped = contraction.clamped :=
  congrArg (fun threads => { contraction with threads := threads })
    (Program.clampThreads_clampThreads contraction.loops (sizes_of_makeKernels hkernels) _)

/-- Memory that was provided is provided again as it is. -/
theorem provided_provided (contraction : Contraction α) (bytes : Nat)
    (limits : Option ScratchLimits) (reservations : List (Nat × Nat)) :
    ((contraction.provided bytes).managed limits reservations).provided bytes =
      (contraction.managed limits reservations).provided bytes :=
  congrArg (fun pool => { contraction with
      scratch := ⟨pool, limits, reservations ++ [(bytes, contraction.threads.total)]⟩ })
    (contraction.scratch.pool_provide_provide bytes contraction.threads.total Scalar.zero)

/-- What a refused attempt leaves is compiled like what was there before, under any bounds. -/
theorem compile_compile {e : Error} (h : contraction.compile.2 = .error e)
    (limits : Option ScratchLimits) (reservations : List (Nat × Nat)) :
    (contraction.compile.1.managed limits reservations).compile =
      (contraction.managed limits reservations).compile := by
  have hcases := contraction.compilation
  generalize contraction.compile = result at hcases h ⊢
  cases hcases with
  | kept => cases h
  | noKernels => rfl
  | @noProgram kernels _ hnew hkernels hmade =>
      have hclamped := clamped_clamped hkernels
      have hfirst : (contraction.managed limits reservations).compile =
          (contraction.clamped.managed limits reservations, _) :=
        compile_eq_noProgram hnew hkernels hmade
      have hagain : (contraction.clamped.managed limits reservations).compile =
          (contraction.clamped.clamped.managed limits reservations, _) :=
        compile_eq_noProgram hnew hkernels (hclamped.symm ▸ hmade)
      rw [hagain, hfirst, hclamped]
  | @noMemory kernels program bytes _ hnew hkernels hmade hcheck =>
      have hclamped := clamped_clamped hkernels
      have hfirst : (contraction.managed limits reservations).compile =
          ((contraction.clamped.managed limits reservations).provided bytes).completed program
            bytes :=
        compile_eq_completed hnew hkernels hmade
      have hagain : ((contraction.clamped.provided bytes).managed limits reservations).compile =
          (((contraction.clamped.provided bytes).managed limits
            reservations).clamped.provided bytes).completed program bytes :=
        compile_eq_completed hnew hkernels
          (show contraction.clamped.clamped.makeProgram kernels = _ from hclamped.symm ▸ hmade)
      -- neither the threads nor the memory change a second time
      have hkept : ((contraction.clamped.provided bytes).managed limits reservations).clamped =
          (contraction.clamped.provided bytes).managed limits reservations :=
        congrArg (fun threads => { (contraction.clamped.provided bytes).managed limits
          reservations with threads := threads }) (congrArg Contraction.threads hclamped)
      rw [hagain, hfirst, hkept, provided_provided]
  | done => cases h

/-- A refused attempt leaves no program. -/
theorem program_of_refused {e : Error} (h : contraction.compile.2 = .error e) :
    contraction.compile.1.program = none := by
  have hcases := contraction.compilation
  generalize contraction.compile = result at hcases h ⊢
  cases hcases with
  | kept => cases h
  | noKernels hnew => exact hnew
  | noProgram hnew => exact hnew
  | noMemory hnew => exact hnew
  | done => cases h

/-- Without a program every launch is refused. -/
theorem contract_of_new (hnew : contraction.program = none) (buffers : Buffers α) :
    contraction.contract buffers = (contraction, .error .notCompiled) ∧
      ∀ base, contraction.contractRaw buffers base = (contraction, .error .notCompiled) := by
  constructor
  · rw [contract, checkBuffers, hnew]
    rfl
  · intro base
    rw [contractRaw, hnew]
    rfl

/-- A contraction that was only tried has no program, and is compiled like a new one under any
bounds. -/
theorem Tried.compile_managed (hnew : contraction.program = none) (h : contraction.Tried current) :
    current.program = none ∧ ∀ limits reservations,
      (current.managed limits reservations).compile =
        (contraction.managed limits reservations).compile := by
  induction h with
  | untouched => exact ⟨hnew, fun _ _ => rfl⟩
  | refused _ herror ih =>
      refine ⟨program_of_refused herror, fun limits reservations => ?_⟩
      rw [compile_compile herror, ih.2]
  | limited _ _ ih => exact ih
  | @launched current _ request hlaunch ih =>
      have hkept : current.serve request = current := by
        cases request with
        | compile => cases hlaunch
        | limitScratch limits => cases hlaunch
        | contract buffers => rw [serve, (contract_of_new ih.1 buffers).1]
        | contractRaw buffers base => rw [serve, (contract_of_new ih.1 buffers).2]
      rw [hkept]
      exact ih

/-- Under all bounds a contraction is refused for the same cause, or under all bounds the check of the
scratch memory decides. -/
theorem managed_cases (hnew : contraction.program = none) :
    (∃ e, ∀ limits reservations,
        (contraction.managed limits reservations).compile.2 = .error e) ∨
      ∃ program bytes, ∀ limits reservations, (contraction.managed limits reservations).compile =
        ((contraction.clamped.managed limits reservations).provided bytes).completed program
          bytes := by
  cases hkernels : contraction.makeKernels with
  | error e =>
      refine .inl ⟨e, fun limits reservations => ?_⟩
      have hrefused : (contraction.managed limits reservations).compile = (_, .error e) :=
        compile_eq_noKernels hnew hkernels
      rw [hrefused]
  | ok kernels =>
      cases hmade : contraction.clamped.makeProgram kernels with
      | error e =>
          refine .inl ⟨e, fun limits reservations => ?_⟩
          have hrefused : (contraction.managed limits reservations).compile = (_, .error e) :=
            compile_eq_noProgram hnew hkernels hmade
          rw [hrefused]
      | ok made =>
          exact .inr ⟨made.1, made.2, fun limits reservations =>
            compile_eq_completed hnew hkernels hmade⟩

/-- What was reserved before has no part in the outcome. -/
theorem snd_compile_managed (hnew : contraction.program = none) (limits : Option ScratchLimits)
    (reservations reservations' : List (Nat × Nat)) :
    (contraction.managed limits reservations').compile.2 =
      (contraction.managed limits reservations).compile.2 := by
  rcases managed_cases hnew with ⟨e, hrefused⟩ | ⟨program, bytes, hcompile⟩
  · rw [hrefused, hrefused]
  · rw [hcompile, hcompile, snd_completed, snd_completed]
    rfl

/-- Bounds on the scratch memory are to blame for nothing but a lack of memory. -/
theorem refused_managed (hnew : contraction.program = none) {e : Error} (hother : e.stage ≠ .memory)
    {limits : Option ScratchLimits} {reservations : List (Nat × Nat)}
    (h : (contraction.managed limits reservations).compile.2 = .error e)
    (limits' : Option ScratchLimits) (reservations' : List (Nat × Nat)) :
    (contraction.managed limits' reservations').compile.2 = .error e := by
  rcases managed_cases hnew with ⟨e', hrefused⟩ | ⟨program, bytes, hcompile⟩
  · rw [hrefused] at h ⊢
    exact h
  · rw [hcompile, snd_completed] at h
    obtain ⟨lengths, hlengths⟩ := ScratchManager.exists_handedOut_provide _ _ _ _
    obtain ⟨_, _, rfl⟩ := ScratchManager.check_eq_error hlengths h
    exact absurd rfl hother

/-! ## Launches under different bounds -/

section Launches

/-- A contraction that can be launched: a program is ready, and there is enough scratch memory for its
threads. -/
structure Launchable (contraction : Contraction α) (program : Program) : Prop where
  ready : contraction.IsReady program
  ample : contraction.Ample program

/-- A contraction can be launched right after compiling. -/
theorem Compiles.launchable {bytes : Nat} (h : contraction.Compiles program bytes) :
    contraction.compile.1.Launchable program := ⟨h.isReady, h.ample⟩

variable (limits : Option ScratchLimits) (reservations : List (Nat × Nat))

omit [Scalar α] in
/-- There is a slice for every thread. -/
theorem Launchable.exists_slices (h : contraction.Launchable program) :
    ∃ slices, contraction.scratch.slices = .ok slices ∧
      program.works.length ≤ slices.length := by
  obtain ⟨bytes, -, hcheck⟩ := h.ample.memory
  obtain ⟨lengths, hlengths, -⟩ := bind_eq_ok.1 hcheck
  rw [ScratchManager.check_eq_ok_iff hlengths h.ready.total_pos, ScratchManager.FallsShort, not_or,
    not_lt] at hcheck
  obtain ⟨slices, hslices, rfl⟩ := ScratchManager.handedOut_eq_ok hlengths
  rw [List.length_map] at hcheck
  exact ⟨slices, hslices, h.ready.threads ▸ hcheck.1⟩

omit [Scalar α] in
/-- What threads work with is the same on slices of the same memory. -/
theorem threadTasks_congr {slices slices' : List (ScratchSlice α)}
    (henough : program.works.length ≤ slices.length)
    (henough' : program.works.length ≤ slices'.length)
    (hcells : ∀ {thread : Nat} {slice slice' : ScratchSlice α}, slices[thread]? = some slice →
      slices'[thread]? = some slice' → slice'.cells = slice.cells) :
    contraction.threadTasks program slices' = contraction.threadTasks program slices := by
  -- tasks end with the works, so slices for further threads make no difference
  refine List.ext_getElem ?_ fun thread hlt' hlt => ?_
  · simp only [threadTasks, List.length_map, List.length_zip]
    omega
  · simp only [threadTasks, List.length_map, List.length_zip] at hlt hlt'
    have hslice := hcells (List.getElem?_eq_getElem (by omega : thread < slices.length))
      (List.getElem?_eq_getElem (by omega : thread < slices'.length))
    simp only [threadTasks, List.getElem_map, List.getElem_zip, hslice]

/-- Where there is scratch memory, a launch does not notice the bounds. -/
theorem Launchable.launch_managed (h : contraction.Launchable program)
    (h' : (contraction.managed limits reservations).Launchable program) (buffers : Buffers α)
    (base : Operands Int) :
    (contraction.managed limits reservations).launch program buffers base =
      (contraction.launch program buffers base).map fun result =>
        (result.1.managed limits reservations, result.2) := by
  obtain ⟨slices, hslices, henough⟩ := h.exists_slices
  obtain ⟨slices', hslices', henough'⟩ := h'.exists_slices
  have hpool : (contraction.managed limits reservations).scratch.pool = contraction.scratch.pool :=
    rfl
  have htasks : (contraction.managed limits reservations).threadTasks program slices' =
      contraction.threadTasks program slices :=
    threadTasks_congr henough henough' fun hslice hslice' =>
      ScratchManager.cells_eq_of_pool_eq hpool hslices hslices' hslice hslice'
  -- beyond the tasks a launch asks for nothing that bounds could change
  unfold launch
  rw [hslices, hslices']
  dsimp only [bind, Except.bind]
  rw [htasks]
  rfl

omit [Scalar α] in
theorem settle_managed (result : Except Error (Contraction α × Outcome α)) :
    (contraction.managed limits reservations).settle
        (result.map fun result => (result.1.managed limits reservations, result.2)) =
      ((contraction.settle result).1.managed limits reservations, (contraction.settle result).2) := by
  cases result with
  | error e => rfl
  | ok result => rfl

/-- Where there is scratch memory, launches do not notice the bounds. -/
theorem Launchable.contract_managed (h : contraction.Launchable program)
    (h' : (contraction.managed limits reservations).Launchable program) (buffers : Buffers α) :
    (contraction.managed limits reservations).contract buffers =
      ((contraction.contract buffers).1.managed limits reservations,
        (contraction.contract buffers).2) := by
  have hfit : (contraction.managed limits reservations).checkFit program buffers =
      contraction.checkFit program buffers := rfl
  rw [contract, contract, h.ample.checkBuffers_eq, h'.ample.checkBuffers_eq, hfit, ← settle_managed]
  cases contraction.checkFit program buffers with
  | error e => rfl
  | ok => exact congrArg _ (h.launch_managed limits reservations h' buffers 0)

theorem Launchable.contractRaw_eq (h : contraction.Launchable program) (buffers : Buffers α)
    (base : Operands Int) :
    contraction.contractRaw buffers base = contraction.settle (contraction.launch program buffers
      { base with outAux := if buffers.outAux.isSome then base.outAux else 0 }) := by
  obtain ⟨slices, hslices, henough⟩ := h.exists_slices
  rw [contractRaw, h.ample.compiled, hslices]
  exact congrArg _ (if_neg (not_lt.2 henough))

theorem Launchable.contractRaw_managed (h : contraction.Launchable program)
    (h' : (contraction.managed limits reservations).Launchable program) (buffers : Buffers α)
    (base : Operands Int) :
    (contraction.managed limits reservations).contractRaw buffers base =
      ((contraction.contractRaw buffers base).1.managed limits reservations,
        (contraction.contractRaw buffers base).2) := by
  rw [h.contractRaw_eq, h'.contractRaw_eq, ← settle_managed,
    h.launch_managed limits reservations h']

/-- What was launched can be launched again. -/
theorem Launchable.serve (h : contraction.Launchable program) {request : Request α}
    (hlaunch : request.isLaunch = true) : (contraction.serve request).Launchable program := by
  have hall : ∀ other, contraction.program = some other → contraction.IsReady other := by
    intro other hother
    obtain rfl := Option.some.inj (h.ample.compiled.symm.trans hother)
    exact h.ready
  have houtline := (serves_serve hall request).outline_eq hlaunch hall
  obtain ⟨-, htypes, -, hthreads, -, -, -, hscratch, hprogram, -⟩ := Contraction.mk.inj houtline
  have hcompiled : (contraction.serve request).program = some program :=
    hprogram.trans h.ample.compiled
  obtain ⟨bytes, hbytes, hcheck⟩ := h.ample.memory
  refine ⟨(serve_isReady hall request).1 program hcompiled, hcompiled, bytes, by rwa [htypes], ?_⟩
  -- what is handed out can be read off the outline
  rw [hthreads, ← ScratchManager.check_outline, hscratch, ScratchManager.check_outline]
  exact hcheck

variable {limits reservations}

/-- After any launches, launches have the same results under other bounds. -/
theorem Launchable.foldl_serve_managed (h : contraction.Launchable program)
    (h' : (contraction.managed limits reservations).Launchable program)
    {launches : List (Request α)} (hlaunches : ∀ request ∈ launches, request.isLaunch = true)
    (buffers : Buffers α) :
    ((launches.foldl Contraction.serve (contraction.managed limits reservations)).contract
        buffers).2 = ((launches.foldl Contraction.serve contraction).contract buffers).2 ∧
      ∀ base, ((launches.foldl Contraction.serve
        (contraction.managed limits reservations)).contractRaw buffers base).2 =
          ((launches.foldl Contraction.serve contraction).contractRaw buffers base).2 := by
  induction launches generalizing contraction with
  | nil =>
      constructor
      · rw [List.foldl_nil, List.foldl_nil, h.contract_managed limits reservations h']
      · intro base
        rw [List.foldl_nil, List.foldl_nil, h.contractRaw_managed limits reservations h']
  | cons request rest ih =>
      obtain ⟨hlaunch, hrest⟩ := List.forall_mem_cons.1 hlaunches
      have hserve : (contraction.managed limits reservations).serve request =
          (contraction.serve request).managed limits reservations := by
        cases request with
        | compile => cases hlaunch
        | limitScratch limits => cases hlaunch
        | contract buffers =>
            exact congrArg Prod.fst (h.contract_managed limits reservations h' buffers)
        | contractRaw buffers base =>
            exact congrArg Prod.fst (h.contractRaw_managed limits reservations h' buffers base)
      have hnext' := h'.serve hlaunch
      rw [hserve] at hnext'
      rw [List.foldl_cons, hserve]
      exact ih (h.serve hlaunch) hnext' hrest

end Launches

/-! ## Retries -/

/-- Two compiled contractions that nothing tells apart but the bounds on their scratch memory: they
have the same program, thread counts, thread states and memory, which was reserved alike, and their
launches have the same results, after any launches. -/
structure CompiledAlike (contraction retried : Contraction α) : Prop where
  program : ∃ program, contraction.program = some program ∧ retried.program = some program
  threads : retried.threads = contraction.threads
  states : retried.states = contraction.states
  pool : retried.scratch.pool = contraction.scratch.pool
  reserved : retried.scratch.reservations.getLast? = contraction.scratch.reservations.getLast?
  launches : ∀ launches : List (Request α), (∀ request ∈ launches, request.isLaunch = true) →
    ∀ buffers,
      ((launches.foldl serve retried).contract buffers).2 =
          ((launches.foldl serve contraction).contract buffers).2 ∧
        ∀ base, ((launches.foldl serve retried).contractRaw buffers base).2 =
          ((launches.foldl serve contraction).contractRaw buffers base).2

/-- A contraction is compiled to the same under all bounds that suffice. -/
theorem compiledAlike_managed (hnew : contraction.program = none)
    {limits limits' : Option ScratchLimits} {reservations reservations' : List (Nat × Nat)}
    (h : (contraction.managed limits reservations).compile.2 = .ok ())
    (h' : (contraction.managed limits' reservations').compile.2 = .ok ()) :
    (contraction.managed limits reservations).compile.1.CompiledAlike
      (contraction.managed limits' reservations').compile.1 := by
  obtain ⟨program, bytes, hcompiles⟩ := exists_compiles
    (show (contraction.managed limits reservations).program = none from hnew) h
  obtain ⟨program', bytes', hcompiles'⟩ := exists_compiles
    (show (contraction.managed limits' reservations').program = none from hnew) h'
  -- the program does not depend on the bounds, and neither does the memory that it needs
  have hkernels : program'.kernels = program.kernels :=
    Except.ok.inj (hcompiles'.kernels.symm.trans hcompiles.kernels)
  have hbuild := hcompiles'.build
  rw [hkernels] at hbuild
  obtain rfl := Except.ok.inj (hcompiles.build.symm.trans hbuild)
  obtain rfl := Except.ok.inj (hcompiles.scratch.symm.trans hcompiles'.scratch)
  have hsame : (contraction.managed limits' reservations').compile.1 =
      (contraction.managed limits reservations).compile.1.managed limits'
        (contraction.managed limits' reservations').compile.1.scratch.reservations := by
    rw [hcompiles.compiled, hcompiles'.compiled]
    rfl
  have hreserved : (contraction.managed limits' reservations').compile.1.scratch.reservations.getLast? =
      (contraction.managed limits reservations).compile.1.scratch.reservations.getLast? := by
    rw [hcompiles.compiled, hcompiles'.compiled]
    exact List.getLast?_concat.trans List.getLast?_concat.symm
  have hlaunchable := hcompiles'.launchable
  rw [hsame] at hlaunchable hreserved ⊢
  exact ⟨⟨program, hcompiles.ample.compiled, hcompiles.ample.compiled⟩, rfl, rfl, rfl, hreserved,
    fun launches hlaunches buffers =>
      hcompiles.launchable.foldl_serve_managed hlaunchable hlaunches buffers⟩

/-- A contraction that could not be compiled can be compiled again. After any attempts that were
refused, with any bounds on the scratch memory in between, it still has no program and refuses every
launch. Each further attempt has the outcome that it has for the contraction as it was, under the same
bounds: what is refused for another reason than a lack of memory is refused for this reason under all
bounds, and what is compiled is the same under all bounds. -/
theorem compile_retried (hnew : contraction.program = none) (h : contraction.Tried current) :
    current.isCompiled = false ∧
    (∀ buffers, current.contract buffers = (current, .error .notCompiled) ∧
      ∀ base, current.contractRaw buffers base = (current, .error .notCompiled)) ∧
    (∀ limits, (current.withLimits limits).compile.2 = (contraction.withLimits limits).compile.2) ∧
    (∀ e, e.stage ≠ .memory → ∀ limits, (contraction.withLimits limits).compile.2 = .error e →
      ∀ limits', (current.withLimits limits').compile.2 = .error e) ∧
    ∀ limits limits', (contraction.withLimits limits).compile.2 = .ok () →
      (current.withLimits limits').compile.2 = .ok () →
        (contraction.withLimits limits).compile.1.CompiledAlike
          (current.withLimits limits').compile.1 := by
  obtain ⟨hnone, hcompile⟩ := h.compile_managed hnew
  refine ⟨by rw [isCompiled, hnone]; rfl, contract_of_new hnone, ?_, ?_, ?_⟩
  · intro limits
    rw [withLimits, hcompile]
    exact snd_compile_managed hnew limits _ _
  · intro e hother limits hrefused limits'
    rw [withLimits, hcompile]
    exact refused_managed hnew hother hrefused limits' _
  · intro limits limits' hok hok'
    have hsame : (current.withLimits limits').compile =
        (contraction.managed limits' current.scratch.reservations).compile := hcompile _ _
    rw [hsame] at hok' ⊢
    exact compiledAlike_managed hnew hok hok'

/-- The packed product for four threads is refused with three slices of scratch memory, and again with
slices that are a byte too short. With four slices that are large enough the third attempt makes of it
what it is made of when four slices are there from the start. -/
theorem compile_retried_crampedProduct :
    crampedProduct.compile.2 = .error (.threadMemory 4 3 32 32) ∧
    (crampedProduct.compile.1.withLimits (some ⟨4, 31⟩)).compile.2 =
      .error (.threadMemory 4 4 32 31) ∧
    (crampedProduct.compile.1.withLimits (some ⟨4, 31⟩)).compile.1.isCompiled = false ∧
    (crampedProduct.withLimits (some ⟨4, 32⟩)).compile.1.CompiledAlike
      ((crampedProduct.compile.1.withLimits (some ⟨4, 31⟩)).compile.1.withLimits
        (some ⟨4, 40⟩)).compile.1 := by
  have hfirst : crampedProduct.compile.2 = .error (.threadMemory 4 3 32 32) := by decide +kernel
  have hsecond : (crampedProduct.compile.1.withLimits (some ⟨4, 31⟩)).compile.2 =
      .error (.threadMemory 4 4 32 31) := by decide +kernel
  have htried : crampedProduct.Tried
      (crampedProduct.compile.1.withLimits (some ⟨4, 31⟩)).compile.1 :=
    .refused (.limited (.refused .untouched hfirst) (some ⟨4, 31⟩)) hsecond
  obtain ⟨hnone, -, -, -, halike⟩ := compile_retried rfl htried
  exact ⟨hfirst, hsecond, hnone,
    halike (some ⟨4, 32⟩) (some ⟨4, 40⟩) (by decide +kernel) (by decide +kernel)⟩

end Contraction

end LoopNest
