import LoopNest.Proofs.Launch.Coverage
import LoopNest.Proofs.Launch.PackedReads

/-!
# Launches have no memory

Between two launches a contraction keeps the states of its threads and their scratch memory. Its
outline is what it is apart from what the states remember and the memory holds. A launch keeps the
outline (`Contraction.outline_foldl_serve`), and its result depends on the outline only
(`Contraction.contract_congr`): a thread resets its state first, and it reads of its scratch memory
only what it has filled in the same launch.

So a launch after any number of others, accepted or refused, gives what it would give right after
compiling (`Contraction.contract_foldl_launches`).
-/

namespace LoopNest

variable {α : Type}

/-- A request for a launch. -/
def Request.isLaunch : Request α → Bool
  | .contract _ | .contractRaw .. => true
  | .compile | .limitScratch _ => false

/-- What a thread works with, apart from what it remembers and what its scratch memory holds. -/
def ThreadTask.outline (task : ThreadTask α) : ThreadTask Unit :=
  ⟨task.work, task.state.reset, task.scratch.map fun _ => ()⟩

/-! ## Threads -/

namespace Program

variable [Scalar α] {program : Program}

theorem size_pack (inputs : Inputs α) (side : Side) (source target : Int) (scratch : Buffer α) :
    (program.pack inputs side source target scratch).size = scratch.size := by
  cases hregion : program.region side with
  | none => rw [pack, hregion]
  | some region => rw [pack_eq_fill hregion, StridedCopy.size_fill]

/-- Calls leave scratch memory of the same size. -/
theorem size_runCalls (inputs : Inputs α) (calls : List Call) (out scratch : Buffer α) :
    (program.runCalls inputs calls out scratch).2.size = scratch.size := by
  induction calls generalizing out scratch with
  | nil => rfl
  | cons call rest ih =>
      cases call with
      | pack => exact (ih _ _).trans (size_pack ..)
      | touch => exact ih _ _
      | main => exact ih _ _

/-- The main kernel reads an input where the kernel loops at the end of the list lead. -/
def ReadsKernelEnd (program : Program) : Prop :=
  ∀ side, ∀ a ∈ program.kernels.main.reads side, a ∈
    offsets (fun loop => loop.stride side) (KernelShape.kernelEnd program.layout.loops)

variable (hbuilt : program.IsBuilt) (hreads : program.ReadsKernelEnd)

include hbuilt hreads

/-- A thread does the same and looks the same for all tasks with one outline. -/
theorem runThread_congr (inputs : Inputs α) (recording : Bool) (base : Operands Int)
    {task task' : ThreadTask α} (h : task'.outline = task.outline) (out : Buffer α) :
    (program.runThread inputs recording base task' out).2 =
        (program.runThread inputs recording base task out).2 ∧
      (program.runThread inputs recording base task' out).1.observations =
        (program.runThread inputs recording base task out).1.observations := by
  obtain ⟨work, state, scratch⟩ := task
  obtain ⟨work', state', scratch'⟩ := task'
  obtain ⟨hwork, hstate, hscratch⟩ := ThreadTask.mk.inj h
  obtain rfl : work' = work := hwork
  have hsize : scratch'.size = scratch.size := by
    simpa using congrArg Array.size hscratch
  have hcalls : (program.threadCalls work' base).run state' =
      (program.threadCalls work' base).run state := program.threadCalls_congr work' base hstate
  -- the calls fill all that they read, so that the scratch memories need not agree anywhere
  have hcovered : program.Covered ∅ ((program.threadCalls work' base).run state).1 :=
    covered_threadCalls hbuilt hreads base state
  have hsame : SameOn ∅ scratch scratch' := ⟨hsize, fun a ha => absurd ha (Set.notMem_empty a)⟩
  obtain ⟨hout, hlook⟩ := runCalls_congr_scratch hcovered hsame out
  constructor
  · show (program.runCalls inputs ((program.threadCalls work' base).run state').1 out scratch').1 = _
    rw [hcalls]
    exact hout
  · show (if recording then program.observe inputs
      ((program.threadCalls work' base).run state').1 scratch' else []) = _
    rw [hcalls, hlook]
    rfl

theorem runThreads_congr (inputs : Inputs α) (recording : Bool) (base : Operands Int)
    {tasks tasks' : List (ThreadTask α)}
    (h : tasks'.map ThreadTask.outline = tasks.map ThreadTask.outline) (out : Buffer α) :
    (program.runThreads inputs recording base tasks' out).2 =
        (program.runThreads inputs recording base tasks out).2 ∧
      (program.runThreads inputs recording base tasks' out).1.flatMap ThreadOutcome.observations =
        (program.runThreads inputs recording base tasks out).1.flatMap
          ThreadOutcome.observations := by
  -- each thread takes over the output of the one before it
  induction tasks generalizing tasks' out with
  | nil =>
      obtain rfl := List.map_eq_nil_iff.1 h
      exact ⟨rfl, rfl⟩
  | cons task rest ih =>
      obtain ⟨task', rest', rfl, htask, hrest⟩ := List.map_eq_cons_iff.1 h
      obtain ⟨hout, hlook⟩ := runThread_congr hbuilt hreads inputs recording base htask out
      obtain ⟨houts, hlooks⟩ :=
        ih hrest (program.runThread inputs recording base task out).2
      constructor
      · show (program.runThreads inputs recording base rest'
          (program.runThread inputs recording base task' out).2).2 = _
        rw [hout]
        exact houts
      · show (program.runThread inputs recording base task' out).1.observations ++
          (program.runThreads inputs recording base rest'
            (program.runThread inputs recording base task' out).2).1.flatMap
              ThreadOutcome.observations = _
        rw [hlook, hout, hlooks]
        rfl

omit hbuilt hreads in
/-- The sizes of the scratch memory that threads leave. -/
theorem map_size_runThreads (inputs : Inputs α) (recording : Bool) (base : Operands Int)
    (tasks : List (ThreadTask α)) (out : Buffer α) :
    (program.runThreads inputs recording base tasks out).1.map (fun outcome => outcome.scratch.size) =
      tasks.map fun task => task.scratch.size := by
  induction tasks generalizing out with
  | nil => rfl
  | cons task rest ih =>
      rw [List.map_cons, ← ih, ← size_runCalls inputs
        ((program.threadCalls task.work base).run task.state).1 out task.scratch]
      rfl

end Program

/-! ## Contractions -/

namespace Contraction

/-- A contraction apart from what its threads remember and what its scratch memory holds. -/
def outline (contraction : Contraction α) : Contraction Unit :=
  { contraction with
    states := contraction.states.map ThreadState.reset
    scratch := contraction.scratch.outline }

variable {contraction contraction' : Contraction α} {program : Program}

theorem outline_threadTasks (program : Program) (slices : List (ScratchSlice α)) :
    (contraction.threadTasks program slices).map ThreadTask.outline =
      contraction.outline.threadTasks program (slices.map ScratchSlice.outline) := by
  rw [threadTasks, threadTasks, show contraction.outline.states = contraction.states.map
    ThreadState.reset from rfl, ← List.map_id program.works, List.zip_map, List.zip_map,
    List.map_map, List.map_map, List.map_id]
  rfl

/-- Whether buffers are accepted does not depend on what was left behind. -/
theorem checkBuffers_congr (h : contraction'.outline = contraction.outline) (buffers : Buffers α) :
    contraction'.checkBuffers buffers = contraction.checkBuffers buffers := by
  obtain ⟨-, htypes, htags, hthreads, -, -, -, hscratch, hprogram, -⟩ := Contraction.mk.inj h
  have hcheck : ∀ threads required,
      contraction'.scratch.check threads required = contraction.scratch.check threads required :=
    fun threads required => by
      rw [← ScratchManager.check_outline contraction'.scratch,
        ← ScratchManager.check_outline contraction.scratch, hscratch]
  unfold checkBuffers checkAux
  rw [hprogram, htypes, htags, hthreads]
  simp only [hcheck]

/-- The slices handed out are the same apart from their contents. -/
theorem slices_outline_congr (h : contraction'.outline = contraction.outline) :
    contraction'.scratch.slices.map (List.map ScratchSlice.outline) =
      contraction.scratch.slices.map (List.map ScratchSlice.outline) := by
  obtain ⟨-, -, -, -, -, -, -, hscratch, -, -⟩ := Contraction.mk.inj h
  rw [← ScratchManager.slices_outline, ← ScratchManager.slices_outline]
  exact congrArg ScratchManager.slices hscratch

variable [Scalar α]

/-- The result of a launch does not depend on what was left behind. -/
theorem launch_congr (h : contraction'.outline = contraction.outline) (hbuilt : program.IsBuilt)
    (hreads : program.ReadsKernelEnd) (buffers : Buffers α) (base : Operands Int) :
    (contraction'.launch program buffers base).map Prod.snd =
      (contraction.launch program buffers base).map Prod.snd := by
  obtain ⟨-, -, -, hthreads, -, hprovider, -, hscratch, -, -⟩ := Contraction.mk.inj h
  have hslices := slices_outline_congr h
  -- the result of a launch, as a function of the slices
  have hresult : ∀ c : Contraction α, (c.launch program buffers base).map Prod.snd =
      c.scratch.slices.map fun slices =>
        let run := program.runThreads ⟨buffers.left, buffers.right, buffers.outAux⟩
          (decide (c.provider = .recording)) base (c.threadTasks program slices) buffers.out
        ⟨run.2, c.arrange (run.1.flatMap ThreadOutcome.observations)⟩ := by
    intro c
    unfold launch
    cases c.scratch.slices <;> rfl
  have harrange : ∀ observations : List (Observation α),
      contraction'.arrange observations = contraction.arrange observations := fun _ => by
    rw [arrange, arrange, hthreads]
  rw [hresult, hresult]
  refine map_eq_map_of_map_eq hslices fun slices slices' hsame => ?_
  have htasks : (contraction'.threadTasks program slices').map ThreadTask.outline =
      (contraction.threadTasks program slices).map ThreadTask.outline := by
    rw [outline_threadTasks, outline_threadTasks, h, hsame]
  obtain ⟨hout, hlook⟩ := Program.runThreads_congr hbuilt hreads
    ⟨buffers.left, buffers.right, buffers.outAux⟩ (decide (contraction.provider = .recording)) base
    htasks buffers.out
  dsimp only
  rw [hprovider, hout, hlook, harrange]

omit [Scalar α] in
theorem snd_settle (result : Except Error (Contraction α × Outcome α)) :
    (contraction.settle result).2 = result.map Prod.snd := by
  cases result <;> rfl

omit [Scalar α] in
/-- The main kernel of a contraction that is ready was made for its loops. -/
theorem IsReady.readsKernelEnd (hready : contraction.IsReady program) :
    program.ReadsKernelEnd := by
  intro side a ha
  have hmake := make_of_makeKernels hready.kernels
  rw [← hready.loops] at hmake
  obtain ⟨x, hx, rfl⟩ := KernelTags.exists_offset_of_mem_reads hready.built.sizes hmake ha
  rw [← map_snd_offsets]
  exact List.mem_map_of_mem hx

/-- The results of launches do not depend on what was left behind. -/
theorem contract_congr (hready : ∀ program, contraction.program = some program →
    contraction.IsReady program) (h : contraction'.outline = contraction.outline)
    (buffers : Buffers α) :
    (contraction'.contract buffers).2 = (contraction.contract buffers).2 ∧
      ∀ base, (contraction'.contractRaw buffers base).2 =
        (contraction.contractRaw buffers base).2 := by
  obtain ⟨-, -, -, -, -, -, -, -, hprogram, -⟩ := Contraction.mk.inj h
  have hlaunch : ∀ program base, contraction.program = some program →
      (contraction'.launch program buffers base).map Prod.snd =
        (contraction.launch program buffers base).map Prod.snd := fun program base hprogram =>
    launch_congr h (hready program hprogram).built (hready program hprogram).readsKernelEnd buffers
      base
  constructor
  · rw [contract, contract, snd_settle, snd_settle, checkBuffers_congr h]
    cases hchecked : contraction.checkBuffers buffers with
    | error e => rfl
    | ok program => exact hlaunch program 0 (checkBuffers_eq_ok hchecked).compiled
  · intro base
    rw [contractRaw, contractRaw, snd_settle, snd_settle,
      show contraction'.program = contraction.program from hprogram]
    cases hcompiled : contraction.program with
    | none => rfl
    | some program =>
        -- how many slices there are can be read off the outline
        have hcount : contraction'.scratch.slices.map List.length =
            contraction.scratch.slices.map List.length :=
          map_eq_map_of_map_eq (slices_outline_congr h) fun slices slices' hsame => by
            simpa using congrArg List.length hsame
        refine map_bind_eq_of_map_eq hcount fun slices slices' hsame => ?_
        dsimp only
        rw [hsame]
        split
        · rfl
        · exact hlaunch program _ hcompiled

omit [Scalar α] in
/-- A task has the slice of its thread for scratch memory. -/
theorem exists_slice_of_threadTasks {slices : List (ScratchSlice α)} {thread : Nat}
    {task : ThreadTask α} (h : (contraction.threadTasks program slices)[thread]? = some task) :
    ∃ slice, slices[thread]? = some slice ∧ task.scratch = slice.cells := by
  rw [threadTasks, List.getElem?_map, Option.map_eq_some_iff] at h
  obtain ⟨⟨p, slice⟩, hp, rfl⟩ := h
  exact ⟨slice, (List.getElem?_zip_eq_some.1 hp).2, rfl⟩

/-- The threads of a launch leave states with the numbers of cells and slots that they had. -/
theorem map_reset_runThreads (hready : contraction.IsReady program)
    {slices : List (ScratchSlice α)} (henough : program.works.length ≤ slices.length)
    (inputs : Inputs α) (recording : Bool) (base : Operands Int) (out : Buffer α) :
    ((program.runThreads inputs recording base (contraction.threadTasks program slices)
        out).1.map ThreadOutcome.state).map ThreadState.reset =
      contraction.states.map ThreadState.reset := by
  have hlength := hready.states.length_eq
  rw [Program.map_state_runThreads, List.map_map, ← List.map_snd_zip hlength.ge, List.map_map]
  refine (map_threadTasks hlength.symm henough fun work state =>
    ((program.threadCalls work base).run state).2.reset).trans ?_
  exact List.map_congr_left fun p _ => program.reset_threadCalls p.1 base p.2

/-- The scratch memory that the threads of a launch leave fits into the slices they were given. -/
theorem outline_write_runThreads (program : Program) {slices : List (ScratchSlice α)}
    (hslices : contraction.scratch.slices = .ok slices) (inputs : Inputs α)
    (recording : Bool) (base : Operands Int) (out : Buffer α) :
    ((program.runThreads inputs recording base (contraction.threadTasks program slices)
        out).1.zipIdx.foldl (fun pool p => ScratchPool.write pool p.2 p.1.scratch)
          contraction.scratch.pool).outline = contraction.scratch.pool.outline := by
  obtain ⟨whole, hwhole, hstarts⟩ := ScratchManager.slices_eq_ok hslices
  have hoffered : contraction.scratch.pool.outline.slices =
      .ok (whole.map ScratchSlice.outline) := by
    rw [ScratchPool.slices_outline, hwhole]
    rfl
  refine ScratchPool.outline_foldl_write hoffered fun p hp => ?_
  -- the thread leaves as much scratch memory as it was given
  have hsizes := congrArg (fun sizes : List Nat => sizes[p.2]?)
    (program.map_size_runThreads inputs recording base (contraction.threadTasks program slices) out)
  simp only [List.getElem?_map, List.mem_zipIdx_iff_getElem?.1 hp, Option.map_some] at hsizes
  obtain ⟨task, htask, hsize⟩ := Option.map_eq_some_iff.1 hsizes.symm
  obtain ⟨slice, hslice, hscratch⟩ := exists_slice_of_threadTasks htask
  obtain ⟨origin, horigin, hstart⟩ := hstarts hslice
  refine ⟨origin.outline, by rw [List.getElem?_map, horigin]; rfl, ?_⟩
  rw [← hsize, hscratch, hstart.cells, ScratchSlice.outline, Array.size_map]

/-- A launch leaves only other contents behind. -/
theorem Launches.outline_next (hready : contraction.IsReady program) {buffers : Buffers α}
    {base : Operands Int} {slices : List (ScratchSlice α)} {next : Contraction α}
    {outcome : Outcome α} (h : contraction.Launches program buffers base slices next outcome) :
    next.outline = contraction.outline := by
  obtain ⟨rfl, -⟩ := h.eq_leaves
  have hstates := map_reset_runThreads hready h.enough
    ⟨buffers.left, buffers.right, buffers.outAux⟩ (decide (contraction.provider = .recording)) base
    buffers.out
  have hpool := outline_write_runThreads program h.handed
    ⟨buffers.left, buffers.right, buffers.outAux⟩ (decide (contraction.provider = .recording)) base
    buffers.out
  exact congrArg₂ (fun states pool => ({ contraction with
    states := states
    scratch := ⟨pool, contraction.scratch.limits, contraction.scratch.reservations⟩ } :
      Contraction Unit)) hstates hpool

/-- A launch that is refused changes nothing at all, one that is accepted only contents. -/
theorem Serves.outline_eq {request : Request α} {next : Contraction α}
    (h : contraction.Serves request next) (hlaunch : request.isLaunch = true)
    (hready : ∀ program, contraction.program = some program → contraction.IsReady program) :
    next.outline = contraction.outline := by
  cases h with
  | compile => cases hlaunch
  | limitScratch limits => cases hlaunch
  | refused => rfl
  | launched haccepted => exact haccepted.outline_next (hready _ haccepted.compiled)

/-- After any launches, accepted or refused, a contraction differs only in contents. -/
theorem outline_foldl_serve (hready : ∀ program, contraction.program = some program →
    contraction.IsReady program) {requests : List (Request α)}
    (hlaunches : ∀ request ∈ requests, request.isLaunch = true) :
    (requests.foldl serve contraction).outline = contraction.outline := by
  induction requests generalizing contraction with
  | nil => rfl
  | cons request rest ih =>
      obtain ⟨hlaunch, hrest⟩ := List.forall_mem_cons.1 hlaunches
      have hserve := serves_serve hready request
      exact (ih (hserve.isReady hready).1 hrest).trans (hserve.outline_eq hlaunch hready)

/-- After any launches on any buffers, accepted or refused, a launch has the result that it would
have had right after compiling: the same output, the same kernel calls, or the same error. -/
theorem contract_foldl_launches (hnew : contraction.program = none) {requests : List (Request α)}
    (hlaunches : ∀ request ∈ requests, request.isLaunch = true) (buffers : Buffers α) :
    ((requests.foldl serve contraction.compile.1).contract buffers).2 =
        (contraction.compile.1.contract buffers).2 ∧
      ∀ base, ((requests.foldl serve contraction.compile.1).contractRaw buffers base).2 =
        (contraction.compile.1.contractRaw buffers base).2 := by
  have hready : ∀ program, contraction.compile.1.program = some program →
      contraction.compile.1.IsReady program :=
    (serve_isReady (fun program hprogram => absurd (hnew.symm.trans hprogram) (by simp))
      .compile).1
  exact contract_congr hready (outline_foldl_serve hready hlaunches) buffers

/-- The packed product on other buffers than before, after a launch and a refused launch. -/
theorem contract_foldl_launches_packedProduct :
    (packedProduct.compile.1.contract (packedBuffers 7)).2.isOk = true ∧
      (([.contract (packedBuffers 3), .contract { packedBuffers 5 with left := #[] }].foldl serve
        packedProduct.compile.1).contract (packedBuffers 7)).2 =
          (packedProduct.compile.1.contract (packedBuffers 7)).2 := by
  refine ⟨by decide +kernel, (contract_foldl_launches rfl ?_ (packedBuffers 7)).1⟩
  intro request hrequest
  simp only [List.mem_cons, List.not_mem_nil, or_false] at hrequest
  rcases hrequest with rfl | rfl <;> rfl

end Contraction

end LoopNest
