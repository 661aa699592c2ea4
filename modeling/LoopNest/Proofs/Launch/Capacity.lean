import LoopNest.Proofs.Launch.ThreadCounts
import LoopNest.Proofs.Stages

/-!
# How many threads are launched

Compiling brings the numbers of threads into their bounds before it shares out the tasks, so that no
thread is left without a share (`Contraction.compile_refusedIn`). No request adds threads: after any
series of requests a launch runs at most the threads that the contraction was given
(`Contraction.length_threadTasks_foldl_serve`).
-/

namespace LoopNest

variable {α : Type}

/-- No more threads in any direction. -/
structure ThreadGrid.AtMost (grid bound : ThreadGrid) : Prop where
  omp : grid.omp ≤ bound.omp
  m : grid.m ≤ bound.m
  n : grid.n ≤ bound.n

namespace ThreadGrid

variable {grid bound : ThreadGrid}

theorem AtMost.refl (grid : ThreadGrid) : grid.AtMost grid :=
  ⟨Nat.le_refl _, Nat.le_refl _, Nat.le_refl _⟩

theorem AtMost.total_le (h : grid.AtMost bound) : grid.total ≤ bound.total :=
  Nat.mul_le_mul (Nat.mul_le_mul h.omp h.m) h.n

theorem AtMost.atLeastOne (h : grid.AtMost bound) (hbound : bound.atLeastOne = bound) :
    grid.atLeastOne.AtMost bound := by
  obtain ⟨homp, hm, hn⟩ := h
  rw [← hbound]
  exact ⟨max_le_max_right 1 homp, max_le_max_right 1 hm, max_le_max_right 1 hn⟩

theorem atMost_clampThreads (h : grid.AtMost bound) (hbound : bound.atLeastOne = bound)
    (loops : List Loop) : (Program.clampThreads loops grid).AtMost bound := by
  obtain ⟨homp, hm, hn⟩ := h.atLeastOne hbound
  exact ⟨(Nat.min_le_left _ _).trans homp, (Nat.min_le_left _ _).trans hm,
    (Nat.min_le_left _ _).trans hn⟩

end ThreadGrid

namespace Contraction

/-! ## Shares -/

/-- For the threads that a contraction is compiled for, only regions, layout and workers are to
blame. -/
theorem makeProgram_clamped_refusedIn (contraction : Contraction α)
    (hsizes : ∀ loop ∈ contraction.loops, 1 ≤ loop.size) (kernels : KernelSet) :
    RefusedIn [.regions, .layout, .workers, .domain]
      (contraction.clamped.makeProgram kernels) := by
  apply makeProgram_refusedIn
  · apply Program.build_refusedIn
    · intro side
      exact (PackedRegion.ofLoops_refusedIn side _).mono (by decide)
    · decide
    · intro layout hlayout
      apply RefusedIn.of_exists
      -- the numbers of threads are in their bounds, so every thread has work
      obtain ⟨hsound, hloops, hthreads⟩ := Layout.ofLoops_sound hlayout
      rw [show contraction.clamped.loops = contraction.loops from rfl] at hloops
      have hclamped : layout.threads = Program.clampThreads layout.loops contraction.threads := by
        rw [hthreads, hloops]
        exact atLeastOne_clampThreads hsizes contraction.threads
      obtain ⟨works, hworks⟩ := Program.exists_works_clampThreads hsound (hloops ▸ hsizes) hclamped
        (strideTable contraction.loops)
      rw [Layout.setup_eq]
      exact ⟨_, bind_eq_ok.2 ⟨works, hworks, rfl⟩⟩
  · decide

/-- A contraction is never refused because a thread has no share. -/
theorem compile_refusedIn [Scalar α] (contraction : Contraction α) :
    RefusedIn [.kernels, .shape, .regions, .layout, .workers, .memory, .domain]
      contraction.compile.2 := by
  intro e h
  rcases compile_eq_error h with hkernels | ⟨kernels, hkernels, hprogram | hmemory⟩
  · have hstages : RefusedIn [.shape, .kernels] contraction.makeKernels :=
      contraction.makeKernels_refusedIn (KernelShape.ofLoops_refusedIn _ _) (by decide)
    exact hstages.mono (by decide) e hkernels
  · have hstages := makeProgram_clamped_refusedIn contraction (sizes_of_makeKernels hkernels) kernels
    exact hstages.mono (by decide) e hprogram
  · obtain ⟨program, bytes, -, hcheck⟩ := hmemory
    exact (ScratchManager.check_refusedIn _ _ _).mono (by decide) e hcheck

/-! ## Threads after any requests -/

variable [Scalar α] {contraction : Contraction α} {bound : ThreadGrid}

theorem threads_compile (contraction : Contraction α) :
    contraction.compile.1.threads = contraction.threads ∨
      contraction.compile.1.threads =
        Program.clampThreads contraction.loops contraction.threads := by
  have hcases := contraction.compilation
  generalize contraction.compile = result at hcases ⊢
  cases hcases with
  | kept => exact .inl rfl
  | noKernels => exact .inl rfl
  | noProgram => exact .inr rfl
  | noMemory => exact .inr rfl
  | done => exact .inr rfl

theorem Launches.threads_eq {buffers : Buffers α} {base : Operands Int}
    {slices : List (ScratchSlice α)} {next : Contraction α} {outcome : Outcome α}
    {program : Program} (h : contraction.Launches program buffers base slices next outcome) :
    next.threads = contraction.threads := by
  obtain ⟨rfl, -⟩ := h.eq_leaves
  rfl

/-- No request adds threads. -/
theorem Serves.threads_atMost {request : Request α} {next : Contraction α}
    (hserves : contraction.Serves request next) (h : contraction.threads.AtMost bound)
    (hbound : bound.atLeastOne = bound) : next.threads.AtMost bound := by
  cases hserves with
  | compile =>
      rcases threads_compile contraction with heq | heq
      · rw [heq]
        exact h
      · rw [heq]
        exact ThreadGrid.atMost_clampThreads h hbound _
  | limitScratch limits => exact h
  | refused => exact h
  | launched hlaunch =>
      rw [hlaunch.threads_eq]
      exact h

/-- A launch runs at most as many threads as the contraction was given, after any requests. -/
theorem length_threadTasks_foldl_serve (hnew : contraction.program = none)
    (hpositive : contraction.threads.atLeastOne = contraction.threads)
    (requests : List (Request α)) {program : Program}
    (hprogram : (requests.foldl serve contraction).program = some program)
    (slices : List (ScratchSlice α)) :
    ((requests.foldl serve contraction).threadTasks program slices).length ≤
      contraction.threads.total := by
  have hready := isReady_of_new hnew
  have hworks := ((isReady_foldl_serve hready requests).1 program hprogram).threads
  have hbounded := foldl_serve_induction
    (motive := fun current => current.threads.AtMost contraction.threads)
    (fun _ hserves h => hserves.threads_atMost h hpositive) hready (.refl _) requests
  have htotal := hbounded.total_le
  rw [threadTasks, List.length_map, List.length_zip, List.length_zip]
  omega

end Contraction

end LoopNest
