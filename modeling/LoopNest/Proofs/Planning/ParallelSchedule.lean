import LoopNest.Proofs.Launch.Capacity
import LoopNest.Proofs.Parallel.Arrangement
import LoopNest.Proofs.Planning.IterationSpace
import LoopNest.Proofs.Planning.Product
import LoopNest.Proofs.Planning.Sharing
import LoopNest.Proofs.Planning.ThreadSplit

/-!
# Plans have a parallel schedule

A nest planned from sequential loops consists of runs (`PlannedRuns`), and its threads are shared out
among the tasks of these runs (`plan_runs_bounds`). The runs are arranged as a layout asks for, so the
nest has a layout unless its parallel loops stand too far in (`PlannedRuns.arranged`). Compiling such
a nest never leaves a thread without a share, and no launch runs more threads than were configured
(`plan_schedule`).
-/

namespace LoopNest

/-! ## The runs are arranged -/

/-- The loops with a property are a run if those of the run are all. -/
theorem loopAt_iff_of_run {p : Loop → Bool} {loops before run after : List Loop}
    (happend : loops = before ++ (run ++ after)) (hbefore : ∀ loop ∈ before, p loop = false)
    (hrun : ∀ loop ∈ run, p loop = true) (hafter : ∀ loop ∈ after, p loop = false) (i : Nat) :
    LoopAt p loops i ↔ before.length ≤ i ∧ i < before.length + run.length := by
  have hmarks : Span.Marks ⟨before.length, before.length + run.length⟩ p loops := by
    subst happend
    refine ⟨⟨Nat.le_add_right _ _, by simp, ?_, ?_⟩, ?_⟩
    · rw [List.take_left' rfl]
      exact hbefore
    · rw [← List.append_assoc, List.drop_left' (List.length_append ..)]
      exact hafter
    · rw [Span.slice, Span.length, List.drop_left' rfl, List.take_left' (by dsimp only; omega)]
      exact hrun
  exact hmarks.loopAt_iff i

theorem filter_eq_of_run {p : Loop → Bool} {loops : List Loop} (before run after : List Loop)
    (happend : loops = before ++ (run ++ after)) (hbefore : ∀ loop ∈ before, p loop = false)
    (hrun : ∀ loop ∈ run, p loop = true) (hafter : ∀ loop ∈ after, p loop = false) :
    loops.filter p = run := by
  have hnone : ∀ {xs : List Loop}, (∀ loop ∈ xs, p loop = false) → xs.filter p = [] := fun hxs =>
    List.filter_eq_nil_iff.2 fun loop hloop => by simp [hxs loop hloop]
  rw [happend, List.filter_append, List.filter_append, hnone hbefore, hnone hafter,
    List.filter_eq_self.2 hrun, List.nil_append, List.append_nil]

theorem consecutive_of_run {p : Loop → Bool} {loops : List Loop} {start stop : Nat}
    (h : ∀ i, LoopAt p loops i ↔ start ≤ i ∧ i < stop) : Consecutive p loops := by
  intro i j k hij hjk hi hk
  rw [h] at hi hk ⊢
  omega

namespace PlannedRuns

variable {loops before omp n m packed kernel : List Loop}

/-- What is known of the modes of all runs. -/
theorem forall_mode (h : PlannedRuns loops before omp n m packed kernel) :
    (∀ loop ∈ before, loop.isOmp = false ∧ loop.isSfc = false) ∧
      (∀ loop ∈ omp, loop.isOmp = true ∧ loop.isSfc = false) ∧
      (∀ loop ∈ n ++ m, loop.isOmp = false ∧ loop.isSfc = true) ∧
      ∀ loop ∈ packed ++ kernel, loop.isOmp = false ∧ loop.isSfc = false := by
  simp only [List.forall_mem_append, Loop.isOmp, Loop.isSfc]
  refine ⟨fun loop hloop => ?_, fun loop hloop => ?_, ⟨fun loop hloop => ?_, fun loop hloop => ?_⟩,
    fun loop hloop => ?_, fun loop hloop => ?_⟩
  · simp [h.before loop hloop]
  · simp [(h.omp loop hloop).1]
  · simp [(h.n loop hloop).1]
  · simp [(h.m loop hloop).1]
  · simp [(h.packed loop hloop).1]
  · simp [h.kernel loop hloop]

theorem ompAt_iff (h : PlannedRuns loops before omp n m packed kernel) (i : Nat) :
    LoopAt Loop.isOmp loops i ↔ before.length ≤ i ∧ i < before.length + omp.length := by
  obtain ⟨hbefore, homp, hsfc, hafter⟩ := h.forall_mode
  refine loopAt_iff_of_run h.append (fun loop hloop => (hbefore loop hloop).1)
    (fun loop hloop => (homp loop hloop).1) ?_ i
  rw [← List.append_assoc, List.forall_mem_append]
  exact ⟨fun loop hloop => (hsfc loop hloop).1, fun loop hloop => (hafter loop hloop).1⟩

theorem sfcAt_iff (h : PlannedRuns loops before omp n m packed kernel) (i : Nat) :
    LoopAt Loop.isSfc loops i ↔
      before.length + omp.length ≤ i ∧ i < before.length + omp.length + (n ++ m).length := by
  obtain ⟨hbefore, homp, hsfc, hafter⟩ := h.forall_mode
  have happend : loops = (before ++ omp) ++ ((n ++ m) ++ (packed ++ kernel)) := by
    rw [h.append]
    simp only [List.append_assoc]
  rw [← List.length_append]
  refine loopAt_iff_of_run happend ?_ (fun loop hloop => (hsfc loop hloop).2)
    (fun loop hloop => (hafter loop hloop).2) i
  rw [List.forall_mem_append]
  exact ⟨fun loop hloop => (hbefore loop hloop).2, fun loop hloop => (homp loop hloop).2⟩

/-- N loops stand in front of the M loops, and no other loop is on the curve. -/
theorem pairwise_curveRank (h : PlannedRuns loops before omp n m packed kernel) :
    loops.Pairwise fun a b =>
      a.isSfc = true → b.isSfc = true → a.axis.curveRank ≤ b.axis.curveRank := by
  obtain ⟨hbefore, homp, -, hafter⟩ := h.forall_mode
  -- a loop of the curve has at least the rank of N, and behind an M loop there are only M loops
  have hnone : ∀ {run rest : List Loop}, (∀ loop ∈ run, loop.isSfc = false) →
      rest.Pairwise (fun a b =>
        a.isSfc = true → b.isSfc = true → a.axis.curveRank ≤ b.axis.curveRank) →
      (run ++ rest).Pairwise fun a b =>
        a.isSfc = true → b.isSfc = true → a.axis.curveRank ≤ b.axis.curveRank := by
    intro run rest hrun hrest
    rw [List.pairwise_append]
    have habsurd : ∀ {a : Loop}, a ∈ run → ¬a.isSfc = true := fun ha => by simp [hrun _ ha]
    refine ⟨List.pairwise_of_forall_mem_list fun a ha b _ hsfc => absurd hsfc (habsurd ha), hrest,
      fun a ha b _ hsfc => absurd hsfc (habsurd ha)⟩
  have hsame : ∀ {run : List Loop} {axis : Axis}, (∀ loop ∈ run, loop.axis = axis) →
      run.Pairwise fun a b =>
        a.isSfc = true → b.isSfc = true → a.axis.curveRank ≤ b.axis.curveRank := by
    intro run axis hrun
    refine List.pairwise_of_forall_mem_list fun a ha b hb _ _ => ?_
    rw [hrun a ha, hrun b hb]
  have htail : (packed ++ kernel).Pairwise fun a b =>
      a.isSfc = true → b.isSfc = true → a.axis.curveRank ≤ b.axis.curveRank := by
    rw [← List.append_nil (packed ++ kernel)]
    exact hnone (fun loop hloop => (hafter loop hloop).2) List.Pairwise.nil
  rw [h.append]
  refine hnone (fun loop hloop => (hbefore loop hloop).2)
    (hnone (fun loop hloop => (homp loop hloop).2) ?_)
  rw [List.pairwise_append, List.pairwise_append]
  refine ⟨hsame fun loop hloop => (h.n loop hloop).2, ⟨hsame fun loop hloop => (h.m loop hloop).2,
    htail, fun a _ b hb _ hsfc => ?_⟩, fun a ha b hb _ hsfc => ?_⟩
  · rw [(hafter b hb).2] at hsfc
    cases hsfc
  · rcases List.mem_append.1 hb with hb | hb
    · rw [(h.n a ha).2, (h.m b hb).2]
      decide
    · rw [(hafter b hb).2] at hsfc
      cases hsfc

/-- Planned runs are arranged, unless a parallel loop stands too far in. -/
theorem arranged (h : PlannedRuns loops before omp n m packed kernel)
    (hsmall : ∀ i (hi : i < loops.length), loops[i].isParallel = true → i ≤ Layout.maxLoopIndex) :
    Arranged loops := by
  obtain ⟨hbefore, homp, hsfc, hafter⟩ := h.forall_mode
  refine ⟨⟨fun loop hloop hmode => ?_, fun loop hloop hmode => ?_, h.pairwise_curveRank, hsmall⟩,
    consecutive_of_run h.ompAt_iff, consecutive_of_run h.sfcAt_iff, fun i j hi hlast hj hleast => ?_⟩
  · have hparallel : loop.isParallel = true := by
      rw [Loop.isParallel, show loop.mode = .omp from of_decide_eq_true hmode]
      rfl
    rcases h.shared loop hloop hparallel with haxis | haxis | haxis <;> rw [haxis] <;> decide
  · have hmem : loop ∈ n ++ m := by
      rw [h.append] at hloop
      simp only [List.mem_append] at hloop hafter ⊢
      rcases hloop with hl | hl | hl | hl | hl
      · simp [(hbefore loop hl).2] at hmode
      · simp [(homp loop hl).2] at hmode
      · exact .inl hl
      · exact .inr hl
      · simp [(hafter loop hl).2] at hmode
    rcases List.mem_append.1 hmem with hl | hl
    · exact .inl (h.n loop hl).2
    · exact .inr (.inl (h.m loop hl).2)
  · rw [h.ompAt_iff] at hi
    rw [h.sfcAt_iff] at hj
    -- the last OMP loop and the first loop of the curve are the ends of the two runs
    have hend := hlast (before.length + omp.length - 1) ((h.ompAt_iff _).2 (by omega))
    have hbegin := hleast (before.length + omp.length) ((h.sfcAt_iff _).2 (by omega))
    omega

/-- The loops of the curve on the axes N and M are the N run and the M run. -/
theorem filter_isSfcOn (h : PlannedRuns loops before omp n m packed kernel) :
    loops.filter (Loop.isSfcOn .n) = n ∧ loops.filter (Loop.isSfcOn .m) = m := by
  obtain ⟨hbefore, homp, -, hafter⟩ := h.forall_mode
  have hnot : ∀ {loop : Loop} (axis : Axis), loop.isSfc = false → loop.isSfcOn axis = false :=
    fun axis hloop => by simp [Loop.isSfcOn, hloop]
  constructor
  · apply filter_eq_of_run (before ++ omp) n (m ++ (packed ++ kernel))
    · rw [h.append]
      simp only [List.append_assoc]
    · rw [List.forall_mem_append]
      exact ⟨fun loop hloop => hnot .n (hbefore loop hloop).2,
        fun loop hloop => hnot .n (homp loop hloop).2⟩
    · intro loop hloop
      simp [Loop.isSfcOn, Loop.isSfc, h.n loop hloop]
    · rw [List.forall_mem_append]
      exact ⟨fun loop hloop => by simp [Loop.isSfcOn, (h.m loop hloop).2],
        fun loop hloop => hnot .n (hafter loop hloop).2⟩
  · apply filter_eq_of_run (before ++ (omp ++ n)) m (packed ++ kernel)
    · rw [h.append]
      simp only [List.append_assoc]
    · rw [List.forall_mem_append, List.forall_mem_append]
      exact ⟨fun loop hloop => hnot .m (hbefore loop hloop).2,
        fun loop hloop => hnot .m (homp loop hloop).2,
        fun loop hloop => by simp [Loop.isSfcOn, (h.n loop hloop).2]⟩
    · intro loop hloop
      simp [Loop.isSfcOn, Loop.isSfc, h.m loop hloop]
    · exact fun loop hloop => hnot .m (hafter loop hloop).2

end PlannedRuns

/-! ## Plans -/

/-- The runs of a plan and the bounds of its threads. -/
theorem plan_runs_bounds {settings : Settings} {kernel : KernelTag} {element : ElementType}
    {loops : List Loop} {nest : Nest} (hsequential : ∀ loop ∈ loops, loop.mode = .seq)
    (hunpacked : ∀ loop ∈ loops, loop.IsUnpacked)
    (hplan : Nest.plan settings kernel element loops = .ok nest) :
    ∃ before omp n m packed prims, PlannedRuns nest.loops before omp n m packed prims ∧
      (1 ≤ nest.threads.m ∧
        (nest.threads.m : Int) ≤ Program.sizeWhere nest.loops (Loop.isSfcOn .m)) ∧
      (1 ≤ nest.threads.n ∧
        (nest.threads.n : Int) ≤ Program.sizeWhere nest.loops (Loop.isSfcOn .n)) ∧
      1 ≤ nest.threads.omp ∧
      nest.threads.m * nest.threads.n * nest.threads.omp ≤ settings.resolvedThreads := by
  obtain ⟨before, omp, n, m, packed, prims, hruns, hsplit⟩ := plan_runs hsequential hplan
  obtain ⟨hfilterN, hfilterM⟩ := hruns.filter_isSfcOn
  have hsound := plan_isSound hunpacked hplan
  have hpos : ∀ p, 1 ≤ Program.sizeWhere nest.loops p := by
    intro p
    rw [sizeWhere_eq_prod]
    exact one_le_prod_size fun loop hloop => (hsound loop (List.mem_of_mem_filter hloop)).1
  -- the tasks of the curve are the sizes of its runs
  have htotal : ∀ run p, nest.loops.filter p = run →
      totalSize run = Program.sizeWhere nest.loops p := by
    intro run p hrun
    rw [totalSize, Program.sizeWhere, hrun]
  rw [htotal m _ hfilterM, htotal n _ hfilterN] at hsplit
  exact ⟨before, omp, n, m, packed, prims, hruns,
    splitThreads_bounds settings.one_le_resolvedThreads (hpos _) (hpos _) hsplit⟩

/-- A plan has a valid parallel schedule. Its loops are sequential loops, OMP loops, the N loops and
the M loops of the curve, packed sequential loops and kernel loops, in this order, and no K loop is
parallel. Neither axis of the curve has more threads than tasks, and all directions together have no
more threads than were configured. Unless a parallel loop stands too far in, the plan has a layout. A
contraction with these loops and threads is never refused because a thread has no share, and launches
no more threads than were configured, whatever was asked of it before. -/
theorem plan_schedule {settings : Settings} {kernel : KernelTag} {element : ElementType}
    {loops : List Loop} {nest : Nest} (hsequential : ∀ loop ∈ loops, loop.mode = .seq)
    (hunpacked : ∀ loop ∈ loops, loop.sourceLeft = 0 ∧ loop.sourceRight = 0)
    (hplan : Nest.plan settings kernel element loops = .ok nest) :
    (∃ before omp n m packed prims, PlannedRuns nest.loops before omp n m packed prims) ∧
    (∀ loop ∈ nest.loops, loop.isParallel = true → loop.axis ≠ .k) ∧
    (1 ≤ nest.threads.m ∧
      (nest.threads.m : Int) ≤ Program.sizeWhere nest.loops (Loop.isSfcOn .m)) ∧
    (1 ≤ nest.threads.n ∧
      (nest.threads.n : Int) ≤ Program.sizeWhere nest.loops (Loop.isSfcOn .n)) ∧
    nest.threads.m * nest.threads.n * nest.threads.omp ≤ settings.resolvedThreads ∧
    ((∀ i (h : i < nest.loops.length), nest.loops[i].isParallel = true → i ≤ Layout.maxLoopIndex) →
      ∃ layout, Layout.ofLoops nest.loops nest.threads = .ok layout) ∧
    ∀ {α : Type} [Scalar α] (contraction : Contraction α), contraction.program = none →
      contraction.loops = nest.loops → contraction.threads = nest.threads →
      ∀ requests : List (Request α),
        (∀ thread axis, (requests.foldl Contraction.serve contraction).compile.2 ≠
          .error (.emptyThreadShare thread axis)) ∧
        ∀ program slices,
          (requests.foldl Contraction.serve contraction).program = some program →
            ((requests.foldl Contraction.serve contraction).threadTasks program slices).length ≤
              settings.resolvedThreads := by
  obtain ⟨before, omp, n, m, packed, prims, hruns, hm, hn, homp, htotal⟩ :=
    plan_runs_bounds hsequential hunpacked hplan
  refine ⟨⟨before, omp, n, m, packed, prims, hruns⟩, fun loop hloop hparallel => ?_, hm, hn, htotal,
    fun hsmall => ?_, ?_⟩
  · rcases hruns.shared loop hloop hparallel with haxis | haxis | haxis <;> rw [haxis] <;> decide
  · exact Layout.exists_ofLoops_iff.2 (hruns.arranged hsmall)
  · intro α _ contraction hnew _ hthreads requests
    constructor
    · intro thread axis h
      have hstage := Contraction.compile_refusedIn _ _ h
      simp [Error.stage] at hstage
    · intro program slices hprogram
      -- all three counts are positive, so compiling asks for no more threads than these
      have hpositive : contraction.threads.atLeastOne = contraction.threads := by
        rw [hthreads, ThreadGrid.atLeastOne, max_eq_left homp, max_eq_left hm.1, max_eq_left hn.1]
      have hle := Contraction.length_threadTasks_foldl_serve hnew hpositive requests hprogram slices
      rw [hthreads, ThreadGrid.total] at hle
      calc _ ≤ nest.threads.omp * nest.threads.m * nest.threads.n := hle
        _ = nest.threads.m * nest.threads.n * nest.threads.omp := by ring
        _ ≤ settings.resolvedThreads := htotal

/-- The settings of a plan for four threads with small kernel loops. -/
def Settings.fourThreads : Settings :=
  { threads := 4, targetM := 2, targetN := 2, targetK := 2, packedSupport := .none,
    extraPacking := 2 }

/-- A batched product of a transposed matrix whose reduction is given as two loops. -/
def sharedProduct : List Loop :=
  [⟨.c, .seq, 2, ⟨32, 32, 0, 16⟩, 0, 0⟩, ⟨.k, .seq, 4, ⟨8, 1, 0, 0⟩, 0, 0⟩,
    ⟨.m, .seq, 4, ⟨2, 0, 0, 1⟩, 0, 0⟩, ⟨.k, .seq, 2, ⟨1, 16, 0, 0⟩, 0, 0⟩,
    ⟨.n, .seq, 4, ⟨0, 4, 0, 4⟩, 0, 0⟩]

/-- What is planned for `sharedProduct`: every run has a loop. -/
def sharedLoops : List Loop :=
  [⟨.k, .seq, 2, ⟨16, 2, 0, 0⟩, 0, 0⟩, ⟨.c, .omp, 2, ⟨32, 32, 0, 16⟩, 0, 0⟩,
    ⟨.n, .sfc, 2, ⟨0, 8, 0, 8⟩, 0, 0⟩, ⟨.m, .sfc, 2, ⟨4, 0, 0, 2⟩, 0, 0⟩,
    ⟨.k, .seq, 2, ⟨4, 16, 0, 0⟩, 1, 0⟩, ⟨.m, .prim, 2, ⟨1, 0, 0, 1⟩, 2, 0⟩,
    ⟨.n, .prim, 2, ⟨0, 4, 0, 4⟩, 0, 0⟩, ⟨.k, .prim, 2, ⟨2, 1, 0, 0⟩, 8, 0⟩]

/-- However the four threads are shared out, which depends on the balance of the axes, the plan for
`sharedProduct` has a layout and no more threads in all than four. -/
theorem plan_schedule_sharedProduct :
    ∃ grid, Nest.plan .fourThreads .madd .fp32 sharedProduct = .ok ⟨sharedLoops, .madd, grid⟩ ∧
      (1 ≤ grid.m ∧ grid.m ≤ 2) ∧ (1 ≤ grid.n ∧ grid.n ≤ 2) ∧ grid.m * grid.n * grid.omp ≤ 4 ∧
      (∃ layout, Layout.ofLoops sharedLoops grid = .ok layout) ∧
      ∀ thread axis, (Contraction.create sharedLoops ⟨.fp32, .fp32, .fp32, .fp32⟩
        ⟨.zero, .madd, .undefined⟩ grid .strided .unlimited : Contraction Int).compile.2 ≠
          .error (.emptyThreadShare thread axis) := by
  obtain ⟨grid, hgrid⟩ := exists_splitThreads (show 1 ≤ 4 by decide) 2 2
  have hstages : Nest.stages .fourThreads .madd .fp32 sharedProduct =
      .ok (⟨sharedLoops, 2, 2⟩, .madd) := by decide +kernel
  obtain ⟨⟨⟩, hsettings, hstages⟩ := bind_eq_ok.1 hstages
  obtain ⟨⟨⟩, hsizes, hstages⟩ := bind_eq_ok.1 hstages
  obtain ⟨kerneled, hkernel, hstages⟩ := bind_eq_ok.1 hstages
  obtain ⟨blocked, hblock, hstages⟩ := bind_eq_ok.1 hstages
  obtain ⟨rfl, htag⟩ := Prod.mk.inj (pure_eq_ok.1 hstages)
  have hplan : Nest.plan .fourThreads .madd .fp32 sharedProduct = .ok ⟨sharedLoops, .madd, grid⟩ :=
    bind_eq_ok.2 ⟨(), hsettings, bind_eq_ok.2 ⟨(), hsizes, bind_eq_ok.2 ⟨kerneled, hkernel,
      bind_eq_ok.2 ⟨_, hblock, bind_eq_ok.2 ⟨grid, hgrid, htag ▸ rfl⟩⟩⟩⟩⟩
  obtain ⟨-, -, hm, hn, htotal, hlayout, hlaunch⟩ := plan_schedule (by decide) (by decide) hplan
  have htasks : Program.sizeWhere sharedLoops (Loop.isSfcOn .m) = 2 ∧
      Program.sizeWhere sharedLoops (Loop.isSfcOn .n) = 2 := by decide
  dsimp only at hm hn htotal hlayout
  rw [htasks.1] at hm
  rw [htasks.2] at hn
  refine ⟨grid, hplan, by omega, by omega, htotal, hlayout (by decide), ?_⟩
  exact (hlaunch _ rfl rfl rfl []).1

end LoopNest
