import LoopNest.Proofs.Planning.Placement

/-!
# The loops that threads share

Planning makes loops parallel in one place: blocking moves batch loops, N loops and M loops in front
of the kernel and hands them to the threads. All other loops of a planned nest are sequential or
kernel loops (`plan_runs`), so that threads share C, M and N loops only (`plan_shared`). Loops of the
reduction, and loops that move through one input only, stay with the thread that runs into them.
-/

namespace LoopNest

/-! ## Installing keeps loops sequential -/

/-- The inner part of a split has the new mode, the outer part and all other loops keep theirs. -/
theorem isParallel_splitAt {loops result : List Loop} {index : Nat} {target : Int} {mode : Mode}
    (hmode : mode.isParallel = false) (hloops : ∀ loop ∈ loops, loop.isParallel = false)
    (h : splitAt loops index target mode = .ok result) :
    ∀ loop ∈ result, loop.isParallel = false := by
  obtain ⟨loop, pair, hget, hpair, rfl⟩ := splitAt_eq_ok h
  obtain ⟨houter, hinner⟩ := mode_of_split hpair
  rw [List.forall_mem_append, List.forall_mem_singleton]
  constructor
  · intro l hl
    rcases List.mem_or_eq_of_mem_set hl with hmem | rfl
    · exact hloops l hmem
    · rw [Loop.isParallel, houter]
      exact hloops loop (List.mem_of_getElem? hget)
  · rw [Loop.isParallel, hinner]
    exact hmode

theorem isParallel_installExtra {candidate : Option Found} {target : Int} {loops result : List Loop}
    (hloops : ∀ loop ∈ loops, loop.isParallel = false)
    (h : installExtra candidate target loops = .ok result) :
    ∀ loop ∈ result, loop.isParallel = false := by
  rcases installExtra_cases h with ⟨found, -, hsplit⟩ | ⟨-, rfl⟩
  · exact isParallel_splitAt rfl hloops hsplit
  · exact hloops

theorem isParallel_installSlot {axis : Axis} {required : Bool} {candidate : Option Found}
    {target : Int} {loops result : List Loop} (hloops : ∀ loop ∈ loops, loop.isParallel = false)
    (h : installSlot axis required candidate target loops = .ok result) :
    ∀ loop ∈ result, loop.isParallel = false := by
  cases slotFill_of_installSlot h with
  | split hfound htarget hsplit => exact isParallel_splitAt rfl hloops hsplit
  | idle =>
      rw [List.forall_mem_append, List.forall_mem_singleton]
      exact ⟨hloops, rfl⟩
  | empty => exact hloops

/-- Installing the kernel loops makes no loop parallel. -/
theorem isParallel_installKernel {settings : Settings} {kernel : KernelTag} {loops : List Loop}
    {kerneled : Kerneled} (hloops : ∀ loop ∈ loops, loop.isParallel = false)
    (h : installKernel settings kernel loops = .ok kerneled) :
    ∀ loop ∈ kerneled.loops, loop.isParallel = false := by
  obtain ⟨s, hs⟩ := installKernel_eq_ok h
  have hrest : ∀ loop ∈ s.rest, loop.isParallel = false := by
    intro loop hloop
    exact hloops loop ((takeComplex_perm hs.takes).mem_iff.2 (List.mem_append_right _ hloop))
  have hbase : ∀ loop ∈ s.base, loop.isParallel = false := by
    unfold KernelStages.base
    rw [List.forall_mem_append]
    constructor
    · exact isParallel_installExtra (isParallel_installExtra hrest hs.right) hs.left
    · cases s.complex with
      | none => simp
      | some loop => exact List.forall_mem_singleton.2 rfl
  obtain ⟨_, _, _, _, h₁, h₂, h₃, h₄, h₅⟩ := installSlots_eq_ok hs.slots
  have hinstalled := isParallel_installSlot (isParallel_installSlot (isParallel_installSlot
    (isParallel_installSlot (isParallel_installSlot hbase h₁) h₂) h₃) h₄) h₅
  -- packing changes strides only
  have hpacked := map_packInputs Loop.isParallel (fun _ side _ => by cases side <;> rfl) settings
    kerneled.kernel s.chosen s.installed
  rw [← hs.loops] at hpacked
  intro loop hloop
  have hmem := List.mem_map_of_mem (f := Loop.isParallel) hloop
  rw [hpacked] at hmem
  obtain ⟨l, hl, hsame⟩ := List.mem_map.1 hmem
  rw [← hsame, hinstalled l hl]

/-! ## Blocking -/

/-- Loops that are moved have the axis and the mode they are moved for, and the others keep the modes
that they have. -/
theorem MoveStep.kind {axis : Axis} {mode : Mode} {p : Mode → Prop} {state next : Moved}
    (h : MoveStep axis mode state next) (hrest : ∀ loop ∈ state.rest, p loop.mode)
    (hmoved : ∀ loop ∈ state.moved, loop.axis = axis ∧ loop.mode = mode) :
    (∀ loop ∈ next.rest, p loop.mode) ∧
      ∀ loop ∈ next.moved, loop.axis = axis ∧ loop.mode = mode := by
  have hothers : ∀ index, ∀ loop ∈ state.rest.eraseIdx index, p loop.mode := fun index loop hl =>
    hrest loop (List.mem_of_mem_eraseIdx hl)
  -- the inner part has the axis of the loop that is split
  have hinner : ∀ {loop : Loop} {target : Int} {pair : LoopPair}, loop.axis = axis →
      loop.split target mode = .ok pair → pair.inner.axis = axis ∧ pair.inner.mode = mode := by
    intro loop target pair haxis hpair
    obtain ⟨size, -, hpair⟩ := bind_eq_ok.1 hpair
    obtain rfl := pure_eq_ok.1 hpair
    exact ⟨haxis, rfl⟩
  cases h with
  | @whole index loop hget haxis =>
      exact ⟨hothers index, List.forall_mem_cons.2 ⟨⟨haxis, rfl⟩, hmoved⟩⟩
  | @split index loop target pair hget haxis hpair =>
      refine ⟨fun l hl => ?_, List.forall_mem_cons.2 ⟨hinner haxis hpair, hmoved⟩⟩
      rcases List.mem_or_eq_of_mem_set hl with hmem | rfl
      · exact hrest l hmem
      · rw [(mode_of_split hpair).1]
        exact hrest loop (List.mem_of_getElem? hget)
  | @drop index loop target pair hget haxis hpair hone =>
      exact ⟨hothers index, List.forall_mem_cons.2 ⟨hinner haxis hpair, hmoved⟩⟩

theorem takeInner_kind (p : Mode → Prop) {axis : Axis} {mode : Mode} {target : Int}
    {loops : List Loop} {result : Moved} (hloops : ∀ loop ∈ loops, p loop.mode)
    (h : takeInner axis mode target loops = .ok result) :
    (∀ loop ∈ result.rest, p loop.mode) ∧
      ∀ loop ∈ result.moved, loop.axis = axis ∧ loop.mode = mode := by
  refine moveInner_induction (motive := fun current => (∀ loop ∈ current.rest, p loop.mode) ∧
    ∀ loop ∈ current.moved, loop.axis = axis ∧ loop.mode = mode) ?_ ⟨hloops, by simp⟩ h
  rintro current next hmove ⟨hrest, hmoved⟩
  exact hmove.kind hrest hmoved

/-- The runs of a planned nest: sequential loops, OMP loops, the N and the M loops of the curve,
packed sequential loops and kernel loops. -/
structure PlannedRuns (loops before omp n m packed kernel : List Loop) : Prop where
  append : loops = before ++ (omp ++ (n ++ (m ++ (packed ++ kernel))))
  before : ∀ loop ∈ before, loop.mode = .seq
  omp : ∀ loop ∈ omp, loop.mode = .omp ∧ (loop.axis = .c ∨ loop.axis = .m ∨ loop.axis = .n)
  n : ∀ loop ∈ n, loop.mode = .sfc ∧ loop.axis = .n
  m : ∀ loop ∈ m, loop.mode = .sfc ∧ loop.axis = .m
  packed : ∀ loop ∈ packed, loop.mode = .seq ∧ ∃ side, loop.isPacked side = true
  kernel : ∀ loop ∈ kernel, loop.mode = .prim

/-- Threads share C, M and N loops only. -/
theorem PlannedRuns.shared {loops before omp n m packed kernel : List Loop}
    (h : PlannedRuns loops before omp n m packed kernel) :
    ∀ loop ∈ loops, loop.isParallel = true → loop.axis = .c ∨ loop.axis = .m ∨ loop.axis = .n := by
  rw [h.append]
  simp only [List.forall_mem_append]
  refine ⟨fun loop hloop hparallel => ?_, fun loop hloop _ => (h.omp loop hloop).2,
    fun loop hloop _ => .inr (.inr (h.n loop hloop).2),
    fun loop hloop _ => .inr (.inl (h.m loop hloop).2),
    fun loop hloop hparallel => ?_, fun loop hloop hparallel => ?_⟩
  · rw [Loop.isParallel, h.before loop hloop] at hparallel
    cases hparallel
  · rw [Loop.isParallel, (h.packed loop hloop).1] at hparallel
    cases hparallel
  · rw [Loop.isParallel, h.kernel loop hloop] at hparallel
    cases hparallel

/-- What stays with the kernel are packed loops and kernel loops. -/
theorem exists_packed_kernel {loops : List Loop} (hkernel : KernelLast loops)
    (hloops : ∀ loop ∈ loops, loop.isParallel = false) :
    ∃ packed kernel, loops.filter Loop.staysWithKernel = packed ++ kernel ∧
      (∀ loop ∈ packed, loop.mode = .seq ∧ ∃ side, loop.isPacked side = true) ∧
      ∀ loop ∈ kernel, loop.mode = .prim := by
  have hmodes : ∀ loop ∈ loops.filter Loop.staysWithKernel,
      loop.isOmp = false ∧ loop.isSfc = false := by
    intro loop hloop
    have hnot := hloops loop (List.mem_of_mem_filter hloop)
    constructor
    · by_contra homp
      simp [Loop.isParallel, Mode.isParallel, Loop.isOmp] at homp hnot
      simp [homp] at hnot
    · by_contra hsfc
      simp [Loop.isParallel, Mode.isParallel, Loop.isSfc] at hsfc hnot
      simp [hsfc] at hnot
  obtain ⟨packed, kernel, happend, hpacked, hprim⟩ :=
    seq_append_kernel (hkernel.filter Loop.staysWithKernel).pairwise hmodes
  refine ⟨packed, kernel, happend, fun loop hloop => ⟨hpacked loop hloop, ?_⟩, hprim⟩
  -- what is no kernel loop stays for its packing stride
  have hstays : loop.staysWithKernel = true := by
    have hmem : loop ∈ loops.filter Loop.staysWithKernel := by
      rw [happend]
      exact List.mem_append_left _ hloop
    exact (List.mem_filter.1 hmem).2
  have hnotPrim : loop.isPrim = false := by simp [Loop.isPrim, hpacked loop hloop]
  rw [Loop.staysWithKernel, hnotPrim, Bool.false_or, Bool.or_eq_true, decide_eq_true_eq,
    decide_eq_true_eq] at hstays
  rcases hstays with hleft | hright
  · exact ⟨.left, decide_eq_true (Int.ne_of_gt hleft)⟩
  · exact ⟨.right, decide_eq_true (Int.ne_of_gt hright)⟩

/-- Blocking makes C, M and N loops parallel, and no others, and orders the loops by their runs. -/
theorem block_runs {settings : Settings} {element : ElementType} {loops : List Loop}
    {blocked : Blocked} (hkernel : KernelLast loops)
    (hloops : ∀ loop ∈ loops, loop.isParallel = false)
    (h : block settings element loops = .ok blocked) :
    ∃ before omp n m packed kernel, PlannedRuns blocked.loops before omp n m packed kernel ∧
      blocked.sfcM = totalSize m ∧ blocked.sfcN = totalSize n := by
  obtain ⟨n, m, k, c, hsteps⟩ := exists_blocking h
  obtain ⟨_, hn⟩ := hsteps.takesN
  obtain ⟨_, hm⟩ := hsteps.takesM
  obtain ⟨_, hk⟩ := hsteps.takesK
  obtain ⟨_, hc⟩ := hsteps.takesC
  have hfree : ∀ loop ∈ loops.filter fun loop => !loop.staysWithKernel, loop.mode = .seq := by
    intro loop hloop
    obtain ⟨hmem, hstays⟩ := List.mem_filter.1 hloop
    have hnot := hloops loop hmem
    cases hmode : loop.mode with
    | seq => rfl
    | prim => simp [Loop.staysWithKernel, Loop.isPrim, hmode] at hstays
    | omp | sfc => simp [Loop.isParallel, Mode.isParallel, hmode] at hnot
  -- N, M, K and batch loops are taken one after the other, each from what is left
  obtain ⟨hnrest, hn⟩ := takeInner_kind (· = .seq) hfree hn
  obtain ⟨hmrest, hm⟩ := takeInner_kind (· = .seq) hnrest hm
  obtain ⟨hkrest, hk⟩ := takeInner_kind (· = .seq) hmrest hk
  obtain ⟨hcrest, hc⟩ := takeInner_kind (· = .seq) hkrest hc
  obtain ⟨packed, kernel, hstays, hpacked, hprim⟩ := exists_packed_kernel hkernel hloops
  have hbefore : ∀ loop ∈ sortBy (fun a b => decide (b.weight ≤ a.weight)) c.rest ++ k.moved,
      loop.mode = .seq := by
    rw [List.forall_mem_append]
    constructor
    · intro loop hloop
      exact hcrest loop ((sortBy_perm _ c.rest).mem_iff.1 hloop)
    · intro loop hloop
      exact (hk loop hloop).2
  by_cases hcurves : settings.curves = true
  · -- N and M loops are on the curve
    rw [if_pos hcurves] at hn hm
    refine ⟨_, c.moved, n.moved, m.moved, packed, kernel, ⟨?_, hbefore, ?_, ?_, ?_, hpacked, hprim⟩,
      hsteps.sfcM.trans (if_pos hcurves), hsteps.sfcN.trans (if_pos hcurves)⟩
    · rw [hsteps.loops, hstays]
      simp only [List.append_assoc]
    · intro loop hloop
      exact ⟨(hc loop hloop).2, .inl (hc loop hloop).1⟩
    · intro loop hloop
      exact (hn loop hloop).symm
    · intro loop hloop
      exact (hm loop hloop).symm
  · -- N and M loops belong to the flat index
    rw [if_neg hcurves] at hn hm
    refine ⟨_, c.moved ++ n.moved ++ m.moved, [], [], packed, kernel,
      ⟨?_, hbefore, ?_, by simp, by simp, hpacked, hprim⟩,
      hsteps.sfcM.trans (if_neg hcurves), hsteps.sfcN.trans (if_neg hcurves)⟩
    · rw [hsteps.loops, hstays]
      simp only [List.append_assoc, List.nil_append]
    · simp only [List.forall_mem_append]
      refine ⟨⟨fun loop hloop => ?_, fun loop hloop => ?_⟩, fun loop hloop => ?_⟩
      · exact ⟨(hc loop hloop).2, .inl (hc loop hloop).1⟩
      · exact ⟨(hn loop hloop).2, .inr (.inr (hn loop hloop).1)⟩
      · exact ⟨(hm loop hloop).2, .inr (.inl (hm loop hloop).1)⟩

/-- A nest planned from sequential loops consists of its runs, and the threads are shared out for the
N and M loops of the curve. -/
theorem plan_runs {settings : Settings} {kernel : KernelTag} {element : ElementType}
    {loops : List Loop} {nest : Nest} (hsequential : ∀ loop ∈ loops, loop.mode = .seq)
    (h : Nest.plan settings kernel element loops = .ok nest) :
    ∃ before omp n m packed kernel, PlannedRuns nest.loops before omp n m packed kernel ∧
      splitThreads settings.resolvedThreads (totalSize m) (totalSize n) = .ok nest.threads := by
  obtain ⟨kerneled, blocked, hstages⟩ := exists_planStages h
  -- sorting and fusing makes no loop parallel
  have hnormal : ∀ loop ∈ sortAndFuse (dropUnits loops), loop.isParallel = false := by
    apply forall_sortAndFuse
    · intro outer inner _ houter _
      exact houter
    · intro loop hloop
      rw [Loop.isParallel, hsequential loop (List.mem_of_mem_filter hloop)]
      rfl
  have hprim : ∀ loop ∈ loops, loop.isPrim = false := fun loop hloop => by
    simp [Loop.isPrim, hsequential loop hloop]
  have hinstalled := isParallel_installKernel hnormal hstages.install
  have hlast := installKernel_kernelLast (forall_normal_isPrim hprim) hstages.install
  obtain ⟨before, omp, n, m, packed, prims, hruns, hsizeM, hsizeN⟩ := block_runs (hlast.filter _)
    (fun loop hloop => hinstalled loop (List.mem_of_mem_filter hloop)) hstages.block
  have hthreads := hstages.share
  rw [hsizeM, hsizeN] at hthreads
  rw [hstages.loops]
  exact ⟨before, omp, n, m, packed, prims, hruns, hthreads⟩

/-- In a nest planned from sequential loops, threads share C, M and N loops only. -/
theorem plan_shared {settings : Settings} {kernel : KernelTag} {element : ElementType}
    {loops : List Loop} {nest : Nest} (hsequential : ∀ loop ∈ loops, loop.mode = .seq)
    (h : Nest.plan settings kernel element loops = .ok nest) :
    ∀ loop ∈ nest.loops, loop.isParallel = true →
      loop.axis = .c ∨ loop.axis = .m ∨ loop.axis = .n := by
  obtain ⟨_, _, _, _, _, _, hruns, -⟩ := plan_runs hsequential h
  exact hruns.shared

end LoopNest
