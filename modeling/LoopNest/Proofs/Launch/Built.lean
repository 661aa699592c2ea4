import LoopNest.Contraction
import LoopNest.Proofs.Parallel.TaskPartition

/-!
# Built programs

`Program.IsBuilt` collects what is known of a program that was built from a loop list: its layout is
sound, its strides are step offsets on the curve, its packed regions are those of the loops, and
every thread has work (`Program.build_isBuilt`). Its kernels are made for one shape
(`KernelTags.make_eq_ok`), touch kernels only for tags that are defined
(`KernelTags.makeTouch_eq_ok`).

The work of a thread is described by its share of the tasks (`Program.Does`): where it starts, its
flat interval, the sides of its box, and a walk through the box (`Program.IsBuilt.does`).
-/

namespace LoopNest

/-- A touch kernel is made for every tag that is defined. -/
theorem KernelTags.makeTouch_eq_ok {provider : Provider} {shape : KernelShape} {tag : KernelTag}
    {kernel : Option TouchKernel} (h : makeTouch provider shape tag = .ok kernel) :
    tag = .undefined ∧ kernel = none ∨
      ∃ made, provider.touchKernel tag shape = .ok made ∧ kernel = some made := by
  unfold makeTouch at h
  split at h
  · rename_i hundefined
    exact .inl ⟨hundefined, (Except.ok.inj h).symm⟩
  · cases hmade : provider.touchKernel tag shape with
    | error e =>
        rw [hmade] at h
        cases h
    | ok made =>
        rw [hmade] at h
        exact .inr ⟨made, rfl, (Except.ok.inj h).symm⟩

/-- All kernels for a list of loops are made for one shape. -/
theorem KernelTags.make_eq_ok {tags : KernelTags} {provider : Provider} {loops : List Loop}
    {kernels : KernelSet} (h : tags.make provider loops = .ok kernels) :
    KernelShape.ofLoops tags.main loops = .ok kernels.shape ∧
      provider.mainKernel tags.main kernels.shape = .ok kernels.main ∧
      makeTouch provider kernels.shape tags.first = .ok kernels.first ∧
      makeTouch provider kernels.shape tags.last = .ok kernels.last := by
  obtain ⟨shape, hshape, h⟩ := bind_eq_ok.1 h
  obtain ⟨main, hmain, h⟩ := bind_eq_ok.1 h
  obtain ⟨first, hfirst, h⟩ := bind_eq_ok.1 h
  obtain ⟨last, hlast, h⟩ := bind_eq_ok.1 h
  obtain rfl := pure_eq_ok.1 h
  exact ⟨hshape, hmain, hfirst, hlast⟩

/-- The first task of a box. -/
def Share.origin (share : Share) : Task := ⟨share.m.start, share.n.start, 0⟩

namespace Program

variable (program : Program)

/-- What the work of a thread is, given its share. -/
structure Does (share : Share) (work : Work) : Prop where
  m_pos : 0 < share.m.length
  n_pos : 0 < share.n.length
  omp_pos : 0 < share.omp.length
  numbers : ∀ i, 0 ≤ i → i < share.omp.length →
    0 ≤ share.omp.start + i ∧ share.omp.start + i < program.layout.ompTasks
  tasks : ∀ task ∈ share.path program.layout.kTasks, program.layout.HasTask task
  moves : program.layout.movesOf (share.path program.layout.kTasks) = .ok work.moves
  offset : work.offset = program.taskOffset share.origin
  omp : work.omp = share.omp
  sizeM : work.sizeM = share.m.length
  sizeN : work.sizeN = share.n.length
  sizeK : work.sizeK = program.layout.kTasks

/-- What is known of a program that was built. -/
structure IsBuilt : Prop where
  sound : program.layout.Sound
  sizes : ∀ loop ∈ program.layout.loops, 1 ≤ loop.size
  threads : 1 ≤ program.layout.threads.omp ∧ 1 ≤ program.layout.threads.m ∧
    1 ≤ program.layout.threads.n
  steps : program.HasSteps
  works : List.Forall₂
    (fun thread work =>
      program.layout.work (strideTable program.layout.loops) thread = .ok work)
    (List.range program.layout.threads.total) program.works
  left : PackedRegion.ofLoops .left program.layout.loops = .ok program.left
  right : PackedRegion.ofLoops .right program.layout.loops = .ok program.right
  extents : program.extents = Program.extentsOf program.layout.loops
  slotsLeft : program.left.isSome → 1 ≤ program.slotsLeft
  slotsRight : program.right.isSome → 1 ≤ program.slotsRight

variable {program}

theorem build_isBuilt {loops : List Loop} {kernels : KernelSet} {threads : ThreadGrid}
    {maxSlots : Int} (hsize : ∀ loop ∈ loops, 1 ≤ loop.size)
    (h : Program.build loops kernels threads maxSlots = .ok program) :
    program.IsBuilt ∧ program.layout.loops = loops ∧ program.kernels = kernels ∧
      program.layout.threads = threads.atLeastOne := by
  obtain ⟨left, hleft, h⟩ := bind_eq_ok.1 h
  obtain ⟨right, hright, h⟩ := bind_eq_ok.1 h
  obtain ⟨layout, hlayout, h⟩ := bind_eq_ok.1 h
  obtain ⟨⟨works, strides⟩, hsetup, h⟩ := bind_eq_ok.1 h
  obtain rfl := pure_eq_ok.1 h
  obtain ⟨hsound, rfl, hthreads⟩ := Layout.ofLoops_sound hlayout
  rw [Layout.setup_eq] at hsetup
  obtain ⟨works', hworks, hsetup⟩ := bind_eq_ok.1 hsetup
  obtain ⟨rfl, rfl⟩ := Prod.mk.inj (pure_eq_ok.1 hsetup)
  -- at least one slot is kept, whatever the bound on slots
  have hslots : 1 ≤ layout.cachingSlots maxSlots := by
    rw [Layout.cachingSlots]
    omega
  refine ⟨⟨hsound, hsize, ?_, rfl, mapM_eq_ok.1 hworks, hleft, hright, rfl, ?_, ?_⟩, rfl,
    rfl, hthreads⟩
  · simp [hthreads, ThreadGrid.atLeastOne]
  · intro hsome
    simpa [show left.isSome = true from hsome] using hslots
  · intro hsome
    simpa [show right.isSome = true from hsome] using hslots

namespace IsBuilt

variable (h : program.IsBuilt)

include h

theorem threads_pos : 1 ≤ program.layout.threads.total := by
  obtain ⟨homp, hm, hn⟩ := h.threads
  exact Nat.mul_pos (Nat.mul_pos homp hm) hn

theorem tasks_pos (axis : Axis) : 1 ≤ program.layout.sfcTasks axis :=
  h.sound.tasks_pos h.sizes axis

theorem ompTasks_pos : 1 ≤ program.layout.ompTasks := h.sound.ompTasks_pos h.sizes

/-- A task of the box of a thread is a task of the curve. -/
theorem hasTask {thread : Nat} {task : Task}
    (htask : task ∈ (program.layout.shareOf thread).tasks program.layout.kTasks) :
    program.layout.HasTask task :=
  h.sound.hasTask h.sizes h.threads.2 htask

/-- Every thread has the work of its share. -/
theorem does {thread : Nat} {work : Work} (hthread : thread < program.layout.threads.total)
    (hwork : program.layout.work (strideTable program.layout.loops) thread = .ok work) :
    program.Does (program.layout.shareOf thread) work := by
  have hfacts := Layout.work_eq_ok hwork
  exact {
    m_pos := hfacts.m_pos
    n_pos := hfacts.n_pos
    omp_pos := hfacts.omp_pos
    numbers := fun i h0 hlt => Share.mem_between h.threads.1 (Int.le_of_lt h.ompTasks_pos)
      (ThreadGrid.div_div_lt hthread) ⟨h0, hlt⟩
    tasks := fun task htask => h.hasTask
      ((Share.path_perm (Int.le_of_lt hfacts.m_pos) (Int.le_of_lt hfacts.n_pos)).mem_iff.1 htask)
    moves := hfacts.moves
    offset := hfacts.offset
    omp := hfacts.omp
    sizeM := hfacts.sizeM
    sizeN := hfacts.sizeN
    sizeK := hfacts.sizeK }

/-- The works of a program belong to its threads in order. -/
theorem forall₂_does : List.Forall₂ (fun thread work => program.Does
    (program.layout.shareOf thread) work) (List.range program.layout.threads.total)
      program.works :=
  List.forall₂_iff_zip.2 ⟨h.works.length_eq, fun {_ _} hmem =>
    h.does (List.mem_range.1 (List.of_mem_zip hmem).1)
      ((List.forall₂_iff_zip.1 h.works).2 hmem)⟩

/-- Every thread has work. -/
theorem exists_does {thread : Nat} (hthread : thread < program.layout.threads.total) :
    ∃ work, program.Does (program.layout.shareOf thread) work := by
  have hdoes := h.forall₂_does
  have hlength := hdoes.length_eq
  rw [List.length_range] at hlength
  have hget := hdoes.get (by rwa [List.length_range]) (hlength ▸ hthread)
  rw [List.get_eq_getElem, List.getElem_range] at hget
  exact ⟨_, hget⟩

/-- The strides of a loop outside the curve are its own. -/
theorem getD_strides {index : Nat}
    (hmode : (program.layout.loops.getD index .unit).mode ≠ .sfc) :
    program.strides.getD index 0 = (program.layout.loops.getD index .unit).strides := by
  rw [h.steps, h.sound.getD_stepTable_of_not_sfc hmode, Layout.getD_strideTable]

end IsBuilt

end Program

end LoopNest
