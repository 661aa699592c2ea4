import LoopNest.Proofs.Parallel.Partition
import LoopNest.Proofs.Parallel.Replay

/-!
# The partition of the tasks

An axis with `total` tasks has a task for every one of `threads` shares exactly if it has as many
tasks as there are threads (`Share.cuts_increase_iff`), and nothing else can refuse a layout whose
loops have iterations (`Layout.Sound.exists_work_iff`). So a setup succeeds exactly if every axis has
a task for each of its threads, and it leaves the table of strides alone otherwise. Which loops are
parallel does not depend on the threads (`Layout.ofLoops_withThreads`).

The shares of all threads together make up the whole grid of tasks (`Layout.flatMap_visits_perm`),
and each thread walks through its own box step by step. `setupInPlace_partitions` puts this together.
-/

namespace LoopNest

namespace Share

/-! ## Shares with a task -/

theorem onAxis_isOk_iff {thread id threads : Nat} {total : Int} {axis : ThreadAxis} :
    (∃ interval, onAxis thread id threads total axis = .ok interval) ↔
      cut threads total id < cut threads total (id + 1) := by
  constructor
  · rintro ⟨interval, h⟩
    obtain ⟨rfl, hlt⟩ := onAxis_eq_ok h
    exact hlt
  · intro hlt
    refine ⟨between threads total id, ?_⟩
    simp only [cut, Nat.cast_add, Nat.cast_one] at hlt
    simp [onAxis, hlt, between, cut]

/-- With a task for each thread, no two cuts coincide. -/
theorem cut_lt_cut_succ {threads : Nat} (hthreads : 1 ≤ threads) {total : Int}
    (hle : (threads : Int) ≤ total) (id : Nat) : cut threads total id < cut threads total (id + 1) := by
  have hpos : (0 : Int) < threads := by exact_mod_cast hthreads
  have hid : (0 : Int) ≤ id * total := Int.mul_nonneg (Int.natCast_nonneg id) (by omega)
  have hnext : (0 : Int) ≤ (id + 1 : Nat) * total :=
    Int.mul_nonneg (Int.natCast_nonneg _) (by omega)
  rw [cut, cut, Int.tdiv_eq_ediv_of_nonneg hid, Int.tdiv_eq_ediv_of_nonneg hnext, Int.lt_iff_add_one_le]
  calc (id : Int) * total / threads + 1 = (id * total + threads) / threads :=
        (Int.add_ediv_of_dvd_right (Int.dvd_refl _)).trans (by rw [Int.ediv_self hpos.ne']) |>.symm
    _ ≤ ((id + 1 : Nat) : Int) * total / threads := by
        refine Int.ediv_le_ediv hpos ?_
        push_cast
        linarith

/-- Cuts that increase at every share are at least as far as the shares in front of them. -/
theorem le_cut {threads : Nat} {total : Int} {count : Nat}
    (h : ∀ id < count, cut threads total id < cut threads total (id + 1)) :
    (count : Int) ≤ cut threads total count := by
  induction count with
  | zero => simp [cut_zero]
  | succ count ih =>
      have hprefix := ih fun id hid => h id (Nat.lt_succ_of_lt hid)
      have hlast := h count (Nat.lt_succ_self count)
      push_cast
      omega

/-- Every share of an axis has a task exactly if there are as many tasks as shares. -/
theorem cuts_increase_iff {threads : Nat} (hthreads : 1 ≤ threads) {total : Int} :
    (∀ id < threads, cut threads total id < cut threads total (id + 1)) ↔
      (threads : Int) ≤ total := by
  constructor
  · intro h
    simpa only [cut_self hthreads] using le_cut h
  · exact fun hle id _ => cut_lt_cut_succ hthreads hle id

/-! ## The tasks of a share -/

/-- What a thread with a share visits: every task of its box for every number of its interval. -/
def visits (share : Share) (depth : Int) : List (Int × Task) :=
  share.omp.numbers.product (share.tasks depth)

theorem mem_tasks {share : Share} {depth : Int} {task : Task} :
    task ∈ share.tasks depth ↔
      (share.m.start ≤ task.m ∧ task.m < share.m.stop) ∧
        (share.n.start ≤ task.n ∧ task.n < share.n.stop) ∧ 0 ≤ task.k ∧ task.k < depth := by
  simp only [tasks, List.mem_map, Curve.mem_boxCells, Interval.length]
  constructor
  · rintro ⟨cell, hcell, rfl⟩
    simp only [taskAt]
    omega
  · intro h
    refine ⟨⟨task.m - share.m.start, task.n - share.n.start, task.k⟩, by dsimp only; omega, ?_⟩
    simp [taskAt]

theorem nodup_tasks (share : Share) (depth : Int) : (share.tasks depth).Nodup := by
  refine (Curve.nodup_boxCells _ _ _).map fun a b hab => ?_
  obtain ⟨hx, hy, hz⟩ := Task.mk.inj hab
  exact Curve.Cell.ext (by omega) (by omega) hz

theorem nodup_visits (share : Share) (depth : Int) : (share.visits depth).Nodup :=
  ((nodup_upTo _).map fun _ _ hab => by omega).product (share.nodup_tasks depth)

/-- A visit as four coordinates. -/
def coordinates (visit : Int × Task) : Int × Int × Int × Int :=
  (visit.1, visit.2.m, visit.2.n, visit.2.k)

theorem coordinates_injective : Function.Injective coordinates := by
  rintro ⟨i, ⟨m, n, k⟩⟩ ⟨i', ⟨m', n', k'⟩⟩ h
  simpa [coordinates] using h

/-- The visits of a share are the sums of one part for each axis. -/
theorem map_coordinates_visits (share : Share) (depth : Int) :
    (share.visits depth).map coordinates =
      sumset [0] (sumset (share.omp.numbers.map fun i => (i, 0, 0, 0))
        (sumset (sumset (share.m.numbers.map fun m => (0, m, 0, 0))
          (share.n.numbers.map fun n => (0, 0, n, 0)))
          ((upTo depth).map fun k => (0, 0, 0, k)))) := by
  simp [visits, List.product, tasks, Curve.boxCells, taskAt, Interval.numbers, sumset, coordinates,
    List.map_flatMap, List.flatMap_map, Function.comp_def, List.flatMap_assoc]

end Share

namespace Layout

variable {layout : Layout}

/-- All tasks, as one share. -/
def whole (layout : Layout) : Share := ⟨⟨0, layout.mTasks⟩, ⟨0, layout.nTasks⟩, ⟨0, layout.ompTasks⟩⟩

/-- The shares of all threads make up the whole grid. -/
theorem flatMap_visits_perm
    (hthreads : 1 ≤ layout.threads.omp ∧ 1 ≤ layout.threads.m ∧ 1 ≤ layout.threads.n)
    (htasks : 0 ≤ layout.ompTasks ∧ 0 ≤ layout.mTasks ∧ 0 ≤ layout.nTasks) :
    ((List.range layout.threads.total).flatMap fun thread =>
        (layout.shareOf thread).visits layout.kTasks).Perm (layout.whole.visits layout.kTasks) := by
  -- in coordinates the visits of a share are a sum over the axes, and the shares of an axis are its
  -- cuts in order
  rw [← List.map_perm_map_iff Share.coordinates_injective, List.map_flatMap]
  simp only [Share.map_coordinates_visits]
  refine (sumset_threads_perm layout.threads [0] _
    (fun id => ((Share.between layout.threads.omp layout.ompTasks id).numbers.map
      fun i => ((i, 0, 0, 0) : Int × Int × Int × Int)))
    (fun id => ((Share.between layout.threads.m layout.mTasks id).numbers.map fun m => (0, m, 0, 0)))
    (fun id => ((Share.between layout.threads.n layout.nTasks id).numbers.map
      fun n => (0, 0, n, 0)))).trans ?_
  simp only [← List.map_flatMap, Share.flatMap_cuts hthreads.1 htasks.1,
    Share.flatMap_cuts hthreads.2.1 htasks.2.1, Share.flatMap_cuts hthreads.2.2 htasks.2.2]
  simp [whole, Interval.numbers, Interval.length]

/-! ## When a setup succeeds -/

theorem exists_share_iff {thread : Nat} :
    (∃ share, layout.share thread = .ok share) ↔
      (layout.shareOf thread).m.start < (layout.shareOf thread).m.stop ∧
        (layout.shareOf thread).n.start < (layout.shareOf thread).n.stop ∧
        (layout.shareOf thread).omp.start < (layout.shareOf thread).omp.stop := by
  constructor
  · rintro ⟨share, h⟩
    obtain ⟨rfl, hm, hn, homp⟩ := share_eq_ok h
    exact ⟨Int.lt_of_sub_pos hm, Int.lt_of_sub_pos hn, Int.lt_of_sub_pos homp⟩
  · rintro ⟨hm, hn, homp⟩
    obtain ⟨m, hm⟩ := Share.onAxis_isOk_iff.2 hm
    obtain ⟨n, hn⟩ := Share.onAxis_isOk_iff.2 hn
    obtain ⟨omp, homp⟩ := Share.onAxis_isOk_iff.2 homp
    exact ⟨⟨m, n, omp⟩, bind_eq_ok.2 ⟨m, hm, bind_eq_ok.2 ⟨n, hn, bind_eq_ok.2 ⟨omp, homp, rfl⟩⟩⟩⟩

/-- Every thread has tasks on all axes exactly if no axis has more threads than tasks. -/
theorem shares_exist_iff
    (hthreads : 1 ≤ layout.threads.omp ∧ 1 ≤ layout.threads.m ∧ 1 ≤ layout.threads.n) :
    (∀ thread < layout.threads.total, ∃ share, layout.share thread = .ok share) ↔
      (layout.threads.m : Int) ≤ layout.mTasks ∧ (layout.threads.n : Int) ≤ layout.nTasks ∧
        (layout.threads.omp : Int) ≤ layout.ompTasks := by
  obtain ⟨homp, hm, hn⟩ := hthreads
  rw [← Share.cuts_increase_iff hm, ← Share.cuts_increase_iff hn, ← Share.cuts_increase_iff homp]
  simp only [exists_share_iff]
  constructor
  · -- the threads with number zero on the other two axes
    intro h
    have hbox : layout.threads.m * layout.threads.n ≤ layout.threads.total := by
      rw [ThreadGrid.total, mul_assoc]
      exact Nat.le_mul_of_pos_left _ homp
    refine ⟨fun id hid => ?_, fun id hid => ?_, fun id hid => ?_⟩
    · have := (h id (hid.trans_le (le_trans (Nat.le_mul_of_pos_right _ hn) hbox))).1
      rwa [shareOf, Nat.mod_eq_of_lt hid] at this
    · have := (h (layout.threads.m * id)
        (((Nat.mul_lt_mul_left hm).2 hid).trans_le hbox)).2.1
      rwa [shareOf, Nat.mul_div_cancel_left _ hm, Nat.mod_eq_of_lt hid] at this
    · have hlt : layout.threads.m * (layout.threads.n * id) < layout.threads.total := by
        rw [ThreadGrid.total, ← mul_assoc, mul_assoc layout.threads.omp, mul_comm layout.threads.omp]
        exact (Nat.mul_lt_mul_left (Nat.mul_pos hm hn)).2 hid
      have := (h _ hlt).2.2
      rwa [shareOf, Nat.mul_div_cancel_left _ hm, Nat.mul_div_cancel_left _ hn] at this
  · rintro ⟨hcutM, hcutN, hcutOmp⟩ thread hthread
    exact ⟨hcutM _ (Nat.mod_lt _ hm), hcutN _ (Nat.mod_lt _ hn),
      hcutOmp _ (ThreadGrid.div_div_lt hthread)⟩

/-- Loops with iterations give every number digits, so every step has a code. -/
theorem exists_moveOn {indices : List Nat}
    (hindices : ∀ index ∈ indices, ∃ size, layout.sizeOf index = .ok size ∧ size ≠ 0)
    (direction id : Int) : ∃ code, layout.moveOn direction indices id = .ok code := by
  induction indices generalizing id with
  | nil => exact ⟨0, rfl⟩
  | cons index outer ih =>
      rw [List.forall_mem_cons] at hindices
      obtain ⟨⟨size, hsize, hne⟩, houter⟩ := hindices
      rw [moveOn, hsize]
      simp only [bind, Except.bind, remainder_eq_ok hne]
      split
      · exact ⟨_, rfl⟩
      · exact ih houter _

section Sound

variable (h : layout.Sound) (hsize : ∀ loop ∈ layout.loops, 1 ≤ loop.size)

include h hsize

theorem Sound.exists_moveBetween (old new : Task) :
    ∃ code, layout.moveBetween old new = .ok code := by
  have hmove : ∀ axis new old, ∃ code, layout.move (layout.sfcSpan axis) new old = .ok code := by
    intro axis new old
    refine exists_moveOn (fun index hindex => ?_) _ _
    have hlt := ((h.sfc axis).getD hindex).1
    refine ⟨layout.loops[index].size, by rw [sizeOf, entry_eq_ok hlt]; rfl, ?_⟩
    have := hsize _ (List.getElem_mem hlt)
    omega
  unfold moveBetween
  split
  · exact hmove .m _ _
  · split
    · exact hmove .n _ _
    · exact hmove .k _ _

theorem Sound.exists_movesOf (walk : List Task) : ∃ codes, layout.movesOf walk = .ok codes := by
  induction walk with
  | nil => exact ⟨[], rfl⟩
  | cons old rest ih =>
      cases rest with
      | nil => exact ⟨[0], rfl⟩
      | cons new rest =>
          obtain ⟨code, hcode⟩ := h.exists_moveBetween hsize old new
          obtain ⟨codes, hcodes⟩ := ih
          exact ⟨code :: codes, bind_eq_ok.2 ⟨code, hcode, bind_eq_ok.2 ⟨codes, hcodes, rfl⟩⟩⟩

theorem Sound.requireDigits_sfc : layout.requireDigits [layout.m, layout.n, layout.k] = .ok () := by
  have hspan : ∀ axis, ∀ radix ∈ layout.radices [] (layout.sfcSpan axis), radix.1 ≠ 0 := by
    intro axis radix hradix
    obtain ⟨index, hindex, rfl⟩ := List.mem_map.1 hradix
    have hlt := ((h.sfc axis).getD hindex).1
    rw [List.getD_eq_getElem?_getD, List.getElem?_eq_getElem hlt, Option.getD_some]
    have := hsize _ (List.getElem_mem hlt)
    dsimp only
    omega
  refine if_neg ?_
  simp only [List.any_eq_true, decide_eq_true_eq, not_exists, not_and]
  intro span hmem radix hradix
  obtain ⟨axis, rfl⟩ : ∃ axis, layout.sfcSpan axis = span := by
    rcases List.mem_cons.1 hmem with rfl | hmem
    · exact ⟨.m, rfl⟩
    rcases List.mem_cons.1 hmem with rfl | hmem
    · exact ⟨.n, rfl⟩
    · exact ⟨.k, (List.mem_singleton.1 hmem).symm⟩
  exact hspan axis radix hradix

/-- A thread with a share has work. -/
theorem Sound.exists_work_iff (table : StrideTable) (thread : Nat) :
    (∃ work, layout.work table thread = .ok work) ↔
      ∃ share, layout.share thread = .ok share := by
  constructor
  · rintro ⟨work, hwork⟩
    obtain ⟨share, hshare, -⟩ := bind_eq_ok.1 hwork
    exact ⟨share, hshare⟩
  · -- with iterations in every loop, neither the moves nor the digits can be refused
    rintro ⟨share, hshare⟩
    obtain ⟨moves, hmoves⟩ := h.exists_movesOf hsize (share.path layout.kTasks)
    exact ⟨_, bind_eq_ok.2 ⟨share, hshare, bind_eq_ok.2 ⟨moves, hmoves, bind_eq_ok.2
      ⟨_, bind_eq_ok.2 ⟨(), h.requireDigits_sfc hsize, rfl⟩, rfl⟩⟩⟩⟩

end Sound

/-- Every thread has work exactly if no axis has more threads than tasks. -/
theorem Sound.exists_works_iff (h : layout.Sound) (hsize : ∀ loop ∈ layout.loops, 1 ≤ loop.size)
    (hthreads : 1 ≤ layout.threads.omp ∧ 1 ≤ layout.threads.m ∧ 1 ≤ layout.threads.n)
    (table : StrideTable) :
    (∃ works, (List.range layout.threads.total).mapM (layout.work table) = .ok works) ↔
      (layout.threads.m : Int) ≤ layout.mTasks ∧ (layout.threads.n : Int) ≤ layout.nTasks ∧
        (layout.threads.omp : Int) ≤ layout.ompTasks := by
  rw [← shares_exist_iff hthreads]
  simp only [exists_mapM_iff, List.mem_range, h.exists_work_iff hsize]

/-! ## Other numbers of threads -/

/-- The layout for other numbers of threads. -/
def withThreads (layout : Layout) (grid : ThreadGrid) : Layout := { layout with threads := grid }

namespace Scan

/-- The scan for other numbers of threads. -/
def withThreads (scan : Scan) (grid : ThreadGrid) : Scan :=
  { scan with layout := scan.layout.withThreads grid }

variable (scan : Scan) (grid : ThreadGrid)

theorem omp_withThreads (index : Nat) (loop : Loop) :
    (scan.withThreads grid).omp index loop =
      (scan.omp index loop).map fun next => next.withThreads grid := by
  unfold omp
  split <;> rfl

theorem sfc_withThreads (index : Nat) (loop : Loop) :
    (scan.withThreads grid).sfc index loop =
      (scan.sfc index loop).map fun next => next.withThreads grid := by
  unfold sfc sfcLayout
  cases loop.axis with
  | n | m | k =>
      dsimp only
      rw [show (scan.withThreads grid).sfcRank = scan.sfcRank from rfl]
      split <;> rfl
  | _ => rfl

theorem step_withThreads (index : Nat) (loop : Loop) :
    (scan.withThreads grid).step index loop =
      (scan.step index loop).map fun next => next.withThreads grid := by
  unfold step
  rw [omp_withThreads, sfc_withThreads]
  -- the check of the index stands behind the steps of all modes
  have hnext : ∀ next : Except Error Scan,
      (do
        let next ← next.map fun next => next.withThreads grid
        if loop.isParallel && maxLoopIndex < index then
          .error (.parallelLayout index .indexTooLarge)
        else .ok next) =
      (do
        let next ← next
        if loop.isParallel && maxLoopIndex < index then
          .error (.parallelLayout index .indexTooLarge)
        else .ok next : Except Error Scan).map fun next => next.withThreads grid := by
    intro next
    cases next with
    | error e => rfl
    | ok next =>
        simp only [Except.map, bind, Except.bind]
        split <;> rfl
  cases loop.mode with
  | omp => exact hnext _
  | sfc => exact hnext _
  | seq => exact hnext (.ok scan)
  | prim => exact hnext (.ok scan)

theorem run_withThreads (index : Nat) (loops : List Loop) :
    (scan.withThreads grid).run index loops =
      (scan.run index loops).map fun next => next.withThreads grid := by
  induction loops generalizing scan index with
  | nil => rfl
  | cons loop rest ih =>
      rw [run, run, step_withThreads]
      cases scan.step index loop with
      | error e => rfl
      | ok next => exact ih next (index + 1)

theorem finish_withThreads :
    (scan.withThreads grid).finish = scan.finish.map fun layout => layout.withThreads grid := by
  unfold finish
  rw [show (scan.withThreads grid).sfcFirst = scan.sfcFirst from rfl]
  cases scan.sfcFirst with
  | none => simp only [apply_ite (Except.map _)]; rfl
  | some first => simp only [apply_ite (Except.map _)]; rfl

end Scan

/-- Which parallel loops a layout finds does not depend on the numbers of threads. -/
theorem ofLoops_withThreads (loops : List Loop) (threads threads' : ThreadGrid) :
    Layout.ofLoops loops threads' = (Layout.ofLoops loops threads).map fun layout =>
      layout.withThreads threads'.atLeastOne := by
  unfold Layout.ofLoops
  have hrun := Scan.run_withThreads { layout := { loops := loops, threads := threads.atLeastOne } }
    threads'.atLeastOne 0 loops
  rw [show Scan.withThreads { layout := { loops := loops, threads := threads.atLeastOne } }
    threads'.atLeastOne = { layout := { loops := loops, threads := threads'.atLeastOne } } from rfl]
    at hrun
  rw [hrun]
  cases Scan.run { layout := { loops := loops, threads := threads.atLeastOne } } 0 loops with
  | error e => rfl
  | ok scan => exact scan.finish_withThreads _

/-! ## What the threads visit -/

/-- What the threads visit together: each goes through its walk for every number of its interval. -/
def visitsOf (works : List Work) (walks : List (List Task)) : List (Int × Task) :=
  (List.zipWith (fun work walk => work.omp.numbers.product walk) works walks).flatten

/-- The works and the walks of all threads share out the grid of tasks. -/
structure Partitions (layout : Layout) (works : List Work) (walks : List (List Task)) : Prop where
  traversals : List.Forall₂ (fun thread walk => layout.traversal thread = .ok walk)
    (List.range layout.threads.total) walks
  once : (visitsOf works walks).Nodup
  all : ∀ id task, (id, task) ∈ visitsOf works walks ↔
    (0 ≤ id ∧ id < layout.ompTasks) ∧ layout.HasTask task
  starts : List.Forall₂ (fun work walk => walk.head? = some ⟨work.beginM, work.beginN, 0⟩)
    works walks
  steps : ∀ walk ∈ walks, walk.IsChain Task.Adjacent

/-- The walk of a thread. -/
def walkOf (layout : Layout) (thread : Nat) : List Task :=
  (layout.shareOf thread).path layout.kTasks

/-- The work of a thread is that of its share: from the corner of its box, its moves lead along its
walk. -/
structure WorksAs (layout : Layout) (table : StrideTable) (thread : Nat) (work : Work) : Prop where
  share : layout.share thread = .ok (layout.shareOf thread)
  m_pos : 0 < (layout.shareOf thread).m.length
  n_pos : 0 < (layout.shareOf thread).n.length
  omp_pos : 0 < (layout.shareOf thread).omp.length
  moves : layout.movesOf (layout.walkOf thread) = .ok work.moves
  offset : work.offset = layout.sfcOffset table
    ⟨(layout.shareOf thread).m.start, (layout.shareOf thread).n.start, 0⟩
  omp : work.omp = (layout.shareOf thread).omp
  beginM : work.beginM = (layout.shareOf thread).m.start
  beginN : work.beginN = (layout.shareOf thread).n.start
  sizeM : work.sizeM = (layout.shareOf thread).m.length
  sizeN : work.sizeN = (layout.shareOf thread).n.length
  sizeK : work.sizeK = layout.kTasks

theorem work_eq_ok {table : StrideTable} {thread : Nat} {work : Work}
    (h : layout.work table thread = .ok work) : layout.WorksAs table thread work := by
  obtain ⟨share, hshare, h⟩ := bind_eq_ok.1 h
  obtain ⟨moves, hmoves, h⟩ := bind_eq_ok.1 h
  obtain ⟨offset, hoffset, h⟩ := bind_eq_ok.1 h
  obtain rfl := pure_eq_ok.1 h
  obtain ⟨rfl, hm, hn, homp⟩ := share_eq_ok hshare
  obtain ⟨-, -, hoffset⟩ := bind_eq_ok.1 hoffset
  exact ⟨hshare, hm, hn, homp, hmoves, (pure_eq_ok.1 hoffset).symm, rfl, rfl, rfl, rfl, rfl, rfl⟩

theorem visitsOf_map {threads : List Nat} {works : List Work}
    (h : List.Forall₂ (fun thread work => work.omp = (layout.shareOf thread).omp) threads works) :
    visitsOf works (threads.map layout.walkOf) = threads.flatMap fun thread =>
      (layout.shareOf thread).omp.numbers.product (layout.walkOf thread) := by
  rw [visitsOf]
  induction h with
  | nil => rfl
  | cons homp _ ih => rw [List.map_cons, List.zipWith_cons_cons, List.flatten_cons, ih, homp,
      List.flatMap_cons]

/-- A task of the box of a thread is a task of the curve. -/
theorem Sound.hasTask (h : layout.Sound) (hsize : ∀ loop ∈ layout.loops, 1 ≤ loop.size)
    (hthreads : 1 ≤ layout.threads.m ∧ 1 ≤ layout.threads.n) {thread : Nat} {task : Task}
    (htask : task ∈ (layout.shareOf thread).tasks layout.kTasks) : layout.HasTask task := by
  obtain ⟨cell, hcell, rfl⟩ := List.mem_map.1 htask
  obtain ⟨hx, hy, hz⟩ := Curve.mem_boxCells.1 hcell
  obtain ⟨hm, hn⟩ := hthreads
  exact ⟨Share.mem_between hm (Int.le_of_lt (h.tasks_pos hsize .m)) (Nat.mod_lt _ hm) hx,
    Share.mem_between hn (Int.le_of_lt (h.tasks_pos hsize .n)) (Nat.mod_lt _ hn) hy, hz⟩

/-- Threads that have their work share out the grid. -/
theorem Sound.partitions (h : layout.Sound) (hsize : ∀ loop ∈ layout.loops, 1 ≤ loop.size)
    (hthreads : 1 ≤ layout.threads.omp ∧ 1 ≤ layout.threads.m ∧ 1 ≤ layout.threads.n)
    {table : StrideTable} {works : List Work}
    (hworks : List.Forall₂ (fun thread work => layout.work table thread = .ok work)
      (List.range layout.threads.total) works) :
    layout.Partitions works ((List.range layout.threads.total).map layout.walkOf) := by
  have hwork := hworks.imp fun _ _ => work_eq_ok
  have htasks : 0 ≤ layout.ompTasks ∧ 0 ≤ layout.mTasks ∧ 0 ≤ layout.nTasks :=
    ⟨Int.le_of_lt (h.ompTasks_pos hsize), Int.le_of_lt (h.tasks_pos hsize .m),
      Int.le_of_lt (h.tasks_pos hsize .n)⟩
  have hbox : ∀ thread ∈ List.range layout.threads.total,
      ∃ work, layout.work table thread = .ok work :=
    exists_mapM_iff.1 ⟨works, mapM_eq_ok.2 hworks⟩
  -- a walk is a rearrangement of the tasks of its share, and the shares make up the grid
  have hperm : (visitsOf works ((List.range layout.threads.total).map layout.walkOf)).Perm
      (layout.whole.visits layout.kTasks) := by
    rw [visitsOf_map (hwork.imp fun _ _ hw => hw.omp)]
    refine List.Perm.trans ?_ (flatMap_visits_perm hthreads htasks)
    refine List.Perm.flatMap_left _ fun thread hthread => ?_
    obtain ⟨work, hwork⟩ := hbox thread hthread
    have hfacts := work_eq_ok hwork
    exact (List.Perm.refl _).product (Share.path_perm hfacts.m_pos.le hfacts.n_pos.le)
  refine ⟨?_, hperm.nodup_iff.2 (Share.nodup_visits _ _), fun id task => ?_, ?_, ?_⟩
  · rw [List.forall₂_map_right_iff, List.forall₂_same]
    intro thread hthread
    obtain ⟨work, hwork⟩ := hbox thread hthread
    exact bind_eq_ok.2 ⟨_, (work_eq_ok hwork).share, rfl⟩
  · rw [hperm.mem_iff, Share.visits, List.pair_mem_product, Share.mem_tasks]
    simp [whole, Interval.numbers, Interval.length, mem_upTo, HasTask]
  · -- a walk starts in the corner of its share
    rw [List.forall₂_map_right_iff]
    refine hwork.flip.imp fun work thread hfacts => ?_
    obtain ⟨rest, hrest⟩ := Share.path_head hfacts.m_pos hfacts.n_pos (h.tasks_pos hsize .k)
    rw [walkOf, show layout.kTasks = layout.sfcTasks .k from rfl, hrest, hfacts.beginM,
      hfacts.beginN]
    rfl
  · intro walk hwalk
    obtain ⟨thread, hthread, rfl⟩ := List.mem_map.1 hwalk
    obtain ⟨work, hwork⟩ := hbox thread hthread
    have hfacts := work_eq_ok hwork
    exact Share.path_isChain _ hfacts.m_pos hfacts.n_pos

/-- A setup succeeds exactly if no axis has more threads than tasks. The threads then share out the
grid of tasks, and otherwise the table stays as it was. -/
theorem setupInPlace_partitions {loops : List Loop} {threads : ThreadGrid} {layout : Layout}
    (hlayout : Layout.ofLoops loops threads = .ok layout) (hsize : ∀ loop ∈ loops, 1 ≤ loop.size)
    (table : StrideTable) :
    ((∃ works, (layout.setupInPlace.run table).1 = .ok works) ↔
      (threads.atLeastOne.m : Int) ≤ layout.mTasks ∧ (threads.atLeastOne.n : Int) ≤ layout.nTasks ∧
        (threads.atLeastOne.omp : Int) ≤ layout.ompTasks) ∧
    (∀ works, (layout.setupInPlace.run table).1 = .ok works →
      ∃ walks, layout.Partitions works walks) ∧
    ∀ e, (layout.setupInPlace.run table).1 = .error e →
      (layout.setupInPlace.run table).2 = table := by
  obtain ⟨hsound, rfl, hgrid⟩ := ofLoops_sound hlayout
  have hthreads : 1 ≤ layout.threads.omp ∧ 1 ≤ layout.threads.m ∧ 1 ≤ layout.threads.n := by
    simp [hgrid, ThreadGrid.atLeastOne]
  rw [setupInPlace_run, ← hgrid, ← hsound.exists_works_iff hsize hthreads table]
  cases hworks : (List.range layout.threads.total).mapM (layout.work table) with
  | ok works =>
      refine ⟨by simp, fun works' heq => ?_, by simp⟩
      obtain rfl := Except.ok.inj heq
      exact ⟨_, hsound.partitions hsize hthreads (mapM_eq_ok.1 hworks)⟩
  | error e => simp

end Layout

/-- Two batches shared by two threads; four column blocks, shared by two threads, and three row
blocks, with two steps of the reduction on the curve. -/
def gridNest : List Loop :=
  [⟨.c, .omp, 2, ⟨24, 16, 12, 12⟩, 0, 0⟩, ⟨.n, .sfc, 4, ⟨0, 4, 3, 3⟩, 0, 0⟩,
    ⟨.m, .sfc, 3, ⟨2, 0, 1, 1⟩, 0, 0⟩, ⟨.k, .sfc, 2, ⟨1, 2, 0, 0⟩, 0, 0⟩]

/-- A thread count of zero stands for one thread, and four threads share out 48 tasks. -/
theorem setupInPlace_partitions_gridNest :
    ∃ layout, Layout.ofLoops gridNest ⟨2, 0, 2⟩ = .ok layout ∧
      (∃ works, (layout.setupInPlace.run (strideTable gridNest)).1 = .ok works) ∧
      ∀ works, (layout.setupInPlace.run (strideTable gridNest)).1 = .ok works →
        ∃ walks, layout.Partitions works walks := by
  have hlayout : Layout.ofLoops gridNest ⟨2, 0, 2⟩ = .ok
      { loops := gridNest, threads := ⟨2, 1, 2⟩, omp := ⟨0, 1⟩, n := ⟨1, 2⟩, m := ⟨2, 3⟩, k := ⟨3, 4⟩,
        ompTasks := 2, nTasks := 4, mTasks := 3, kTasks := 2 } := rfl
  obtain ⟨hsucceeds, hpartitions, -⟩ :=
    Layout.setupInPlace_partitions hlayout (by decide) (strideTable gridNest)
  exact ⟨_, hlayout, hsucceeds.2 (by decide), hpartitions⟩

end LoopNest
