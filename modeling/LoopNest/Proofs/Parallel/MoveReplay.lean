import LoopNest.Proofs.Parallel.TaskPartition

/-!
# Replaying the moves of a setup

A setup hands every thread an offset and the codes of its moves, and it leaves step offsets in the
table where the strides of the loops on the curve were. A code names a loop and a direction, and the
thread adds the step offset of the loop or subtracts it (`advance`).

However the digits of the mixed radix carry, the way back of the inner loops is part of the step
offset, so the offset after any number of moves is the one that the old table gives for the task that
the walk has reached (`Sound.replay_movesOf`). A launch walks in the same way, from wherever its
cursor stands (`Program.stops_cursor`).
-/

namespace LoopNest

/-- The offset after a move. The code names a loop, and its lowest bit says whether the step offset of
the loop is added or subtracted. -/
def advance (steps : StrideTable) (offset : Operands Int) (code : Nat) : Operands Int :=
  if code % 2 = 0 then offset + steps.getD (code / 2) 0 else offset - steps.getD (code / 2) 0

/-- The offset after the moves with the given codes. -/
def replay (steps : StrideTable) (offset : Operands Int) (codes : List Nat) : Operands Int :=
  codes.foldl (advance steps) offset

theorem advance_eq (steps : StrideTable) (offset : Operands Int) (code : Nat) :
    advance steps offset code =
      offset + (steps.getD (code / 2) 0).scale (Layout.directionOf code) := by
  rcases Nat.mod_two_eq_zero_or_one code with hbit | hbit
  · rw [advance, if_pos hbit, Layout.directionOf, if_neg (by omega), ← Operands.zsmul_eq_scale,
      one_zsmul]
  · rw [advance, if_neg (by omega), Layout.directionOf, if_pos hbit, ← Operands.zsmul_eq_scale,
      neg_one_zsmul, sub_eq_add_neg]

namespace Layout

variable {layout : Layout}

/-- A walk has a code for every task. -/
theorem length_movesOf {walk : List Task} {codes : List Nat}
    (h : layout.movesOf walk = .ok codes) : codes.length = walk.length := by
  induction walk generalizing codes with
  | nil =>
      obtain rfl := Except.ok.inj h
      rfl
  | cons old rest ih =>
      cases rest with
      | nil =>
          obtain rfl := Except.ok.inj h
          rfl
      | cons new rest =>
          obtain ⟨code, -, h⟩ := bind_eq_ok.1 h
          obtain ⟨codes', hcodes', h⟩ := bind_eq_ok.1 h
          obtain rfl := pure_eq_ok.1 h
          rw [List.length_cons, ih hcodes', List.length_cons (a := old)]

theorem length_stepTable (table : StrideTable) :
    (layout.stepTable table).length = table.length := by
  simp only [stepTable, List.foldl_cons, List.foldl_nil, length_stepTableOn]

section Moves

variable (h : layout.Sound) (hsize : ∀ loop ∈ layout.loops, 1 ≤ loop.size) {table : StrideTable}
  (htable : ∀ index, (layout.loops.getD index .unit).mode = .sfc → index < table.length)

include h hsize htable

/-- One move leads from the offset of a task to the offset of its neighbour. -/
theorem Sound.advance_moveBetween {old new : Task} (hadjacent : old.Adjacent new)
    (hold : layout.HasTask old) (hnew : layout.HasTask new) {code : Nat}
    (hcode : layout.moveBetween old new = .ok code) :
    advance (layout.stepTable table) (layout.sfcOffset table old) code =
      layout.sfcOffset table new := by
  obtain ⟨code', hcode', hoffset, -⟩ := h.moveBetween_spec hsize htable hadjacent hold hnew
  obtain rfl := Except.ok.inj (hcode'.symm.trans hcode)
  rw [advance_eq, hoffset, add_sub_cancel]

/-- The moves of a walk lead from task to task. -/
theorem Sound.replay_movesOf {first : Task} {rest : List Task} {codes : List Nat}
    (hchain : (first :: rest).IsChain Task.Adjacent)
    (htasks : ∀ task ∈ first :: rest, layout.HasTask task)
    (hcodes : layout.movesOf (first :: rest) = .ok codes) {step : Nat} {task : Task}
    (hstep : (first :: rest)[step]? = some task) :
    replay (layout.stepTable table) (layout.sfcOffset table first) (codes.take step) =
      layout.sfcOffset table task := by
  -- on the walk: after the first move, the rest of it is replayed from the second task
  induction rest generalizing first codes step with
  | nil =>
      cases step with
      | zero =>
          obtain rfl := Option.some.inj hstep
          rfl
      | succ step => cases hstep
  | cons second rest ih =>
      cases step with
      | zero =>
          obtain rfl := Option.some.inj hstep
          rfl
      | succ step =>
          obtain ⟨hadjacent, hchain⟩ := List.isChain_cons_cons.1 hchain
          rw [List.forall_mem_cons] at htasks
          obtain ⟨code, hcode, hcodes⟩ := bind_eq_ok.1 hcodes
          obtain ⟨codes', hcodes', hcodes⟩ := bind_eq_ok.1 hcodes
          obtain rfl := pure_eq_ok.1 hcodes
          rw [List.take_succ_cons, replay, List.foldl_cons,
            h.advance_moveBetween hsize htable hadjacent htasks.1
              (htasks.2 second List.mem_cons_self) hcode]
          exact ih hchain htasks.2 hcodes' hstep

/-- The moves of a thread lead through its walk, from the offset of the thread on. -/
theorem Sound.replay_work (hthreads : 1 ≤ layout.threads.m ∧ 1 ≤ layout.threads.n)
    {thread : Nat} {work : Work} (hwork : layout.work table thread = .ok work) {step : Nat}
    {task : Task} (hstep : (layout.walkOf thread)[step]? = some task) :
    replay (layout.stepTable table) work.offset (work.moves.take step) =
      layout.sfcOffset table task := by
  obtain ⟨-, hm, hn, -, hmoves, hoffset, -⟩ := work_eq_ok hwork
  have hchain : (layout.walkOf thread).IsChain Task.Adjacent := Share.path_isChain _ hm hn
  have htasks : ∀ task ∈ layout.walkOf thread, layout.HasTask task := fun task htask =>
    h.hasTask hsize hthreads ((Share.path_perm hm.le hn.le).mem_iff.1 htask)
  obtain ⟨rest, hrest⟩ := Share.path_head hm hn (h.tasks_pos hsize .k)
  have hwalk : layout.walkOf thread =
      ⟨(layout.shareOf thread).m.start, (layout.shareOf thread).n.start, 0⟩ :: rest := hrest
  rw [hwalk] at hmoves hchain htasks hstep
  rw [hoffset]
  exact h.replay_movesOf hsize htable hchain htasks hmoves hstep

end Moves

/-- After a setup that succeeds, replaying the first moves of a thread on the new table leads from
its offset to the offset that the old table gives for the task reached; strides of loops that are
not on the curve are left alone. The table has a stride for every loop on the curve, as a setup reads
them all. -/
theorem replay_setup {loops : List Loop} {threads : ThreadGrid} {layout : Layout}
    (hlayout : Layout.ofLoops loops threads = .ok layout) (hsize : ∀ loop ∈ loops, 1 ≤ loop.size)
    {table : StrideTable} (htable : ∀ index, (loops.getD index .unit).mode = .sfc →
      index < table.length) {works : List Work} {next : StrideTable}
    (hsetup : layout.setup table = .ok (works, next)) :
    works.length = layout.threads.total ∧
    (∀ thread < layout.threads.total, ∃ work walk, works[thread]? = some work ∧
      layout.traversal thread = .ok walk ∧ work.moves.length = walk.length ∧
      ∀ step task, walk[step]? = some task →
        layout.checkedSfcOffset table task =
          .ok (replay next work.offset (work.moves.take step))) ∧
    next.length = table.length ∧
    ∀ index, (loops.getD index .unit).mode ≠ .sfc → next.getD index 0 = table.getD index 0 := by
  obtain ⟨hsound, rfl, hgrid⟩ := ofLoops_sound hlayout
  have hthreads : 1 ≤ layout.threads.m ∧ 1 ≤ layout.threads.n := by
    simp [hgrid, ThreadGrid.atLeastOne]
  rw [setup_eq] at hsetup
  obtain ⟨works', hworks, hsetup⟩ := bind_eq_ok.1 hsetup
  obtain ⟨rfl, rfl⟩ := Prod.mk.inj (pure_eq_ok.1 hsetup)
  have hlength := (mapM_eq_ok.1 hworks).length_eq
  rw [List.length_range] at hlength
  refine ⟨hlength.symm, fun thread hthread => ?_, length_stepTable table,
    fun index hindex => hsound.getD_stepTable_of_not_sfc hindex table⟩
  -- the work of a thread refers to the table as it was before any stride was written
  have hwork := (List.forall₂_iff_get.1 (mapM_eq_ok.1 hworks)).2 thread
    (by simpa using hthread) (hlength ▸ hthread)
  simp only [List.get_eq_getElem, List.getElem_range] at hwork
  refine ⟨_, layout.walkOf thread, List.getElem?_eq_getElem (hlength ▸ hthread),
    bind_eq_ok.2 ⟨_, (work_eq_ok hwork).share, rfl⟩, length_movesOf (work_eq_ok hwork).moves,
    fun step task hstep => ?_⟩
  rw [checkedSfcOffset, hsound.requireDigits_sfc hsize,
    hsound.replay_work hsize htable hthreads hwork hstep]
  rfl

end Layout

/-- A walk of a launch replays the codes: wherever its cursor comes from, it stands at the replayed
offset at every stop. -/
theorem Program.stops_cursor (program : Program) (cursor : Cursor) (offset : Operands Int)
    (m n : Int) (codes : List Nat) :
    (program.stops ⟨cursor.move offset, m, n⟩ codes).map Stop.cursor =
      (List.range codes.length).map fun step =>
        cursor.move (replay program.strides offset (codes.take step)) := by
  induction codes generalizing offset m n with
  | nil => rfl
  | cons code codes ih =>
      have hnext : (program.nextStop ⟨cursor.move offset, m, n⟩ code).cursor =
          cursor.move (advance program.strides offset code) := by
        rw [advance_eq, ← Cursor.move_move]
        rfl
      rw [stops, List.map_cons, List.length_cons, List.range_succ_eq_map, List.map_cons,
        List.map_map]
      congr 1
      rw [show program.nextStop ⟨cursor.move offset, m, n⟩ code =
        ⟨cursor.move (advance program.strides offset code), _, _⟩ from
          congrArg (fun c => Stop.mk c _ _) hnext, ih]
      rfl

/-- A curve whose M digits carry over a loop of one iteration, with two K loops further in. -/
def carryNest : List Loop :=
  [⟨.c, .seq, 2, 0, 0, 0⟩, ⟨.n, .sfc, 2, 0, 0, 0⟩, ⟨.m, .sfc, 2, 0, 0, 0⟩, ⟨.m, .sfc, 1, 0, 0, 0⟩,
    ⟨.m, .sfc, 3, 0, 0, 0⟩, ⟨.k, .sfc, 2, 0, 0, 0⟩, ⟨.k, .sfc, 2, 0, 0, 0⟩]

/-- Strides for `carryNest`; the right input runs backwards along N. -/
def carryTable : StrideTable :=
  [⟨100, 50, 1, 1⟩, ⟨0, -4, 30, 30⟩, ⟨7, 0, 15, 15⟩, ⟨9, 0, 0, 2⟩, ⟨2, 0, 5, 5⟩, ⟨20, 3, 0, 0⟩,
    ⟨1, 1, 0, 0⟩]

/-- Two threads replay their walks on step offsets that differ from the strides. -/
theorem replay_setup_carryNest :
    ∃ layout works next, Layout.ofLoops carryNest ⟨0, 2, 1⟩ = .ok layout ∧
      layout.setup carryTable = .ok (works, next) ∧ next ≠ carryTable ∧
      layout.threads.total = 2 ∧
      (∀ thread < layout.threads.total, ∃ work walk, works[thread]? = some work ∧
        layout.traversal thread = .ok walk ∧ work.moves.length = walk.length ∧
        ∀ step task, walk[step]? = some task →
          layout.checkedSfcOffset carryTable task =
            .ok (replay next work.offset (work.moves.take step))) ∧
      next.getD 0 0 = ⟨100, 50, 1, 1⟩ := by
  have hlayout : Layout.ofLoops carryNest ⟨0, 2, 1⟩ = .ok
      { loops := carryNest, threads := ⟨1, 2, 1⟩, n := ⟨1, 2⟩, m := ⟨2, 5⟩, k := ⟨5, 7⟩,
        ompTasks := 1, nTasks := 2, mTasks := 6, kTasks := 4 } := rfl
  have hsize : ∀ loop ∈ carryNest, 1 ≤ loop.size := by decide
  obtain ⟨hsound, -⟩ := Layout.ofLoops_sound hlayout
  obtain ⟨works, hworks⟩ :=
    (hsound.exists_works_iff hsize (by decide) carryTable).2 (by decide)
  have hsetup := (Layout.setup_eq _ carryTable).trans (bind_eq_ok.2 ⟨works, hworks, rfl⟩)
  have htable : ∀ index, (carryNest.getD index .unit).mode = .sfc → index < carryTable.length :=
    fun _ hmode => Layout.lt_length_of_mode_sfc hmode
  obtain ⟨-, hreplay, -, hothers⟩ := Layout.replay_setup hlayout hsize htable hsetup
  exact ⟨_, works, _, hlayout, hsetup, by decide, rfl, hreplay, hothers 0 (by decide)⟩

end LoopNest
