import LoopNest.Launch.Thread
import LoopNest.Proofs.Parallel.BoxWalk
import LoopNest.Proofs.Parallel.MixedRadix

/-!
# Replaying a walk

A walk is stored as one byte for each step. Replaying the bytes on the step offsets visits the tasks
of the walk: at every stop the cursor has moved by the difference of the task offsets, and the
positions are those of the task in the box (`Program.stops_eq`).

One step is `Layout.Sound.moveBetween_spec`: its byte names a loop of the axis that changes, with the
direction of the change, and the step offset of that loop is the difference of the offsets.
-/

namespace LoopNest

namespace Span

theorem mem_inward {span : Span} {index : Nat} :
    index ∈ span.inward ↔ span.start ≤ index ∧ index < span.stop := by
  rw [inward, List.mem_reverse, List.mem_range'_1, length]
  omega

theorem nodup_inward (span : Span) : span.inward.Nodup :=
  List.nodup_reverse.2 List.nodup_range'

/-- The loops at the indices of a marked span have the marked property. -/
theorem Marks.getD {span : Span} {p : Loop → Bool} {loops : List Loop} (h : span.Marks p loops)
    {index : Nat} (hindex : index ∈ span.inward) :
    index < loops.length ∧ p (loops.getD index .unit) = true := by
  have hstop := h.stop_le
  refine ⟨(mem_inward.1 hindex).2.trans_le hstop, h.inside _ ?_⟩
  rw [← Layout.map_getD_range' loops hstop]
  exact List.mem_map_of_mem (List.mem_reverse.1 hindex)

end Span

namespace Layout

variable {layout : Layout}

/-! ## Step tables of different axes -/

/-- Behind the end of a list there is no SFC loop. -/
theorem lt_length_of_mode_sfc {loops : List Loop} {index : Nat}
    (hmode : (loops.getD index .unit).mode = .sfc) : index < loops.length := by
  by_contra hge
  rw [List.getD_eq_getElem?_getD, List.getElem?_eq_none (Nat.not_lt.1 hge)] at hmode
  cases hmode

/-- The indices of an axis of the curve are those of SFC loops of that axis. -/
theorem Sound.kind_of_mem_inward (h : layout.Sound) {axis : Axis} {index : Nat}
    (hindex : index ∈ (layout.sfcSpan axis).inward) :
    index < layout.loops.length ∧ (layout.loops.getD index .unit).mode = .sfc ∧
      (layout.loops.getD index .unit).axis = axis := by
  obtain ⟨hlt, hsfc⟩ := (h.sfc axis).getD hindex
  simp only [Loop.isSfcOn, Loop.isSfc, Bool.and_eq_true, decide_eq_true_eq] at hsfc
  exact ⟨hlt, hsfc⟩

theorem Sound.notMem_inward (h : layout.Sound) {axis other : Axis} (hne : axis ≠ other)
    {index : Nat} (hindex : index ∈ (layout.sfcSpan axis).inward) :
    index ∉ (layout.sfcSpan other).inward := by
  intro hother
  have haxis := (h.kind_of_mem_inward hindex).2.2
  have haxis' := (h.kind_of_mem_inward hother).2.2
  exact hne (haxis.symm.trans haxis')

/-- Entries outside the SFC spans stay as they are. -/
theorem getD_stepTable_of_notMem {index : Nat}
    (hindex : ∀ axis, index ∉ (layout.sfcSpan axis).inward) (table : StrideTable) :
    (layout.stepTable table).getD index 0 = table.getD index 0 := by
  show (layout.stepTableOn (layout.sfcSpan .k).inward 0 (layout.stepTableOn
    (layout.sfcSpan .n).inward 0 (layout.stepTableOn (layout.sfcSpan .m).inward 0 table))).getD
      index 0 = _
  rw [getD_stepTableOn_of_notMem (hindex .k), getD_stepTableOn_of_notMem (hindex .n),
    getD_stepTableOn_of_notMem (hindex .m)]

/-- Loops that are not on the curve keep their strides. -/
theorem Sound.getD_stepTable_of_not_sfc (h : layout.Sound) {index : Nat}
    (hindex : (layout.loops.getD index .unit).mode ≠ .sfc) (table : StrideTable) :
    (layout.stepTable table).getD index 0 = table.getD index 0 :=
  getD_stepTable_of_notMem (fun _ hmem => hindex (h.kind_of_mem_inward hmem).2.1) table

/-- The step offsets of an axis are those that it would have alone. -/
theorem Sound.getD_stepTable (h : layout.Sound) {axis : Axis}
    (haxis : axis = .m ∨ axis = .n ∨ axis = .k) {table : StrideTable}
    (htable : ∀ index, (layout.loops.getD index .unit).mode = .sfc → index < table.length)
    {index : Nat}
    (hindex : index ∈ (layout.sfcSpan axis).inward) :
    (layout.stepTable table).getD index 0 =
      (layout.stepTableOn (layout.sfcSpan axis).inward 0 table).getD index 0 := by
  have hrange : ∀ i ∈ (layout.sfcSpan axis).inward, i < table.length := fun i hi =>
    htable i (h.kind_of_mem_inward hi).2.1
  show (layout.stepTableOn (layout.sfcSpan .k).inward 0 (layout.stepTableOn
    (layout.sfcSpan .n).inward 0 (layout.stepTableOn (layout.sfcSpan .m).inward 0 table))).getD
      index 0 = _
  rcases haxis with rfl | rfl | rfl
  · rw [getD_stepTableOn_of_notMem (h.notMem_inward (by decide) hindex),
      getD_stepTableOn_of_notMem (h.notMem_inward (by decide) hindex)]
  · rw [getD_stepTableOn_of_notMem (h.notMem_inward (by decide) hindex)]
    exact getD_stepTableOn_congr (Span.nodup_inward _) (length_stepTableOn _ _ _)
      (by simpa [length_stepTableOn] using hrange)
      (fun i hi => getD_stepTableOn_of_notMem (h.notMem_inward (by decide) hi) _ _) _ hindex
  · refine getD_stepTableOn_congr (Span.nodup_inward _)
      (by rw [length_stepTableOn, length_stepTableOn])
      (by simpa [length_stepTableOn] using hrange) (fun i hi => ?_) _ hindex
    rw [getD_stepTableOn_of_notMem (h.notMem_inward (by decide) hi),
      getD_stepTableOn_of_notMem (h.notMem_inward (by decide) hi)]

/-! ## Codes -/

/-- The direction that a code stands for. -/
def directionOf (code : Nat) : Int := if code % 2 = 1 then -1 else 1

theorem moveCode_forward {index : Nat} (h : index ≤ maxLoopIndex) :
    moveCode index 0 / 2 = index ∧ directionOf (moveCode index 0) = 1 := by
  have hcode : moveCode index 0 = 2 * index := by
    have h127 : index ≤ 127 := h
    simp [moveCode, Nat.mod_eq_of_lt (show 2 * index < 256 by omega)]
  rw [hcode, directionOf, if_neg (by omega)]
  exact ⟨by omega, rfl⟩

theorem moveCode_backward {index : Nat} (h : index ≤ maxLoopIndex) :
    moveCode index 1 / 2 = index ∧ directionOf (moveCode index 1) = -1 := by
  have hcode : moveCode index 1 = 2 * index + 1 := by
    have h127 : index ≤ 127 := h
    have hor := Nat.shiftLeft_add_eq_or_of_lt (show 1 < 2 ^ 1 by decide) index
    rw [Nat.shiftLeft_eq, pow_one, mul_comm] at hor
    rw [moveCode, Nat.mod_eq_of_lt (show 2 * index < 256 by omega)]
    exact hor.symm
  rw [hcode, directionOf, if_pos (by omega)]
  exact ⟨by omega, rfl⟩

theorem mem_axes_of_sfc {axis : Axis} {index : Nat}
    (hindex : index ∈ (layout.sfcSpan axis).inward) : axis = .m ∨ axis = .n ∨ axis = .k := by
  cases axis <;> simp_all [sfcSpan, Span.mem_inward]

/-- Number of tasks of a span, digit by digit. -/
theorem Sound.prod_radices (h : layout.Sound) (table : StrideTable) (axis : Axis) :
    ((layout.radicesAt table (layout.sfcSpan axis).inward).map Prod.fst).prod =
      layout.sfcTasks axis := by
  -- sizes come from the loops, so the strides of the loops themselves will do
  have hsizes : (layout.radicesAt table (layout.sfcSpan axis).inward).map Prod.fst =
      (layout.radices (strideTable layout.loops) (layout.sfcSpan axis)).map Prod.fst := by
    simp [radicesAt, radices]
  rw [hsizes, layout.radices_eq (strideTable layout.loops) (h.sfc axis).stop_le fun _ _ => rfl,
    digitsOf, h.sfcTasks, sizeWhere_eq_prod, (h.sfc axis).filter_eq, List.map_map,
    List.map_reverse, List.prod_reverse]
  rfl

/-- The tasks of the curve. -/
def HasTask (layout : Layout) (task : Task) : Prop :=
  (0 ≤ task.m ∧ task.m < layout.mTasks) ∧ (0 ≤ task.n ∧ task.n < layout.nTasks) ∧
    0 ≤ task.k ∧ task.k < layout.kTasks

section Moves

variable (h : layout.Sound) (hsize : ∀ loop ∈ layout.loops, 1 ≤ loop.size) {table : StrideTable}
  (htable : ∀ index, (layout.loops.getD index .unit).mode = .sfc → index < table.length)

include h hsize htable

/-- The code of a step on one axis: it names a loop of the axis and the direction, and the step
offset of the loop is the difference of the offsets. -/
theorem Sound.move_spec (axis : Axis) {old new : Int} (hstep : new = old + 1 ∨ new = old - 1)
    (hold : 0 ≤ old ∧ old < layout.sfcTasks axis) (hnew : 0 ≤ new ∧ new < layout.sfcTasks axis) :
    ∃ code, layout.move (layout.sfcSpan axis) new old = .ok code ∧
      layout.axisOf (code / 2) = axis ∧ directionOf code = new - old ∧
      ((layout.stepTable table).getD (code / 2) 0).scale (directionOf code) =
        layout.offsetOn table (layout.sfcSpan axis) new -
          layout.offsetOn table (layout.sfcSpan axis) old := by
  have hrange : ∀ index ∈ (layout.sfcSpan axis).inward, index < layout.loops.length ∧
      index < table.length := fun index hindex =>
    ⟨(h.kind_of_mem_inward hindex).1, htable index (h.kind_of_mem_inward hindex).2.1⟩
  have hpos : ∀ index ∈ (layout.sfcSpan axis).inward,
      1 ≤ (layout.loops.getD index .unit).size := fun index hindex => by
    rw [List.getD_eq_getElem?_getD, List.getElem?_eq_getElem (hrange index hindex).1]
    exact hsize _ (List.getElem_mem _)
  have hloop : ∀ {index}, index ∈ (layout.sfcSpan axis).inward →
      layout.axisOf index = axis ∧ index ≤ maxLoopIndex := fun {index} hindex => by
    obtain ⟨hlt, hmode, haxis⟩ := h.kind_of_mem_inward hindex
    refine ⟨haxis, h.small index hlt ?_⟩
    rw [List.getD_eq_getElem?_getD, List.getElem?_eq_getElem hlt, Option.getD_some] at hmode
    simp [Loop.isParallel, hmode, Mode.isParallel]
  -- forward and backward differ in the last bit of the code and in the sign of the stride
  rcases hstep with rfl | rfl
  · have hdirection : (old - (old + 1) + 1) / 2 = 0 := by omega
    obtain ⟨index, hindex, hcode, hoffset⟩ := moveOn_spec (Span.nodup_inward _) table hrange hpos
      (show 1 ≤ old + 1 by omega) (by rw [h.prod_radices]; exact hnew.2) 0 0
    obtain ⟨haxis, hsmall⟩ := hloop hindex
    obtain ⟨hhalf, hforward⟩ := moveCode_forward hsmall
    refine ⟨moveCode index 0, ?_, by rw [hhalf, haxis], by rw [hforward]; omega, ?_⟩
    · rw [move, hdirection, add_zero]
      exact hcode
    · rw [hhalf, hforward, h.getD_stepTable (mem_axes_of_sfc hindex) htable hindex, hoffset,
        ← Operands.zsmul_eq_scale, one_zsmul, sub_zero, add_sub_cancel_right]
      rfl
  · have hdirection : (old - (old - 1) + 1) / 2 = 1 := by omega
    obtain ⟨index, hindex, hcode, hoffset⟩ := moveOn_spec (Span.nodup_inward _) table hrange hpos
      (show 1 ≤ old by omega) (by rw [h.prod_radices]; exact hold.2) 1 0
    obtain ⟨haxis, hsmall⟩ := hloop hindex
    obtain ⟨hhalf, hbackward⟩ := moveCode_backward hsmall
    refine ⟨moveCode index 1, ?_, by rw [hhalf, haxis], by rw [hbackward]; omega, ?_⟩
    · rw [move, hdirection, sub_add_cancel]
      exact hcode
    · rw [hhalf, hbackward, h.getD_stepTable (mem_axes_of_sfc hindex) htable hindex, hoffset,
        ← Operands.zsmul_eq_scale, neg_one_zsmul, sub_zero, neg_sub]
      rfl

/-- The code of a step between neighbouring tasks: its step offset is the difference of the task
offsets, and its direction is the change of the coordinate on the axis of its loop. -/
theorem Sound.moveBetween_spec {old new : Task} (hadjacent : old.Adjacent new)
    (hold : layout.HasTask old) (hnew : layout.HasTask new) :
    ∃ code, layout.moveBetween old new = .ok code ∧
      ((layout.stepTable table).getD (code / 2) 0).scale (directionOf code) =
        layout.sfcOffset table new - layout.sfcOffset table old ∧
      (if layout.axisOf (code / 2) = .m then directionOf code else 0) = new.m - old.m ∧
      (if layout.axisOf (code / 2) = .n then directionOf code else 0) = new.n - old.n := by
  obtain ⟨holdM, holdN, holdK⟩ := hold
  obtain ⟨hnewM, hnewN, hnewK⟩ := hnew
  -- neighbours differ on one axis, whose offset is all that changes
  cases hadjacent with
  | @m a b n k hstep =>
      obtain ⟨code, hcode, haxis, hdirection, hoffset⟩ :=
        h.move_spec hsize htable .m hstep holdM hnewM
      refine ⟨code, ?_, ?_, ?_, ?_⟩
      · rw [moveBetween, if_pos (by dsimp only; omega)]
        exact hcode
      · rw [hoffset]
        simp only [sfcOffset, sfcSpan, add_sub_add_right_eq_sub]
      · rw [haxis, if_pos rfl, hdirection]
      · rw [haxis, if_neg (by decide), sub_self]
  | @n m a b k hstep =>
      obtain ⟨code, hcode, haxis, hdirection, hoffset⟩ :=
        h.move_spec hsize htable .n hstep holdN hnewN
      refine ⟨code, ?_, ?_, ?_, ?_⟩
      · rw [moveBetween, if_neg (by simp), if_pos (by dsimp only; omega)]
        exact hcode
      · rw [hoffset]
        simp only [sfcOffset, sfcSpan, add_sub_add_right_eq_sub, add_sub_add_left_eq_sub]
      · rw [haxis, if_neg (by decide), sub_self]
      · rw [haxis, if_pos rfl, hdirection]
  | @k m n a b hstep =>
      obtain ⟨code, hcode, haxis, hdirection, hoffset⟩ :=
        h.move_spec hsize htable .k hstep holdK hnewK
      refine ⟨code, ?_, ?_, ?_, ?_⟩
      · rw [moveBetween, if_neg (by simp), if_neg (by simp)]
        exact hcode
      · rw [hoffset]
        simp only [sfcOffset, sfcSpan, add_sub_add_left_eq_sub]
      · rw [haxis, if_neg (by decide), sub_self]
      · rw [haxis, if_neg (by decide), sub_self]

end Moves

end Layout

theorem Cursor.move_move (cursor : Cursor) (a b : Operands Int) :
    (cursor.move a).move b = cursor.move (a + b) := by
  simp [Cursor.move, Place.move, add_assoc]

theorem Cursor.move_zero (cursor : Cursor) : cursor.move 0 = cursor := by
  simp [Cursor.move, Place.move]

/-- The words of a moved cursor are the words of the cursor, moved with wrap-around: for elements of
`width` bytes, in memory that starts at `words`, nothing is lost in element addresses that do not wrap
around. -/
theorem Cursor.advanced_addresses_move (cursor : Cursor) (offset : Operands Int)
    (words : Operands UInt64) (width : Int) :
    words.advanced (cursor.move offset).addresses width =
      (words.advanced cursor.addresses width).advanced offset width :=
  (Operands.advanced_advanced cursor.addresses offset width words).symm

namespace Program

variable {program : Program}

/-- The strides of a program are step offsets on the curve. -/
def HasSteps (program : Program) : Prop :=
  program.strides = program.layout.stepTable (strideTable program.layout.loops)

/-- The offset of an SFC task. -/
def taskOffset (program : Program) (task : Task) : Operands Int :=
  program.layout.sfcOffset (strideTable program.layout.loops) task

/-- The stop that a walk makes at a task if it makes the stop `start` at the task `first`. -/
def stopAt (program : Program) (start : Stop) (first task : Task) : Stop :=
  { cursor := start.cursor.move (program.taskOffset task - program.taskOffset first)
    m := start.m + (task.m - first.m)
    n := start.n + (task.n - first.n) }

theorem stopAt_self (start : Stop) (task : Task) : program.stopAt start task task = start := by
  simp [stopAt, Cursor.move_zero]

theorem stopAt_stopAt (start : Stop) (first second task : Task) :
    program.stopAt (program.stopAt start first second) second task =
      program.stopAt start first task := by
  simp only [stopAt, Cursor.move_move, Stop.mk.injEq]
  exact ⟨by congr 1; abel, by ring, by ring⟩

/-- The code of a step leads from the stop at one task to the stop at the next. -/
theorem moveBetween_spec (hsound : program.layout.Sound) (hsteps : program.HasSteps)
    (hsize : ∀ loop ∈ program.layout.loops, 1 ≤ loop.size) {old new : Task}
    (hadjacent : old.Adjacent new) (hold : program.layout.HasTask old)
    (hnew : program.layout.HasTask new) :
    ∃ code, program.layout.moveBetween old new = .ok code ∧
      ∀ start, program.nextStop start code = program.stopAt start old new := by
  have htable : ∀ index, (program.layout.loops.getD index .unit).mode = .sfc →
      index < (strideTable program.layout.loops).length := fun index hmode => by
    rw [strideTable, List.length_map]
    exact Layout.lt_length_of_mode_sfc hmode
  obtain ⟨code, hcode, hoffset, hm, hn⟩ :=
    hsound.moveBetween_spec hsize htable hadjacent hold hnew
  have hmove : (program.strides.getD (code / 2) 0).scale (Layout.directionOf code) =
      program.taskOffset new - program.taskOffset old := by
    rw [show program.strides = _ from hsteps]
    exact hoffset
  refine ⟨code, hcode, fun start => ?_⟩
  rw [stopAt, ← hmove, ← hm, ← hn]
  simp only [nextStop, Layout.directionOf, Stop.mk.injEq, true_and]
  constructor <;> split <;> simp

/-- The stops of a walk are the stops at its tasks. -/
theorem stops_eq (hsound : program.layout.Sound) (hsteps : program.HasSteps)
    (hsize : ∀ loop ∈ program.layout.loops, 1 ≤ loop.size) {first : Task} {rest : List Task}
    {moves : List Nat} (hchain : (first :: rest).IsChain Task.Adjacent)
    (htasks : ∀ task ∈ first :: rest, program.layout.HasTask task)
    (hmoves : program.layout.movesOf (first :: rest) = .ok moves) (start : Stop) :
    program.stops start moves = (first :: rest).map (program.stopAt start first) := by
  induction rest generalizing first start moves with
  | nil =>
      obtain rfl := Except.ok.inj hmoves
      rw [stops, stops, List.map_singleton, stopAt_self]
  | cons second rest ih =>
      obtain ⟨hadjacent, hchain⟩ := List.isChain_cons_cons.1 hchain
      rw [List.forall_mem_cons] at htasks
      obtain ⟨code, hcode, hnext⟩ := moveBetween_spec hsound hsteps hsize hadjacent htasks.1
        (htasks.2 second List.mem_cons_self)
      obtain ⟨code', hcode', hmoves⟩ := bind_eq_ok.1 hmoves
      obtain ⟨moves', hmoves', hmoves⟩ := bind_eq_ok.1 hmoves
      obtain rfl := pure_eq_ok.1 hmoves
      obtain rfl := Except.ok.inj (hcode.symm.trans hcode')
      rw [stops, hnext, ih hchain htasks.2 hmoves', List.map_cons (a := first), stopAt_self]
      congr 1
      exact List.map_congr_left fun task _ => stopAt_stopAt start first second task

end Program

end LoopNest
