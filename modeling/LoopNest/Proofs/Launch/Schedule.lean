import LoopNest.Proofs.Launch.Phases

/-!
# The schedule of a thread

A thread calls the main kernel once for each visit of its schedule. A `Visit` is an offset from the
start of the buffers with two flags that say whether the tile is met for the first and for the last
time. Levels nest, and so do their visits (`nest`): offsets are added and flags are joined.

`Program.threadVisits` is the schedule of a thread written down run by run: the sequential loops in
front, the flat interval, the walk through the box, the sequential loops behind. The main statement
is `Program.visits_phases`: the phases of a thread, started where its work starts, make these
visits.
-/

namespace LoopNest

/-- One call of the main kernel, as offsets and flags. -/
structure Visit where
  offset : Operands Int
  first : Bool
  last : Bool

namespace Visit

@[ext] theorem ext {v w : Visit} (hoffset : v.offset = w.offset) (hfirst : v.first = w.first)
    (hlast : v.last = w.last) : v = w := by
  cases v
  cases w
  simp_all

/-- The only visit without loops. -/
def single : Visit := ⟨0, true, true⟩

/-- A visit of an outer level joined with one of an inner level. -/
def join (v w : Visit) : Visit := ⟨v.offset + w.offset, v.first && w.first, v.last && w.last⟩

/-- A visit seen from another start. -/
def shift (offset : Operands Int) (v : Visit) : Visit := { v with offset := offset + v.offset }

theorem join_assoc (u v w : Visit) : (u.join v).join w = u.join (v.join w) := by
  ext1 <;> simp [join, add_assoc, Bool.and_assoc]

theorem single_join (v : Visit) : single.join v = v := by
  ext1 <;> simp [join, single]

theorem join_single (v : Visit) : v.join single = v := by
  ext1 <;> simp [join, single]

end Visit

/-- The visits of nested levels. -/
def nest (outer inner : List Visit) : List Visit := outer.flatMap fun v => inner.map v.join

theorem nest_assoc (us vs ws : List Visit) : nest (nest us vs) ws = nest us (nest vs ws) := by
  simp only [nest, List.flatMap_assoc, List.flatMap_map, List.map_flatMap, List.map_map]
  exact List.flatMap_congr fun u _ => List.flatMap_congr fun v _ =>
    List.map_congr_left fun w _ => Visit.join_assoc u v w

theorem single_nest (vs : List Visit) : nest [.single] vs = vs := by
  rw [nest, List.flatMap_singleton]
  exact (List.map_congr_left fun v _ => Visit.single_join v).trans (List.map_id vs)

theorem nest_single (vs : List Visit) : nest vs [.single] = vs := by
  simp [nest, Visit.join_single]

/-- The offsets of nested levels are sums. -/
theorem map_offset_nest (vs ws : List Visit) :
    (nest vs ws).map Visit.offset = sumset (vs.map Visit.offset) (ws.map Visit.offset) := by
  simp [nest, sumset, List.map_flatMap, List.flatMap_map, Visit.join, Function.comp_def]

theorem map_shift_nest_left (offset : Operands Int) (vs ws : List Visit) :
    (nest vs ws).map (Visit.shift offset) = nest (vs.map (Visit.shift offset)) ws := by
  simp only [nest, List.map_flatMap, List.flatMap_map, List.map_map]
  exact List.flatMap_congr fun v _ => List.map_congr_left fun w _ =>
    Visit.ext (add_assoc _ _ _).symm rfl rfl

theorem map_shift_nest_right (offset : Operands Int) (vs ws : List Visit) :
    (nest vs ws).map (Visit.shift offset) = nest vs (ws.map (Visit.shift offset)) := by
  simp only [nest, List.map_flatMap, List.map_map]
  exact List.flatMap_congr fun v _ => List.map_congr_left fun w _ =>
    Visit.ext (add_left_comm _ _ _) rfl rfl

/-- A step as a visit of its own level. -/
def Step.visit (step : Step) : Visit := ⟨step.offset, step.first, step.last⟩

/-- The visits of a list of phases. -/
def visits : List Phase → List Visit
  | [] => [.single]
  | phase :: inner => nest (phase.steps.map Step.visit) (visits inner)

theorem visits_append (outer inner : List Phase) :
    visits (outer ++ inner) = nest (visits outer) (visits inner) := by
  induction outer with
  | nil => exact (single_nest _).symm
  | cons phase outer ih => rw [List.cons_append, visits, ih, visits, nest_assoc]

/-! ## Levels of the runs -/

/-- The levels of sequential loops. -/
def sequentialLevels (index : Nat) : List Loop → List Level
  | [] => []
  | _ :: rest => ⟨.sequential, index, index + 1⟩ :: sequentialLevels (index + 1) rest

/-- The level of a run of loops that are executed together, if there are any. -/
def runLevel (kind : LevelKind) (index : Nat) (run : List Loop) : List Level :=
  if run = [] then [] else [⟨kind, index, index + run.length⟩]

theorem levelsFrom_sequential {omp sfc index : Nat} {run : List Loop}
    (hmode : ∀ loop ∈ run, loop.mode = .seq) (rest : List Loop) :
    levelsFrom omp sfc 0 index (run ++ rest) =
      sequentialLevels index run ++ levelsFrom omp sfc 0 (index + run.length) rest := by
  induction run generalizing index with
  | nil => rfl
  | cons loop run ih =>
      rw [List.forall_mem_cons] at hmode
      rw [List.cons_append, levelsFrom, hmode.1]
      simp only [sequentialLevels, List.cons_append, List.length_cons, ih hmode.2]
      rw [show index + 1 + run.length = index + (run.length + 1) by omega]

/-- Loops that belong to the level before are dropped. -/
theorem levelsFrom_drop (omp sfc skip index : Nat) (loops : List Loop) :
    levelsFrom omp sfc skip index loops =
      levelsFrom omp sfc 0 (index + skip) (loops.drop skip) := by
  induction loops generalizing skip index with
  | nil => cases skip <;> rfl
  | cons loop rest ih =>
      cases skip with
      | zero => rfl
      | succ skip =>
          rw [levelsFrom, ih, List.drop_succ_cons, Nat.add_right_comm, Nat.add_assoc]

/-- A run that belongs to the level before is passed over. -/
theorem levelsFrom_skip (omp sfc index : Nat) (run rest : List Loop) :
    levelsFrom omp sfc run.length index (run ++ rest) =
      levelsFrom omp sfc 0 (index + run.length) rest := by
  rw [levelsFrom_drop, List.drop_left]

/-- A level of a run of loops, and the levels behind the run. -/
theorem levelsFrom_run (kind : LevelKind) (omp sfc index : Nat) (loop : Loop)
    (run rest : List Loop) :
    ⟨kind, index, index + (run.length + 1)⟩ ::
        levelsFrom omp sfc run.length (index + 1) (run ++ rest) =
      runLevel kind index (loop :: run) ++
        levelsFrom omp sfc 0 (index + (loop :: run).length) rest := by
  rw [levelsFrom_skip, runLevel, if_neg (List.cons_ne_nil _ _), List.singleton_append,
    List.length_cons, show index + 1 + run.length = index + (run.length + 1) by omega]

theorem levelsFrom_omp {sfc index : Nat} {run : List Loop} (hmode : ∀ loop ∈ run, loop.mode = .omp)
    (rest : List Loop) :
    levelsFrom run.length sfc 0 index (run ++ rest) =
      runLevel .flat index run ++ levelsFrom run.length sfc 0 (index + run.length) rest := by
  cases run with
  | nil => rfl
  | cons loop run =>
      rw [List.cons_append, levelsFrom, hmode loop List.mem_cons_self]
      exact levelsFrom_run .flat _ _ index loop run rest

theorem levelsFrom_sfc {omp index : Nat} {run : List Loop} (hmode : ∀ loop ∈ run, loop.mode = .sfc)
    (rest : List Loop) :
    levelsFrom omp run.length 0 index (run ++ rest) =
      runLevel .curve index run ++ levelsFrom omp run.length 0 (index + run.length) rest := by
  cases run with
  | nil => rfl
  | cons loop run =>
      rw [List.cons_append, levelsFrom, hmode loop List.mem_cons_self]
      exact levelsFrom_run .curve _ _ index loop run rest

theorem levelsFrom_kernel {omp sfc index : Nat} {run : List Loop}
    (hmode : ∀ loop ∈ run, loop.mode = .prim) : levelsFrom omp sfc 0 index run = [] := by
  cases run with
  | nil => rfl
  | cons loop run => rw [levelsFrom, hmode loop List.mem_cons_self]

namespace Layout

variable {layout : Layout} {before omp sfc after kernel : List Loop}

theorem filter_of_mode {run : List Loop} {mode : Mode} (hmode : ∀ loop ∈ run, loop.mode = mode)
    (q : Mode → Bool) : run.filter (fun loop => q loop.mode) = if q mode then run else [] := by
  cases hq : q mode with
  | true => simpa using fun loop hloop => by rw [hmode loop hloop, hq]
  | false => simpa using fun loop hloop => by rw [hmode loop hloop, hq]

variable {loops : List Loop}

/-- The loops of some modes are the runs of these modes. -/
theorem Cut.filter_mode (h : Cut loops before omp sfc after kernel) (q : Mode → Bool) :
    loops.filter (fun loop => q loop.mode) =
      (if q .seq then before else []) ++ ((if q .omp then omp else []) ++
        ((if q .sfc then sfc else []) ++ ((if q .seq then after else []) ++
          if q .prim then kernel else []))) := by
  rw [h.append, List.filter_append, List.filter_append, List.filter_append, List.filter_append,
    filter_of_mode h.before, filter_of_mode h.omp, filter_of_mode h.sfc, filter_of_mode h.after,
    filter_of_mode h.kernel]

theorem Cut.filter_omp (h : Cut loops before omp sfc after kernel) :
    loops.filter Loop.isOmp = omp :=
  (h.filter_mode fun mode => mode = .omp).trans (by simp)

theorem Cut.filter_sfc (h : Cut loops before omp sfc after kernel) :
    loops.filter Loop.isSfc = sfc :=
  (h.filter_mode fun mode => mode = .sfc).trans (by simp)

theorem Cut.outerLoops_eq (h : Cut loops before omp sfc after kernel) :
    outerLoops loops = before ++ (omp ++ (sfc ++ after)) :=
  (h.filter_mode fun mode => !decide (mode = .prim)).trans (by simp)

/-- The levels of a loop list are those of its runs. -/
theorem Sound.levels_eq (hsound : layout.Sound)
    (h : Cut layout.loops before omp sfc after kernel) :
    layout.levels =
      sequentialLevels 0 before ++
        (runLevel .flat before.length omp ++
          (runLevel .curve (before.length + omp.length) sfc ++
            sequentialLevels (before.length + omp.length + sfc.length) after)) := by
  have homp : layout.omp.length = omp.length := by
    rw [← h.filter_omp, hsound.omp.filter_eq, hsound.omp.toCovers.length_slice]
  obtain ⟨span, hspan, hcount, -⟩ := hsound.curve
  have hsfc : layout.sfcCount = sfc.length := by
    rw [← h.filter_sfc, hspan.filter_eq, hspan.toCovers.length_slice, hcount]
  rw [levels, homp, hsfc]
  conv_lhs => rw [h.append]
  rw [levelsFrom_sequential h.before, levelsFrom_omp h.omp, levelsFrom_sfc h.sfc,
    levelsFrom_sequential h.after, levelsFrom_kernel h.kernel, List.append_nil, Nat.zero_add]

/-- At most one level is a curve. -/
theorem pairwise_levels (i j k l : Nat) (before omp sfc after : List Loop) :
    (sequentialLevels i before ++ (runLevel .flat j omp ++
      (runLevel .curve k sfc ++ sequentialLevels l after))).Pairwise
        fun a b => a.kind = .curve → b.kind ≠ .curve := by
  have hsequential : ∀ {index : Nat} {run : List Loop}, ∀ level ∈ sequentialLevels index run,
      level.kind ≠ .curve := by
    intro index run
    induction run generalizing index with
    | nil => simp [sequentialLevels]
    | cons loop run ih => exact List.forall_mem_cons.2 ⟨by simp, ih⟩
  have hflat : ∀ level ∈ runLevel .flat j omp, level.kind ≠ .curve := by
    unfold runLevel
    split <;> simp
  have hfree : ∀ {levels : List Level}, (∀ level ∈ levels, level.kind ≠ .curve) →
      levels.Pairwise fun a b => a.kind = .curve → b.kind ≠ .curve := fun h =>
    List.pairwise_of_forall_mem_list fun a ha _ _ hcurve => absurd hcurve (h a ha)
  have hcurve : (runLevel .curve k sfc).Pairwise
      fun a b => a.kind = .curve → b.kind ≠ .curve := by
    unfold runLevel
    split
    · exact List.Pairwise.nil
    · exact List.pairwise_singleton _ _
  -- only the third part holds a curve, and it holds one at most
  rw [List.pairwise_append, List.pairwise_append, List.pairwise_append]
  exact ⟨hfree hsequential, ⟨hfree hflat, ⟨hcurve, hfree hsequential,
    fun _ _ b hb _ => hsequential b hb⟩, fun a ha _ _ hkind => absurd hkind (hflat a ha)⟩,
    fun a ha _ _ hkind => absurd hkind (hsequential a ha)⟩

end Layout

/-! ## Visits of the runs -/

/-- The visits of a sequential loop. -/
def loopVisits (stride : Loop → Operands Int) (loop : Loop) : List Visit :=
  (Program.sequentialSteps loop (stride loop)).map Step.visit

/-- The visits of sequential loops. -/
def sequentialVisits (stride : Loop → Operands Int) : List Loop → List Visit
  | [] => [.single]
  | loop :: rest => nest (loopVisits stride loop) (sequentialVisits stride rest)

theorem sequentialVisits_append (stride : Loop → Operands Int) (outer inner : List Loop) :
    sequentialVisits stride (outer ++ inner) =
      nest (sequentialVisits stride outer) (sequentialVisits stride inner) := by
  induction outer with
  | nil => exact (single_nest _).symm
  | cons loop outer ih => rw [List.cons_append, sequentialVisits, ih, sequentialVisits, nest_assoc]

namespace Program

variable (program : Program)

/-- The visits of a flat interval. -/
def flatVisits (interval : Interval) : List Visit :=
  (program.flatSteps interval).map Step.visit

/-- The visit of a task, after `p.2` earlier tasks with the same cell. -/
def boxVisit (p : Task × Nat) : Visit where
  offset := program.taskOffset p.1
  first := (p.2 : Int) = 0
  last := (p.2 : Int) = program.layout.kTasks - 1

/-- The visits of a walk through a box. -/
def boxVisits (share : Share) : List Visit :=
  (numberedBy Task.tile [] (share.path program.layout.kTasks)).map program.boxVisit

/-- The schedule of a thread with sequential loops `before` in front of the parallel loops and
`after` behind them. -/
def threadVisits (stride : Loop → Operands Int) (before after : List Loop) (share : Share) :
    List Visit :=
  nest (sequentialVisits stride before)
    (nest (program.flatVisits share.omp)
      (nest (program.boxVisits share) (sequentialVisits stride after)))

variable {program} {share : Share} {work : Work}

theorem map_shift_curve :
    ((program.curveSteps share).map Step.visit).map
        (Visit.shift (program.taskOffset share.origin)) = program.boxVisits share := by
  rw [curveSteps, boxVisits, List.map_map, List.map_map]
  refine List.map_congr_left fun p _ => ?_
  ext1
  · simp [Visit.shift, Step.visit, taskStep, boxVisit]
  · rfl
  · rfl

/-- The phase of a level, with other strides of its sequential loop. -/
def phaseBy (program : Program) (stride : Loop → Operands Int) (share : Share) (level : Level) :
    Phase :=
  { next := level.next
    steps :=
      match level.kind with
      | .sequential =>
          sequentialSteps (program.layout.loops.getD level.start .unit)
            (stride (program.layout.loops.getD level.start .unit))
      | .flat => program.flatSteps share.omp
      | .curve => program.curveSteps share }

theorem getD_append_cons {outer rest : List Loop} {loop : Loop}
    (happend : program.layout.loops = outer ++ (loop :: rest)) :
    program.layout.loops.getD outer.length .unit = loop := by
  rw [happend, List.getD_eq_getElem?_getD, List.getElem?_append_right (Nat.le_refl _)]
  simp

/-- The phases of sequential loops have the strides of these loops. -/
theorem phases_sequential (hbuilt : program.IsBuilt) (share : Share) (outer : List Loop)
    {run inner : List Loop} (happend : program.layout.loops = outer ++ (run ++ inner))
    (hmode : ∀ loop ∈ run, loop.mode = .seq) :
    (sequentialLevels outer.length run).map (program.phase share) =
      (sequentialLevels outer.length run).map (program.phaseBy Loop.strides share) := by
  induction run generalizing outer with
  | nil => rfl
  | cons loop run ih =>
      rw [List.forall_mem_cons] at hmode
      have hloop : program.layout.loops.getD outer.length .unit = loop :=
        getD_append_cons happend
      have hstride : program.strides.getD outer.length 0 = loop.strides := by
        rw [hbuilt.getD_strides (by rw [hloop, hmode.1]; decide), hloop]
      have hrest := ih (outer ++ [loop]) (by rw [happend]; simp) hmode.2
      rw [List.length_append, List.length_singleton] at hrest
      rw [sequentialLevels, List.map_cons, List.map_cons, hrest]
      simp only [phase, phaseBy, hloop, hstride]

/-- The phases of sequential loops make the visits of these loops. -/
theorem visits_sequential (stride : Loop → Operands Int) (share : Share) (outer : List Loop)
    {run inner : List Loop} (happend : program.layout.loops = outer ++ (run ++ inner)) :
    visits ((sequentialLevels outer.length run).map (program.phaseBy stride share)) =
      sequentialVisits stride run := by
  induction run generalizing outer with
  | nil => rfl
  | cons loop run ih =>
      have hloop : program.layout.loops.getD outer.length .unit = loop :=
        getD_append_cons happend
      have hrest := ih (outer ++ [loop]) (by rw [happend]; simp)
      rw [List.length_append, List.length_singleton] at hrest
      rw [sequentialLevels, List.map_cons, visits, hrest, sequentialVisits, loopVisits]
      simp only [phaseBy, hloop]

/-- Offsets of flat tasks are those of the OMP loops. -/
theorem ompOffset_eq (hbuilt : program.IsBuilt) (id : Int) :
    program.layout.ompOffset program.strides id =
      mixedOffset (digitsOf (program.layout.loops.filter Loop.isOmp)) id := by
  have hmarks := hbuilt.sound.omp
  rw [Layout.ompOffset, Layout.offsetOn, Layout.radices_eq _ hmarks.stop_le, hmarks.filter_eq]
  intro index hindex
  have homp := (hmarks.getD hindex).2
  rw [hbuilt.getD_strides, Layout.getD_strideTable]
  rw [Loop.isOmp, decide_eq_true_eq] at homp
  rw [homp]
  decide

/-- The phase of the OMP loops makes the visits of the flat interval, also if there are no OMP
loops. -/
theorem visits_flat (hbuilt : program.IsBuilt) (hdoes : program.Does share work)
    (stride : Loop → Operands Int) (index : Nat) :
    visits ((runLevel .flat index (program.layout.loops.filter Loop.isOmp)).map
      (program.phaseBy stride share)) = program.flatVisits share.omp := by
  unfold runLevel
  split
  · rename_i hnil
    have htasks : program.layout.ompTasks = 1 := by
      rw [hbuilt.sound.ompTasks, sizeWhere_eq_prod, hnil]
      rfl
    have hpos := hdoes.omp_pos
    have hstart := hdoes.numbers 0 (Int.le_refl 0) hpos
    have hstop := hdoes.numbers (share.omp.length - 1) (by omega) (by omega)
    have hlength : share.omp.length = 1 := by omega
    rw [flatVisits, flatSteps, hlength, upTo_one, List.map_singleton, List.map_singleton,
      ompOffset_eq hbuilt, hnil]
    rfl
  · rw [List.map_singleton, visits, visits, nest_single]
    rfl

theorem path_nodup (hdoes : program.Does share work) :
    (share.path program.layout.kTasks).Nodup := by
  rw [(Share.path_perm (Int.le_of_lt hdoes.m_pos) (Int.le_of_lt hdoes.n_pos)).nodup_iff]
  refine (Curve.nodup_boxCells _ _ _).map fun a b hab => ?_
  simpa [Share.taskAt, Curve.Cell.ext_iff] using hab

/-- The phase of the SFC loops makes one visit for each task of the walk, also if there are no SFC
loops. -/
theorem visits_curve (hbuilt : program.IsBuilt) (hdoes : program.Does share work)
    (stride : Loop → Operands Int) (index : Nat) :
    visits ((runLevel .curve index (program.layout.loops.filter Loop.isSfc)).map
      (program.phaseBy stride share)) = (program.curveSteps share).map Step.visit := by
  unfold runLevel
  split
  · rename_i hnil
    -- without SFC loops the box is a single task, and the walk stays there
    have htasks : ∀ axis, program.layout.sfcTasks axis = 1 := by
      intro axis
      have hfilter : program.layout.loops.filter (Loop.isSfcOn axis) = [] := by
        rw [List.filter_eq_nil_iff] at hnil ⊢
        intro loop hloop
        simp [Loop.isSfcOn, hnil loop hloop]
      rw [hbuilt.sound.sfcTasks, sizeWhere_eq_prod, hfilter]
      rfl
    have hzero : ∀ task ∈ share.path program.layout.kTasks, task = ⟨0, 0, 0⟩ := by
      intro task htask
      obtain ⟨hm, hn, hk⟩ := hdoes.tasks task htask
      rw [show program.layout.mTasks = 1 from htasks .m] at hm
      rw [show program.layout.nTasks = 1 from htasks .n] at hn
      rw [show program.layout.kTasks = 1 from htasks .k] at hk
      obtain ⟨m, n, k⟩ := task
      dsimp only at hm hn hk
      simp only [Task.mk.injEq]
      omega
    have hk : program.layout.kTasks = 1 := htasks .k
    obtain ⟨rest, hpath⟩ := Share.path_head hdoes.m_pos hdoes.n_pos
      (show 0 < program.layout.kTasks by omega)
    -- the walk repeats no task, so it ends after the first
    have hrest : rest = [] := by
      have hnodup := path_nodup hdoes
      rw [hpath] at hzero hnodup
      rw [List.forall_mem_cons] at hzero
      refine List.eq_nil_iff_forall_not_mem.2 fun task htask => ?_
      refine (List.nodup_cons.1 hnodup).1 ?_
      rwa [hzero.1, ← hzero.2 task htask]
    rw [curveSteps, hpath, hrest]
    simp [numberedBy, visits, Visit.single, Step.visit, taskStep, Share.origin, hk]
  · rw [List.map_singleton, visits, visits, nest_single]
    rfl

/-- The phases of a thread, started where its work starts, make the visits of its schedule, for any
strides of the sequential loops. -/
theorem visits_phasesBy (hbuilt : program.IsBuilt) (hdoes : program.Does share work)
    (stride : Loop → Operands Int) {before omp sfc after kernel : List Loop}
    (hcut : Layout.Cut program.layout.loops before omp sfc after kernel) :
    (visits (program.layout.levels.map (program.phaseBy stride share))).map
        (Visit.shift work.offset) =
      program.threadVisits stride before after share := by
  have hbefore := visits_sequential stride share [] hcut.append
  have hafter := visits_sequential stride share (before ++ (omp ++ sfc))
    (show _ = _ ++ (after ++ kernel) by rw [hcut.append]; simp)
  rw [List.length_append, List.length_append, ← Nat.add_assoc] at hafter
  have hflat := visits_flat hbuilt hdoes stride before.length
  have hcurve := visits_curve hbuilt hdoes stride (before.length + omp.length)
  rw [hcut.filter_omp] at hflat
  rw [hcut.filter_sfc] at hcurve
  rw [hbuilt.sound.levels_eq hcut, List.map_append, List.map_append, List.map_append,
    visits_append, visits_append, visits_append, hflat, hcurve, hafter]
  rw [List.length_nil] at hbefore
  rw [hbefore, map_shift_nest_right, map_shift_nest_right, map_shift_nest_left, hdoes.offset,
    map_shift_curve]
  rfl

/-- The phases of a thread, started where its work starts, make the visits of its schedule. -/
theorem visits_phases (hbuilt : program.IsBuilt) (hdoes : program.Does share work)
    {before omp sfc after kernel : List Loop}
    (hcut : Layout.Cut program.layout.loops before omp sfc after kernel) :
    (visits (program.layout.levels.map (program.phase share))).map (Visit.shift work.offset) =
      program.threadVisits Loop.strides before after share := by
  have hbefore := phases_sequential hbuilt share [] hcut.append hcut.before
  have hafter := phases_sequential hbuilt share (before ++ (omp ++ sfc))
    (show _ = _ ++ (after ++ kernel) by rw [hcut.append]; simp) hcut.after
  rw [List.length_append, List.length_append, ← Nat.add_assoc] at hafter
  -- parallel levels read the same strides in both forms
  have hrun : ∀ kind index run, kind ≠ .sequential →
      (runLevel kind index run).map (program.phase share) =
        (runLevel kind index run).map (program.phaseBy Loop.strides share) := by
    intro kind index run hkind
    unfold runLevel
    split
    · rfl
    · cases kind with
      | sequential => exact absurd rfl hkind
      | flat => rfl
      | curve => rfl
  rw [List.length_nil] at hbefore
  rw [← visits_phasesBy hbuilt hdoes Loop.strides hcut, hbuilt.sound.levels_eq hcut,
    List.map_append, List.map_append, List.map_append, hbefore, hafter, hrun _ _ _ (by decide),
    hrun _ _ _ (by decide), ← List.map_append, ← List.map_append, ← List.map_append]

end Program

end LoopNest
