import LoopNest.Proofs.Launch.History
import LoopNest.Proofs.Launch.Schedule
import LoopNest.Proofs.Kernel.Nest

/-!
# The loops that the levels pass

A launch goes from level to level, and each level says which loop comes next. The levels of a
compiled list lead from its first loop to its first kernel loop without a gap and without an overlap:
a sequential level passes one loop, the level of a parallel run passes the whole run
(`Layout.Sound.exists_leads`).

The kernel is made from the kernel loops at the end of the list. The levels lead to these exactly if
no kernel loop stands further out (`Contraction.compile_leads`); otherwise the loops behind the first
kernel loop are not executed, although the list is compiled (`Contraction.compile_skips`).
-/

namespace LoopNest

/-- Mode of the loop at an index. -/
def modeAt (loops : List Loop) (index : Nat) : Mode := (loops.getD index .unit).mode

/-- Mode of the loops of a level. -/
def LevelKind.mode : LevelKind → Mode
  | .sequential => .seq
  | .flat => .omp
  | .curve => .sfc

namespace Level

/-- Indices of the loops of a level. -/
def indices (level : Level) : List Nat := List.range' level.start (level.next - level.start)

/-- A level that executes the loops it passes: all of them have its mode. A sequential level passes
one loop, and a parallel level passes every loop of its mode. -/
structure RunsOver (level : Level) (loops : List Loop) : Prop where
  start_lt : level.start < level.next
  next_le : level.next ≤ loops.length
  mode : ∀ index ∈ level.indices, modeAt loops index = level.kind.mode
  single : level.kind = .sequential → level.next = level.start + 1
  whole : level.kind ≠ .sequential → ∀ index < loops.length,
    modeAt loops index = level.kind.mode → index ∈ level.indices

theorem mem_indices {level : Level} {index : Nat} :
    index ∈ level.indices ↔ level.start ≤ index ∧ index < level.next := by
  rw [indices, List.mem_range'_1]
  omega

/-- A sequential loop is passed alone. -/
theorem runsOver_sequential {loops : List Loop} {index : Nat} (hindex : index < loops.length)
    (hmode : modeAt loops index = .seq) : RunsOver ⟨.sequential, index, index + 1⟩ loops where
  start_lt := Nat.lt_succ_self index
  next_le := Nat.succ_le_of_lt hindex
  mode i hi := by
    obtain ⟨hle, hlt⟩ := mem_indices.1 hi
    obtain rfl : i = index := Nat.le_antisymm (Nat.le_of_lt_succ hlt) hle
    exact hmode
  single _ := rfl
  whole hne := absurd rfl hne

end Level

/-- Levels that lead from one loop to another: each begins where the one before ends. -/
inductive Leads (loops : List Loop) : Nat → List Level → Nat → Prop where
  | done (index : Nat) : Leads loops index [] index
  | step {level : Level} {inner : List Level} {stop : Nat} : level.RunsOver loops →
      Leads loops level.next inner stop → Leads loops level.start (level :: inner) stop

namespace Leads

variable {loops : List Loop} {index stop : Nat} {levels : List Level}

theorem eq_of_nil (h : Leads loops index [] stop) : stop = index := by
  cases h
  rfl

theorem le (h : Leads loops index levels stop) : index ≤ stop := by
  induction h with
  | done index => exact Nat.le_refl index
  | step hruns _ ih => exact hruns.start_lt.le.trans ih

/-- The levels pass every loop on their way once and in order. -/
theorem indices_eq (h : Leads loops index levels stop) :
    levels.flatMap Level.indices = List.range' index (stop - index) := by
  induction h with
  | done index => rw [Nat.sub_self, List.flatMap_nil, List.range'_zero]
  | @step level inner stop hruns hinner ih =>
      have hlt := hruns.start_lt
      have hle := hinner.le
      rw [List.flatMap_cons, ih, Level.indices,
        show stop - level.start = level.next - level.start + (stop - level.next) by omega,
        ← List.range'_append_1, show level.start + (level.next - level.start) = level.next by omega]

/-- No kernel loop is passed. -/
theorem modeAt_ne_prim (h : Leads loops index levels stop) {passed : Nat} (hle : index ≤ passed)
    (hlt : passed < stop) : modeAt loops passed ≠ .prim := by
  induction h with
  | done index => omega
  | @step level inner stop hruns _ ih =>
      by_cases hnext : passed < level.next
      · rw [hruns.mode passed (Level.mem_indices.2 ⟨hle, hnext⟩)]
        cases level.kind <;> decide
      · exact ih (Nat.not_lt.1 hnext) hlt

end Leads

namespace Span

/-- A span that begins or ends at an index, or lies on one side of it. -/
def Clear (span : Span) (index : Nat) : Prop := index ≤ span.start ∨ span.stop ≤ index

theorem Marks.mem_iff {span : Span} {p : Loop → Bool} {loops : List Loop} (h : span.Marks p loops)
    {index : Nat} (hindex : index < loops.length) :
    p (loops.getD index .unit) = true ↔ span.start ≤ index ∧ index < span.stop := by
  have hget : loops.getD index .unit = loops[index] := by
    rw [List.getD_eq_getElem?_getD, List.getElem?_eq_getElem hindex, Option.getD_some]
  constructor
  · intro hp
    rw [hget] at hp
    constructor
    · by_contra hlt
      have hmem : loops[index] ∈ loops.take span.start :=
        List.mem_take_iff_getElem.2 ⟨index, by omega, rfl⟩
      exact absurd (h.before _ hmem) (by simp [hp])
    · by_contra hge
      have hmem : loops[index] ∈ loops.drop span.stop :=
        List.mem_drop_iff_getElem.2 ⟨index - span.stop, by omega, by congr 1; omega⟩
      exact absurd (h.after _ hmem) (by simp [hp])
  · intro hmem
    exact (h.getD (mem_inward.2 hmem)).2

/-- A loop that is not marked is passed without entering a run. -/
theorem Marks.clear_succ {span : Span} {p : Loop → Bool} {loops : List Loop}
    (h : span.Marks p loops) {index : Nat} (hindex : index < loops.length)
    (hp : p (loops.getD index .unit) = false) : span.Clear (index + 1) := by
  have hmem := (h.mem_iff hindex).not.1 (by rw [hp]; decide)
  unfold Clear
  omega

/-- A run may be passed as a whole, if no loop is marked twice. -/
theorem Marks.clear_stop {span other : Span} {p q : Loop → Bool} {loops : List Loop}
    (h : span.Marks p loops) (hother : other.Marks q loops)
    (hdisjoint : ∀ loop, p loop = true → q loop = false) (hclear : other.Clear span.start) :
    other.Clear span.stop := by
  have hle := h.le
  have hstop := h.stop_le
  by_contra hcut
  unfold Clear at *
  have hindex : other.start < loops.length := by omega
  have hp := (h.mem_iff hindex).2 (by omega)
  have hq := (hother.mem_iff hindex).2 (by omega)
  exact absurd hq (by rw [hdisjoint _ hp]; decide)

/-- A run that is met at its first loop is passed as a whole by its level. -/
theorem Marks.runsOver {span : Span} {p : Loop → Bool} {loops : List Loop}
    (h : span.Marks p loops) (kind : LevelKind) (hkind : kind ≠ .sequential)
    (hp : ∀ loop, p loop = true ↔ loop.mode = kind.mode) {index : Nat}
    (hindex : index < loops.length) (hmode : modeAt loops index = kind.mode)
    (hclear : span.Clear index) :
    index = span.start ∧ index + span.length = span.stop ∧
      Level.RunsOver ⟨kind, index, index + span.length⟩ loops := by
  -- the index is clear of the run that was passed, so it can only be the first of the span
  have hmem := (h.mem_iff hindex).1 ((hp _).2 hmode)
  have hstart : index = span.start := by
    unfold Clear at hclear
    omega
  have hstop : index + span.length = span.stop := by
    unfold length
    omega
  refine ⟨hstart, hstop, ?_⟩
  rw [hstop]
  have hinside : ∀ {i}, i < loops.length →
      (modeAt loops i = kind.mode ↔ i ∈ Level.indices ⟨kind, index, span.stop⟩) := by
    intro i hi
    rw [Level.mem_indices, hstart, ← h.mem_iff hi, hp]
    rfl
  exact {
    start_lt := hmem.2
    next_le := h.stop_le
    mode := fun i hi => (hinside ((Level.mem_indices.1 hi).2.trans_le h.stop_le)).2 hi
    single := fun hsequential => absurd hsequential hkind
    whole := fun _ i hi => (hinside hi).1 }

end Span

/-- Behind a level that passes some loops, the levels are those of the loops that are left. -/
theorem levelsFrom_passed (omp sfc index : Nat) (loops : List Loop) {count : Nat}
    (hcount : 1 ≤ count) : levelsFrom omp sfc (count - 1) (index + 1) (loops.drop (index + 1)) =
      levelsFrom omp sfc 0 (index + count) (loops.drop (index + count)) := by
  rw [levelsFrom_drop, List.drop_drop, show index + 1 + (count - 1) = index + count by omega]

namespace Layout

variable {layout : Layout}

/-- From every loop that does not stand within a parallel run, the levels lead to the next kernel
loop, or to the end of the list. -/
theorem Sound.exists_leads_from (h : layout.Sound) {curve : Span}
    (hcurve : curve.Marks Loop.isSfc layout.loops) (hcount : curve.length = layout.sfcCount)
    {index : Nat} (hindex : index ≤ layout.loops.length) (homp : layout.omp.Clear index)
    (hsfc : curve.Clear index) :
    ∃ stop, Leads layout.loops index
        (levelsFrom layout.omp.length layout.sfcCount 0 index (layout.loops.drop index)) stop ∧
      (stop < layout.loops.length → modeAt layout.loops stop = .prim) := by
  have hdisjoint : ∀ loop : Loop, loop.isOmp = true → loop.isSfc = false := by
    intro loop hloop
    rw [Loop.isSfc, of_decide_eq_true hloop]
    rfl
  have hdisjoint' : ∀ loop : Loop, loop.isSfc = true → loop.isOmp = false := by
    intro loop hloop
    rw [Loop.isOmp, of_decide_eq_true hloop]
    rfl
  -- on the loops that are left: a level passes at least one, and it never ends within a run
  induction hrest : layout.loops.length - index using Nat.strong_induction_on generalizing index with
  | _ rest ih =>
      subst hrest
      rcases hindex.eq_or_lt with rfl | hlt
      · rw [List.drop_length]
        exact ⟨_, .done _, fun hlt => absurd hlt (Nat.lt_irrefl _)⟩
      have hget : layout.loops.getD index .unit = layout.loops[index] := by
        rw [List.getD_eq_getElem?_getD, List.getElem?_eq_getElem hlt, Option.getD_some]
      have hmodeAt : modeAt layout.loops index = layout.loops[index].mode := congrArg Loop.mode hget
      rw [List.drop_eq_getElem_cons hlt, levelsFrom]
      cases hmode : layout.loops[index].mode with
      | prim => exact ⟨index, .done index, fun _ => hmodeAt.trans hmode⟩
      | seq =>
          have hnotOmp : (layout.loops.getD index .unit).isOmp = false := by
            rw [hget, Loop.isOmp, hmode]
            rfl
          have hnotSfc : (layout.loops.getD index .unit).isSfc = false := by
            rw [hget, Loop.isSfc, hmode]
            rfl
          obtain ⟨stop, hleads, hstop⟩ := ih _ (by omega) (Nat.succ_le_of_lt hlt)
            (h.omp.clear_succ hlt hnotOmp) (hcurve.clear_succ hlt hnotSfc) rfl
          exact ⟨stop, .step (Level.runsOver_sequential hlt (hmodeAt.trans hmode)) hleads, hstop⟩
      | omp =>
          -- the run is clear of the index, so it is met at its first loop
          obtain ⟨hstart, hend, hruns⟩ := h.omp.runsOver .flat (by decide)
            (fun loop => decide_eq_true_iff) hlt (hmodeAt.trans hmode) homp
          have hpos : index < index + layout.omp.length := hruns.start_lt
          obtain ⟨stop, hleads, hstop⟩ := ih (layout.loops.length - (index + layout.omp.length))
            (by omega) hruns.next_le (Or.inr hend.ge)
            (hend ▸ h.omp.clear_stop hcurve hdisjoint (hstart ▸ hsfc)) rfl
          rw [← levelsFrom_passed _ _ _ _ (by omega)] at hleads
          exact ⟨stop, .step hruns hleads, hstop⟩
      | sfc =>
          obtain ⟨hstart, hend, hruns⟩ := hcurve.runsOver .curve (by decide)
            (fun loop => decide_eq_true_iff) hlt (hmodeAt.trans hmode) hsfc
          have hpos : index < index + curve.length := hruns.start_lt
          obtain ⟨stop, hleads, hstop⟩ := ih (layout.loops.length - (index + curve.length))
            (by omega) hruns.next_le (hend ▸ hcurve.clear_stop h.omp hdisjoint' (hstart ▸ homp))
            (Or.inr hend.ge) rfl
          rw [← levelsFrom_passed _ _ _ _ (by omega)] at hleads
          rw [hcount] at hruns hleads
          exact ⟨stop, .step hruns hleads, hstop⟩

/-- The levels of a list lead from its first loop to its first kernel loop. -/
theorem Sound.exists_leads (h : layout.Sound) :
    ∃ stop, Leads layout.loops 0 layout.levels stop ∧
      (stop < layout.loops.length → modeAt layout.loops stop = .prim) := by
  obtain ⟨curve, hcurve, hcount, -⟩ := h.curve
  exact h.exists_leads_from hcurve hcount (Nat.zero_le _) (Or.inl (Nat.zero_le _))
    (Or.inl (Nat.zero_le _))

end Layout

/-! ## Kernel loops -/

/-- A list that is cut where its kernel loops begin. -/
theorem outerLoops_kernelLoops_of_cut {loops : List Loop} {stop : Nat}
    (htake : ∀ loop ∈ loops.take stop, loop.isPrim = false)
    (hdrop : ∀ loop ∈ loops.drop stop, loop.isPrim = true) :
    outerLoops loops = loops.take stop ∧ kernelLoops loops = loops.drop stop := by
  constructor
  · conv_lhs => rw [outerLoops, ← List.take_append_drop stop loops, List.filter_append]
    rw [List.filter_eq_self.2 fun loop hloop => by rw [htake loop hloop]; rfl,
      List.filter_eq_nil_iff.2 fun loop hloop => by rw [hdrop loop hloop]; decide,
      List.append_nil]
  · conv_lhs => rw [kernelLoops, ← List.take_append_drop stop loops, List.filter_append]
    rw [List.filter_eq_nil_iff.2 fun loop hloop => by rw [htake loop hloop]; decide,
      List.filter_eq_self.2 hdrop, List.nil_append]

/-- Where the first kernel loop stands, the kernel loops at the end begin exactly if none of them
stands further out. -/
theorem drop_eq_kernelEnd_iff {loops : List Loop} {stop : Nat}
    (hbefore : ∀ index < stop, modeAt loops index ≠ .prim) (hstop : stop < loops.length)
    (hprim : modeAt loops stop = .prim) :
    loops.drop stop = KernelShape.kernelEnd loops ↔ KernelLast loops := by
  have htake : ∀ loop ∈ loops.take stop, loop.isPrim = false := by
    intro loop hloop
    obtain ⟨index, hindex, rfl⟩ := List.mem_take_iff_getElem.1 hloop
    have hne := hbefore index (by omega)
    rw [modeAt, List.getD_eq_getElem?_getD, List.getElem?_eq_getElem (by omega)] at hne
    exact decide_eq_false hne
  have hfirst : loops[stop].isPrim = true := by
    rw [modeAt, List.getD_eq_getElem?_getD, List.getElem?_eq_getElem hstop] at hprim
    exact decide_eq_true hprim
  constructor
  · intro heq
    have hdrop : ∀ loop ∈ loops.drop stop, loop.isPrim = true := fun loop hloop =>
      KernelShape.isPrim_of_mem_kernelEnd (heq ▸ hloop)
    obtain ⟨houter, hkernel⟩ := outerLoops_kernelLoops_of_cut htake hdrop
    rw [KernelLast, houter, hkernel, List.take_append_drop]
  · intro hlast
    -- behind the first kernel loop there are kernel loops only
    have hpairs := hlast.pairwise.sublist (List.drop_sublist stop loops)
    rw [List.drop_eq_getElem_cons hstop, List.pairwise_cons] at hpairs
    have hdrop : ∀ loop ∈ loops.drop stop, loop.isPrim = true := by
      rw [List.drop_eq_getElem_cons hstop, List.forall_mem_cons]
      exact ⟨hfirst, fun loop hloop => hpairs.1 loop hloop hfirst⟩
    rw [KernelShape.kernelEnd_eq hlast, (outerLoops_kernelLoops_of_cut htake hdrop).2]

/-- A kernel that could be made has its loops at the end of the list. -/
theorem KernelShape.kernelEnd_ne_nil {kernel : KernelTag} {loops : List Loop} {shape : KernelShape}
    (h : KernelShape.ofLoops kernel loops = .ok shape) : kernelEnd loops ≠ [] := by
  obtain ⟨⟨⟩, -, h⟩ := bind_eq_ok.1 h
  split at h
  · rename_i k n m outer hprims
    rw [kernelEnd, hprims]
    simp
  · exact absurd h (by simp)

/-- A list with kernel loops at the end ends in a kernel loop. -/
theorem modeAt_last {loops : List Loop} (h : KernelShape.kernelEnd loops ≠ []) :
    modeAt loops (loops.length - 1) = .prim := by
  obtain ⟨front, hfront⟩ := KernelShape.kernelEnd_suffix loops
  have hprim := KernelShape.isPrim_of_mem_kernelEnd (List.getLast_mem h)
  generalize KernelShape.kernelEnd loops = kernel at *
  subst hfront
  rw [modeAt, List.getD_eq_getElem?_getD, ← List.getLast?_eq_getElem?,
    List.getLast?_append_of_ne_nil _ h, List.getLast?_eq_some_getLast h]
  exact of_decide_eq_true hprim

namespace Contraction

variable {α : Type} [Scalar α] {contraction : Contraction α}

/-- A list that is compiled: its levels pass all loops in front of the first kernel loop, each of
them once and in order, and they lead to the kernel loops at the end exactly if no kernel loop stands
further out. -/
theorem compile_leads (hnew : contraction.program = none)
    (hcompiles : contraction.compile.2 = .ok ()) :
    ∃ program stop, contraction.compile.1.program = some program ∧
      Leads contraction.loops 0 program.layout.levels stop ∧
      program.layout.levels.flatMap Level.indices = List.range stop ∧
      stop < contraction.loops.length ∧ modeAt contraction.loops stop = .prim ∧
      (contraction.loops.drop stop = KernelShape.kernelEnd contraction.loops ↔
        KernelLast contraction.loops) := by
  obtain ⟨program, bytes, hmade⟩ := exists_compiles hnew hcompiles
  have hready := hmade.isReady
  have hloops : program.layout.loops = contraction.loops := hready.loops.trans (by rw [hmade.compiled])
  obtain ⟨stop, hleads, hprim⟩ := hready.built.sound.exists_leads
  rw [hloops] at hleads hprim
  have hstop : stop < contraction.loops.length := by
    -- the last loop is a kernel loop, and no kernel loop is passed
    obtain ⟨shape, hshape, -⟩ := bind_eq_ok.1 (make_of_makeKernels hmade.kernels)
    have hkernel := KernelShape.kernelEnd_ne_nil hshape
    have hpos := (List.length_pos_of_ne_nil hkernel).trans_le
      (KernelShape.kernelEnd_suffix contraction.loops).length_le
    by_contra hge
    exact hleads.modeAt_ne_prim (Nat.zero_le _) (by omega) (modeAt_last hkernel)
  refine ⟨program, stop, by rw [hmade.compiled], hleads, ?_, hstop, hprim hstop,
    drop_eq_kernelEnd_iff (fun index hlt => hleads.modeAt_ne_prim (Nat.zero_le _) hlt) hstop
      (hprim hstop)⟩
  rw [hleads.indices_eq, List.range_eq_range', Nat.sub_zero]

/-- A batched product with a run of two OMP loops, a run of two SFC loops and a sequential loop on
either side of them. -/
def sharedRuns : Contraction Int :=
  create
    [⟨.k, .seq, 2, ⟨32, 8, 0, 0⟩, 0, 0⟩, ⟨.c, .omp, 2, ⟨128, 128, 64, 64⟩, 0, 0⟩,
      ⟨.c, .omp, 2, ⟨64, 64, 32, 32⟩, 0, 0⟩, ⟨.n, .sfc, 2, ⟨0, 16, 8, 8⟩, 0, 0⟩,
      ⟨.m, .sfc, 2, ⟨2, 0, 2, 2⟩, 0, 0⟩, ⟨.k, .seq, 2, ⟨8, 2, 0, 0⟩, 0, 0⟩,
      ⟨.m, .prim, 2, ⟨1, 0, 1, 1⟩, 0, 0⟩, ⟨.n, .prim, 2, ⟨0, 8, 4, 4⟩, 0, 0⟩,
      ⟨.k, .prim, 2, ⟨4, 1, 0, 0⟩, 0, 0⟩]
    ⟨.fp32, .fp32, .fp32, .fp32⟩ ⟨.zero, .madd, .undefined⟩ ⟨2, 1, 1⟩ .strided .unlimited

/-- Four levels pass the six loops outside the kernel. -/
theorem compile_leads_sharedRuns :
    ∃ program stop, sharedRuns.compile.1.program = some program ∧
      program.layout.levels =
        [⟨.sequential, 0, 1⟩, ⟨.flat, 1, 3⟩, ⟨.curve, 3, 5⟩, ⟨.sequential, 5, 6⟩] ∧
      Leads sharedRuns.loops 0 program.layout.levels stop ∧
      sharedRuns.loops.drop stop = KernelShape.kernelEnd sharedRuns.loops := by
  have hcompiles : sharedRuns.compile.2 = .ok () := by decide +kernel
  obtain ⟨program, stop, hprogram, hleads, -, -, -, hend⟩ := compile_leads rfl hcompiles
  have hlevels : (sharedRuns.compile.1.program.map fun p => p.layout.levels) =
      some [⟨.sequential, 0, 1⟩, ⟨.flat, 1, 3⟩, ⟨.curve, 3, 5⟩, ⟨.sequential, 5, 6⟩] := by
    decide +kernel
  rw [hprogram] at hlevels
  exact ⟨program, stop, hprogram, Option.some.inj hlevels, hleads, hend.2 (by decide +kernel)⟩

/-- Two products of numbers behind a kernel loop that stands outermost. -/
def interruptedProduct : Contraction Int :=
  create
    [⟨.c, .prim, 1, ⟨0, 0, 0, 0⟩, 0, 0⟩, ⟨.c, .seq, 2, ⟨1, 1, 0, 1⟩, 0, 0⟩,
      ⟨.m, .prim, 1, ⟨0, 0, 0, 0⟩, 0, 0⟩, ⟨.n, .prim, 1, ⟨0, 0, 0, 0⟩, 0, 0⟩,
      ⟨.k, .prim, 1, ⟨0, 0, 0, 0⟩, 0, 0⟩]
    ⟨.fp32, .fp32, .fp32, .fp32⟩ ⟨.undefined, .madd, .undefined⟩ ⟨1, 1, 1⟩ .strided .unlimited

/-- The list is compiled, but its levels do not lead to the kernel loops at the end: the sequential
loop is not executed, and the second product is missing. -/
theorem compile_skips :
    interruptedProduct.compile.2 = .ok () ∧
      (∀ program, interruptedProduct.compile.1.program = some program → ∀ stop,
        Leads interruptedProduct.loops 0 program.layout.levels stop →
          interruptedProduct.loops.drop stop ≠ KernelShape.kernelEnd interruptedProduct.loops) ∧
      ((interruptedProduct.compile.1.contract
        ⟨.fp32, #[1, 2], #[3, 4], none, #[0, 0]⟩).2.map Outcome.out) = .ok #[3, 0] := by
  refine ⟨by decide +kernel, ?_, by decide +kernel⟩
  intro program hprogram stop hleads
  have hlevels : (interruptedProduct.compile.1.program.map fun p => p.layout.levels) = some [] := by
    decide +kernel
  rw [hprogram] at hlevels
  rw [show program.layout.levels = [] from Option.some.inj hlevels] at hleads
  rw [hleads.eq_of_nil]
  decide

end Contraction

end LoopNest
