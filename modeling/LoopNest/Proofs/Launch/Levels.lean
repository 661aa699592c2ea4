import LoopNest.Proofs.Launch.History
import LoopNest.Proofs.Launch.Routes
import LoopNest.Proofs.Launch.Slots

/-!
# Levels and the loops that they run over

A level runs over some of the loops. `Program.Descends` says what a step of a level does to a cursor
in front of these loops: in operands that are not packed yet it moves as it does in the caller's
buffers (`Mirrors`), it may pack in front of the next loop, and the slots that it uses again are
there.

All levels of a program descend from the whole loop list to the kernel loops. What holds of the
kernel loops alone, and of one level more if it holds of the levels further in, holds of all levels
(`Program.levels_induction`).
-/

namespace LoopNest

namespace Program

variable (program : Program)

/-- Whether the loops from an index on read the packed copy of an input. -/
def isDone (side : Side) (index : Nat) : Bool :=
  match program.region side with
  | some region => region.loop ≤ index
  | none => false

/-- The inputs that are packed when a level ends at the loop `next` are those packed before, apart
from the ones packed in front of this loop. -/
def Meets (packed : Side → Bool) (next : Nat) : Prop :=
  ∀ side region, program.region side = some region →
    packed side = true ∧ region.loop < next ∨ packed side = false ∧ next ≤ region.loop

/-- The slots that a step may use again are there, and they are used again at parallel levels
only. -/
def Suits (next : Nat) (reuse : Option Reuse) : Prop :=
  ∀ side region, program.region side = some region → region.loop = next →
    reuse.isSome = program.fillsAgain side ∧
      (reuse.map fun r => r.slot side).getD 0 < program.slots side

/-- A step through the packing buffers and the same step through the caller's buffers, along the
loops `run`. -/
structure Mirrors (packed : Side → Bool) (run : List Loop) (step step' : Step) : Prop where
  first : step'.first = step.first
  last : step'.last = step.last
  outAux : step'.offset.outAux = step.offset.outAux
  out : step'.offset.out = step.offset.out
  inSlot : ∀ side, packed side = true →
    (step'.offset.input side, step.offset.input side) ∈ offsets (Loop.sideStrides side) run
  inBuffer : ∀ side, packed side = false → step'.offset.input side = step.offset.input side

/-- A step through the packing buffers along the loops `run`, and its route: packed inputs stay at
their block, and the others are not within a block. -/
structure Follows (packed : Side → Bool) (run : List Loop) (step : Step) (r : Route) : Prop where
  first : r.first = step.first
  last : r.last = step.last
  offset : r.offset Loop.strides = step.offset
  outAux : (r.offset Loop.callerStrides).outAux = step.offset.outAux
  out : (r.offset Loop.callerStrides).out = step.offset.out
  inSlot : ∀ side, packed side = true →
    r.block side = 0 ∧ r.within side ∈ offsets (Loop.sideStrides side) run
  inBuffer : ∀ side, packed side = false → r.within side = 0

/-- A level that runs over the loops `run`, behind the loops `outer` and in front of the loops
`rest`. -/
structure Descends (share : Share) (outer run rest : List Loop) (level : Level) : Prop where
  append : program.layout.loops = (outer ++ run) ++ rest
  next : level.next = (outer ++ run).length
  meets : program.Meets (fun side => program.isDone side outer.length) level.next
  suits : ∀ step ∈ (program.phase share level).steps, program.Suits level.next step.reuse
  routes : List.Forall₂ (Follows (fun side => program.isDone side outer.length) run)
    (program.phase share level).steps (program.levelRoutes share level)
  offsets : (∀ loop ∈ run, loop.isParallel = false) →
    (program.phaseBy Loop.callerStrides share level).steps.map Step.offset =
      LoopNest.offsets Loop.callerStrides run

variable {program} {packed : Side → Bool} {share : Share} {side : Side}

theorem isDone_eq {region : PackedRegion} (hregion : program.region side = some region)
    (index : Nat) : program.isDone side index = decide (region.loop ≤ index) := by
  rw [isDone, hregion]

theorem fillsAgain_eq {region : PackedRegion} (hregion : program.region side = some region) :
    program.fillsAgain side =
      (decide (0 < region.loop) &&
        (program.layout.loops.getD (region.loop - 1) .unit).isParallel) := by
  rw [fillsAgain, hregion]

/-- What was packed further out is packed. -/
theorem Meets.isDone {next : Nat} (h : program.Meets packed next) {region : PackedRegion}
    (hregion : program.region side = some region) (hpacked : packed side = true) :
    program.isDone side next = true := by
  rw [isDone_eq hregion, decide_eq_true_eq]
  rcases h side region hregion with ⟨-, hlt⟩ | ⟨hfalse, -⟩
  · omega
  · exact absurd (hpacked.symm.trans hfalse) (by simp)

/-- An input whose turn it is has not been packed further out. -/
theorem Meets.eq_false_of_turn {next : Nat} (h : program.Meets packed next)
    {region : PackedRegion} (hregion : program.region side = some region)
    (hturn : region.loop = next) : packed side = false := by
  rcases h side region hregion with ⟨-, hlt⟩ | ⟨hfalse, -⟩
  · omega
  · exact hfalse

/-- Where it is not the turn of an input, nothing changes for it. -/
theorem Meets.eq_isDone {next : Nat} (h : program.Meets packed next) {region : PackedRegion}
    (hregion : program.region side = some region) (hturn : region.loop ≠ next) :
    packed side = program.isDone side next := by
  rw [isDone_eq hregion]
  rcases h side region hregion with ⟨htrue, hlt⟩ | ⟨hfalse, hle⟩
  · rw [htrue, eq_comm, decide_eq_true_eq]
    omega
  · rw [hfalse, eq_comm, decide_eq_false_iff_not]
    omega

theorem Follows.mirrors {run : List Loop} {step step' : Step} {r : Route}
    (h : Follows packed run step r) (hvisit : r.visit Loop.callerStrides = step'.visit) :
    Mirrors packed run step step' := by
  obtain ⟨hoffset, hfirst, hlast⟩ := Visit.mk.inj hvisit
  refine ⟨hfirst.symm.trans h.first, hlast.symm.trans h.last, hoffset ▸ h.outAux, hoffset ▸ h.out,
    fun side hside => ?_, fun side hside => ?_⟩
  · obtain ⟨hblock, hwithin⟩ := h.inSlot side hside
    rwa [Route.within, hblock, sub_zero, sub_zero, h.offset, hoffset] at hwithin
  · obtain ⟨hcaller, hstrides⟩ := Prod.mk.inj (h.inBuffer side hside)
    rw [← hoffset, ← h.offset]
    omega

/-- A level moves through the caller's buffers as its routes do. -/
theorem Descends.mirrors {outer run rest : List Loop} {level : Level}
    (h : program.Descends share outer run rest level) :
    List.Forall₂ (Mirrors (fun side => program.isDone side outer.length) run)
      (program.phase share level).steps
      (program.phaseBy Loop.callerStrides share level).steps := by
  have hvisits : List.Forall₂ (fun step v => ∃ r, v = r.visit Loop.callerStrides ∧
        Follows (fun side => program.isDone side outer.length) run step r)
      (program.phase share level).steps
      ((program.levelRoutes share level).map (Route.visit Loop.callerStrides)) :=
    List.forall₂_map_right_iff.2 (h.routes.imp fun step r hr => ⟨r, rfl, hr⟩)
  rw [map_visit_levelRoutes, List.forall₂_map_right_iff] at hvisits
  exact hvisits.imp fun step step' ⟨r, hvisit, hr⟩ => hr.mirrors hvisit.symm

/-- A parallel level moves by its steps, whatever the strides. -/
theorem levelRoutes_parallel {kind : LevelKind} (hkind : kind ≠ .sequential) (start next : Nat) :
    program.levelRoutes share ⟨kind, start, next⟩ =
      (program.phase share ⟨kind, start, next⟩).steps.map Step.route := by
  cases kind with
  | sequential => exact absurd rfl hkind
  | flat => rfl
  | curve => rfl

variable (hbuilt : program.IsBuilt)

include hbuilt

/-- An input without a packed region is packed along no loop. -/
theorem isPacked_eq_false {side : Side} (hregion : program.region side = none) :
    ∀ loop ∈ program.layout.loops, loop.isPacked side = false := by
  have hpacked := hbuilt.isSome_region side
  rw [hregion, packedIn] at hpacked
  intro loop hloop
  simpa using List.any_eq_false.1 hpacked.symm loop hloop

/-- A region does not begin behind the first kernel loop. -/
theorem loop_le_of_prim {outer kernel : List Loop} (happend : program.layout.loops = outer ++ kernel)
    (hprim : ∀ loop ∈ kernel, loop.isPrim = true) {side : Side} {region : PackedRegion}
    (hregion : program.region side = some region) : region.loop ≤ outer.length := by
  obtain ⟨hlocated, hlast⟩ := hbuilt.located hregion
  by_contra hlt
  have hlength := hlocated.cuts.loop
  rw [happend] at hlength hlast
  rw [List.take_append, List.take_of_length_le (by omega)] at hlength hlast
  have hne : kernel.take (region.loop - outer.length) ≠ [] := by
    intro hnil
    rw [hnil, List.append_nil] at hlength
    omega
  rw [List.getLast?_append, List.getLast?_eq_some_getLast hne, Option.some_or, Option.map_some,
    hprim _ (List.mem_of_mem_take (List.getLast_mem hne))] at hlast
  exact hlast rfl

/-- A region begins behind every loop that is shared by threads. -/
theorem lt_loop_of_parallel {outer rest : List Loop} {loop : Loop}
    (happend : program.layout.loops = outer ++ (loop :: rest)) (hloop : loop.isParallel = true)
    {side : Side} {region : PackedRegion} (hregion : program.region side = some region) :
    outer.length < region.loop := by
  by_contra hle
  have hinside : loop ∈ program.layout.loops.drop region.loop := by
    rw [happend, List.drop_append_of_le_length (by omega)]
    exact List.mem_append_right _ List.mem_cons_self
  rw [(hbuilt.located hregion).1.cuts.sequential loop hinside] at hloop
  exact absurd hloop (by simp)

/-- In front of its region an input is not packed. -/
theorem isPacked_eq_false_of_not_done {outer rest : List Loop} {loop : Loop}
    (happend : program.layout.loops = outer ++ (loop :: rest)) {side : Side}
    (hdone : program.isDone side outer.length = false) : loop.isPacked side = false := by
  have hmem : loop ∈ program.layout.loops := by rw [happend]; simp
  cases hregion : program.region side with
  | none => exact isPacked_eq_false hbuilt hregion loop hmem
  | some region =>
      rw [isDone_eq hregion, decide_eq_false_iff_not] at hdone
      apply (hbuilt.located hregion).1.cuts.outside loop
      rw [happend, List.take_append, List.take_of_length_le (by omega)]
      refine List.mem_append_right _ ?_
      rw [show region.loop - outer.length = (region.loop - outer.length - 1) + 1 by omega,
        List.take_succ_cons]
      exact List.mem_cons_self

/-- Behind its region an input does not move along loops by which it is not packed. -/
theorem stride_eq_zero_of_done {outer rest : List Loop} {loop : Loop}
    (happend : program.layout.loops = outer ++ (loop :: rest)) {side : Side}
    (hdone : program.isDone side outer.length = true) (hunpacked : loop.isPacked side = false) :
    loop.stride side = 0 := by
  cases hregion : program.region side with
  | none =>
      rw [isDone, hregion] at hdone
      exact absurd hdone (by simp)
  | some region =>
      rw [isDone_eq hregion, decide_eq_true_eq] at hdone
      refine (hbuilt.located hregion).1.cuts.fixed loop ?_ hunpacked
      rw [happend, List.drop_append_of_le_length hdone]
      exact List.mem_append_right _ List.mem_cons_self

/-- One iteration of a sequential loop and its route. -/
theorem follows_sequentialSteps {outer rest : List Loop} {loop : Loop}
    (happend : program.layout.loops = outer ++ (loop :: rest)) :
    List.Forall₂ (Follows (fun side => program.isDone side outer.length) [loop])
      (sequentialSteps loop loop.strides) (loopRoutes loop) := by
  rw [sequentialSteps, loopRoutes, List.forall₂_map_left_iff, List.forall₂_map_right_iff]
  refine List.forall₂_same.2 fun i hi => ⟨rfl, rfl, rfl, rfl, rfl, fun side hdone => ?_,
    fun side hdone => ?_⟩
  · have hstay : loop.blockStrides.input side = 0 := by
      rw [loop.blockStrides_input]
      split
      · rfl
      · rename_i hunpacked
        exact stride_eq_zero_of_done hbuilt happend hdone (by simpa using hunpacked)
    have hzero : ∀ first last,
        Route.block ⟨fun stride => (stride loop).scale i, first, last⟩ side = 0 := fun _ _ => by
      rw [Route.block, Operands.input_scale, hstay, zero_mul]
    refine ⟨hzero _ _, mem_sumset.2 ⟨i • loop.sideStrides side, List.mem_map_of_mem hi, 0,
      List.mem_singleton.2 rfl, ?_⟩⟩
    rw [add_zero, Route.within, hzero, sub_zero, sub_zero, Operands.input_scale,
      Operands.input_scale, loop.callerStrides_input, loop.strides_input, mul_comm, mul_comm _ i]
    rfl
  · have hunpacked := isPacked_eq_false_of_not_done hbuilt happend hdone
    simp [Route.within, Route.block, Operands.input_scale, Loop.blockStrides_input,
      Loop.callerStrides_input, Loop.strides_input, Loop.bufferStride, hunpacked]

/-- A step of a parallel level names slots that are there. -/
theorem exists_reuse {kind : LevelKind} (hkind : kind ≠ .sequential) {start next : Nat}
    {step : Step} (hstep : step ∈ (program.phase share ⟨kind, start, next⟩).steps) :
    ∃ reuse, step.reuse = some reuse ∧ ∀ side region,
      program.region side = some region → reuse.slot side < program.slots side := by
  cases kind with
  | sequential => exact absurd rfl hkind
  | flat =>
      obtain ⟨i, -, rfl⟩ := List.mem_map.1 hstep
      refine ⟨⟨0, 0⟩, rfl, fun side region hregion => ?_⟩
      have := hbuilt.slots_pos hregion
      cases side <;> exact this
  | curve =>
      obtain ⟨p, -, rfl⟩ := List.mem_map.1 hstep
      refine ⟨_, rfl, fun side region hregion => ?_⟩
      have := hbuilt.slots_pos hregion
      cases side <;> exact Nat.mod_lt _ this

/-- The level of a sequential loop. -/
theorem descends_sequential {outer rest : List Loop} {loop : Loop}
    (happend : program.layout.loops = (outer ++ [loop]) ++ rest) (hmode : loop.mode = .seq) :
    program.Descends share outer [loop] rest ⟨.sequential, outer.length, outer.length + 1⟩ := by
  have happend' : program.layout.loops = outer ++ ([loop] ++ rest) := by
    rw [happend, List.append_assoc]
  have hloop : program.layout.loops.getD outer.length .unit = loop := getD_append_cons happend'
  -- the phase reads the stride of the one loop that the level has
  have hphase := phases_sequential hbuilt share outer happend' (by simpa using hmode)
  have hphase : program.phase share ⟨.sequential, outer.length, outer.length + 1⟩ =
      program.phaseBy Loop.strides share ⟨.sequential, outer.length, outer.length + 1⟩ :=
    (List.cons.inj hphase).1
  have hsteps : ∀ stride : Loop → Operands Int,
      (program.phaseBy stride share ⟨.sequential, outer.length, outer.length + 1⟩).steps =
        sequentialSteps loop (stride loop) := fun stride => by
    simp only [phaseBy, hloop]
  refine ⟨happend, by simp, ?_, ?_, ?_, fun _ => ?_⟩
  · intro side region hregion
    dsimp only
    rw [isDone_eq hregion, decide_eq_true_eq, decide_eq_false_iff_not]
    omega
  · intro step hstep side region hregion hturn
    rw [hphase, hsteps, sequentialSteps] at hstep
    obtain ⟨i, -, rfl⟩ := List.mem_map.1 hstep
    dsimp only at hturn ⊢
    constructor
    · rw [fillsAgain_eq hregion, hturn, Nat.add_sub_cancel, hloop, Loop.isParallel, hmode]
      simp [Mode.isParallel]
    · exact hbuilt.slots_pos hregion
  · have hroutes : program.levelRoutes share ⟨.sequential, outer.length, outer.length + 1⟩ =
        loopRoutes loop := by rw [levelRoutes, hloop]
    rw [hphase, hsteps, hroutes]
    exact follows_sequentialSteps hbuilt happend'
  · rw [hsteps, sequentialSteps, List.map_map, offsets, offsets, sumset_zero, multiples]
    rfl

/-- The level of loops that are shared by threads. -/
theorem descends_parallel {outer run rest : List Loop}
    (happend : program.layout.loops = (outer ++ run) ++ rest) (hne : run ≠ [])
    (hmode : ∀ loop ∈ run, loop.isParallel = true) {kind : LevelKind} (hkind : kind ≠ .sequential) :
    program.Descends share outer run rest ⟨kind, outer.length, outer.length + run.length⟩ := by
  obtain ⟨init, last, rfl⟩ : ∃ init last, run = init ++ [last] :=
    ⟨run.dropLast, run.getLast hne, (List.dropLast_concat_getLast hne).symm⟩
  have hlast : last.isParallel = true := hmode last (by simp)
  have happend' : program.layout.loops = (outer ++ init) ++ (last :: rest) := by
    rw [happend]
    simp
  have hbehind : ∀ {side : Side} {region : PackedRegion}, program.region side = some region →
      (outer ++ init).length < region.loop := fun hregion =>
    lt_loop_of_parallel hbuilt happend' hlast hregion
  have hlength : (outer ++ init).length + 1 = outer.length + (init ++ [last]).length := by
    simp [Nat.add_assoc]
  have hdone : ∀ side, program.isDone side outer.length = false := by
    intro side
    cases hregion : program.region side with
    | none => rw [isDone, hregion]
    | some region =>
        have hlt := hbehind hregion
        rw [List.length_append] at hlt
        rw [isDone_eq hregion, decide_eq_false_iff_not]
        omega
  refine ⟨happend, by simp, ?_, ?_, ?_, fun hplain => ?_⟩
  · intro side region hregion
    have := hbehind hregion
    dsimp only
    exact .inr ⟨hdone side, by omega⟩
  · intro step hstep side region hregion hturn
    obtain ⟨reuse, hsome, hslot⟩ := exists_reuse hbuilt hkind hstep
    dsimp only at hturn
    rw [hsome]
    refine ⟨?_, hslot side region hregion⟩
    -- the loop in front of the region is the last one of the level, so slots are filled again
    have hindex : region.loop - 1 = (outer ++ init).length := by omega
    have hpos : 0 < region.loop := by omega
    rw [fillsAgain_eq hregion, hindex, getD_append_cons happend', hlast, decide_eq_true hpos]
    rfl
  · rw [levelRoutes_parallel hkind, List.forall₂_map_right_iff]
    refine List.forall₂_same.2 fun step _ => ⟨rfl, rfl, rfl, rfl, rfl, fun side hside => ?_,
      fun side _ => Prod.ext (sub_self _) (sub_self _)⟩
    exact absurd ((hdone side).symm.trans hside) (by simp)
  · exact absurd (hlast.symm.trans (hplain last (by simp))) (by simp)

/-- A statement that one level more keeps holds in front of a run of sequential loops if it holds
behind them. -/
theorem sequentialLevels_induction {motive : List Loop → List Loop → List Level → Prop}
    (hcons : ∀ {outer run rest level inner}, program.Descends share outer run rest level →
      motive (outer ++ run) rest inner → motive outer (run ++ rest) (level :: inner))
    {run outer rest : List Loop} {inner : List Level}
    (happend : program.layout.loops = (outer ++ run) ++ rest) (hmode : ∀ loop ∈ run, loop.mode = .seq)
    (hinner : motive (outer ++ run) rest inner) :
    motive outer (run ++ rest) (sequentialLevels outer.length run ++ inner) := by
  induction run generalizing outer with
  | nil => simpa [sequentialLevels] using hinner
  | cons loop run ih =>
      rw [List.forall_mem_cons] at hmode
      have happend' : program.layout.loops = ((outer ++ [loop]) ++ run) ++ rest := by
        rw [happend]
        simp
      have hrest := ih happend' hmode.2 (by simpa using hinner)
      rw [List.length_append, List.length_singleton] at hrest
      refine @hcons outer [loop] _ _ _ (descends_sequential hbuilt ?_ hmode.1) hrest
      rw [happend', List.append_assoc]
      rfl

/-- A statement that one level more keeps holds in front of a run of parallel loops if it holds
behind them: the run is one level, or none if it is empty. -/
theorem runLevel_induction {motive : List Loop → List Loop → List Level → Prop}
    (hcons : ∀ {outer run rest level inner}, program.Descends share outer run rest level →
      motive (outer ++ run) rest inner → motive outer (run ++ rest) (level :: inner))
    {run outer rest : List Loop} {inner : List Level} {kind : LevelKind}
    (happend : program.layout.loops = (outer ++ run) ++ rest)
    (hmode : ∀ loop ∈ run, loop.isParallel = true) (hkind : kind ≠ .sequential)
    (hinner : motive (outer ++ run) rest inner) :
    motive outer (run ++ rest) (runLevel kind outer.length run ++ inner) := by
  unfold runLevel
  split
  · rename_i hnil
    subst hnil
    simpa using hinner
  · rename_i hne
    exact hcons (descends_parallel hbuilt happend hne hmode hkind) hinner

/-- What holds in front of the kernel loops, and is kept by one level more, holds in front of all
loops. -/
theorem levels_induction {before omp sfc after kernel : List Loop}
    (hcut : Layout.Cut program.layout.loops before omp sfc after kernel)
    {motive : List Loop → List Loop → List Level → Prop}
    (hnil : ∀ outer, program.layout.loops = outer ++ kernel → motive outer kernel [])
    (hcons : ∀ {outer run rest level inner}, program.Descends share outer run rest level →
      motive (outer ++ run) rest inner → motive outer (run ++ rest) (level :: inner)) :
    motive [] program.layout.loops program.layout.levels := by
  have happend := hcut.append
  have homp : ∀ loop ∈ omp, loop.isParallel = true := fun loop hloop => by
    rw [Loop.isParallel, hcut.omp loop hloop]
    rfl
  have hsfc : ∀ loop ∈ sfc, loop.isParallel = true := fun loop hloop => by
    rw [Loop.isParallel, hcut.sfc loop hloop]
    rfl
  -- the runs from the inside out
  have hafter := sequentialLevels_induction hbuilt hcons
    (show _ = before ++ omp ++ sfc ++ after ++ kernel by rw [happend]; simp) hcut.after
    (hnil (before ++ omp ++ sfc ++ after) (by rw [happend]; simp))
  have hcurve := runLevel_induction hbuilt hcons
    (show _ = before ++ omp ++ sfc ++ (after ++ kernel) by rw [happend]; simp) hsfc
    (show LevelKind.curve ≠ .sequential by decide) hafter
  have hflat := runLevel_induction hbuilt hcons
    (show _ = before ++ omp ++ (sfc ++ (after ++ kernel)) by rw [happend]; simp) homp
    (show LevelKind.flat ≠ .sequential by decide) hcurve
  have hall := sequentialLevels_induction hbuilt hcons
    (show _ = [] ++ before ++ (omp ++ (sfc ++ (after ++ kernel))) by rw [happend]; simp)
    hcut.before hflat
  rw [hbuilt.sound.levels_eq hcut, happend]
  simpa only [List.length_append, List.length_nil, List.append_nil] using hall

end Program

end LoopNest
