import LoopNest.Proofs.Launch.Accesses
import LoopNest.Proofs.Launch.PackedReads

/-!
# What a launch accesses lies inside the buffers

If no loop moves backwards, every access of a launch on checked buffers lies inside its buffer
(`Contraction.contains_contract`). The proof follows a cursor through the levels from the outside
in. What a level preserves is `Program.Clear`: wherever the loops further in take the cursor, it
stays within the extents of the program.

Neither condition can be dropped. An extent adds up how far the loops move, whatever their
direction, so a loop that moves backwards leaves its buffer in front
(`Contraction.escapes_backwardProduct`). And at a kernel loop in front of the loop that packs an
input, the main kernel is called before anything is packed: it follows the strides of the packing
buffer through the buffer of the caller, and leaves it behind
(`Contraction.escapes_shieldedProduct`).
-/

namespace LoopNest

variable {α : Type}

/-! ## Cursors on their way through the levels -/

namespace Program

variable (program : Program)

/-- An access lies within the extents of a program. -/
def Within (access : Access) : Prop :=
  0 ≤ access.address ∧ access.address < program.extents.get access.operand

/-- All calls of a step stay within the extents. -/
def Stays (x : ThreadStep (List Call)) : Prop :=
  ∀ state, ∀ call ∈ (x.run state).1, ∀ access ∈ program.accesses call, program.Within access

/-- Wherever the offsets `ahead` take a cursor, it stays within the extents. Inputs that are packed
stand in scratch memory instead. -/
structure Clear (packed : Side → Bool) (cursor : Cursor) (ahead : List (Operands Int)) : Prop where
  outAux : ∀ z ∈ ahead, program.Within ⟨.outAux, cursor.outAux + z.outAux⟩
  out : ∀ z ∈ ahead, program.Within ⟨.out, cursor.out + z.out⟩
  input : ∀ side, packed side = false → ∀ z ∈ ahead,
    program.Within ⟨side.operand, (cursor.input side).address + z.input side⟩
  scratch : ∀ side, packed side = true →
    (program.region side).isSome ∧ (cursor.input side).source = .scratch

/-- The offsets of the caller's buffers that levels and kernels lead to. -/
def ahead (share : Share) (kernel : List Loop) (levels : List Level) : List (Operands Int) :=
  sumset ((visits (levels.map (program.phaseBy Loop.callerStrides share))).map Visit.offset)
    (offsets Loop.callerStrides kernel)

variable {program} {share : Share} {kernel : List Loop} {packed : Side → Bool}

theorem ahead_nil : program.ahead share kernel [] = offsets Loop.callerStrides kernel :=
  zero_sumset _

theorem ahead_cons (level : Level) (inner : List Level) :
    program.ahead share kernel (level :: inner) =
      sumset ((program.phaseBy Loop.callerStrides share level).steps.map Step.offset)
        (program.ahead share kernel inner) := by
  rw [ahead, List.map_cons, visits, map_offset_nest, sumset_assoc, List.map_map]
  rfl

/-- What holds of the calls of each of a list of steps holds of all calls. -/
theorem forall_mem_flatten {P : Call → Prop} {β : Type} {f : β → ThreadStep (List Call)}
    {bs : List β} (h : ∀ b ∈ bs, ∀ state, ∀ call ∈ ((f b).run state).1, P call)
    (state : ThreadState) :
    ∀ call ∈ ((do return (← bs.mapM f).flatten : ThreadStep (List Call)).run state).1, P call := by
  induction bs generalizing state with
  | nil => exact fun call hcall => absurd hcall List.not_mem_nil
  | cons b bs ih =>
      rw [List.forall_mem_cons] at h
      intro call hcall
      rw [run_flatten_cons, List.mem_append] at hcall
      rcases hcall with hcall | hcall
      · exact h.1 _ call hcall
      · exact ih h.2 _ call hcall

/-- A step of a level takes a cursor to where the offsets of the inner levels begin. -/
theorem Clear.move {cursor : Cursor} {run : List Loop} {step step' : Step}
    {steps inner : List (Operands Int)} (h : program.Clear packed cursor (sumset steps inner))
    (hmirrors : Mirrors packed run step step') (hstep : step'.offset ∈ steps) :
    program.Clear packed (cursor.move step.offset) inner := by
  have hahead : ∀ z ∈ inner, step'.offset + z ∈ sumset steps inner := fun z hz =>
    mem_sumset.2 ⟨step'.offset, hstep, z, hz, rfl⟩
  refine ⟨fun z hz => ?_, fun z hz => ?_, fun side hside z hz => ?_, fun side hside => ?_⟩
  · have := h.outAux _ (hahead z hz)
    rwa [Operands.add_outAux, hmirrors.outAux, ← add_assoc] at this
  · have := h.out _ (hahead z hz)
    rwa [Operands.add_out, hmirrors.out, ← add_assoc] at this
  · have := h.input side hside _ (hahead z hz)
    rw [Operands.input_add, hmirrors.inBuffer side hside, ← add_assoc] at this
    rwa [Cursor.input_move]
  · rw [Cursor.input_move]
    exact h.scratch side hside

/-! ## Packing -/

/-- What packing one input in front of the loop `next` does to a cursor, and the calls that it
makes. -/
structure PacksInput (program : Program) (side : Side) (next : Nat) (reuse : Option Reuse)
    (cursor : Cursor) (calls : List Call) (active : Cursor) : Prop where
  outAux : active.outAux = cursor.outAux
  out : active.out = cursor.out
  other : ∀ other, other ≠ side → active.input other = cursor.input other
  turn : ∀ region, program.region side = some region → region.loop = next →
    (active.input side).source = .scratch
  skip : (∀ region, program.region side = some region → region.loop ≠ next) →
    active.input side = cursor.input side
  calls : ∀ call ∈ calls, ∃ region, program.region side = some region ∧ region.loop = next ∧
    call = .pack side (cursor.input side).address
      (program.slotAddress side ((reuse.map fun r => r.slot side).getD 0))

/-- Packing one input copies its block if it is its turn, and does nothing otherwise. -/
theorem packsInput_packInput (side : Side) (next : Nat) (reuse : Option Reuse) (cursor : Cursor)
    (state : ThreadState) :
    program.PacksInput side next reuse cursor
      ((program.packInput side next reuse cursor).run state).1.1
      ((program.packInput side next reuse cursor).run state).1.2 := by
  by_cases hturn : ∃ region, program.region side = some region ∧ region.loop = next
  · obtain ⟨region, hregion, rfl⟩ := hturn
    rw [run_packInput hregion, fillSlot_run]
    refine ⟨Cursor.outAux_withInput _ _ _, Cursor.out_withInput _ _ _,
      fun other hother => Cursor.input_withInput_of_ne _ _ _ hother, fun _ _ _ => ?_,
      fun hnever => absurd rfl (hnever region hregion), fun call hcall => ?_⟩
    · rw [Cursor.input_withInput]
    · split at hcall
      · exact absurd hcall List.not_mem_nil
      · exact ⟨region, hregion, rfl, List.mem_singleton.1 hcall⟩
  · have hnever : ∀ region, program.region side = some region → region.loop ≠ next :=
      fun region hregion hloop => hturn ⟨region, hregion, hloop⟩
    rw [packInput_eq_pure hnever]
    exact ⟨rfl, rfl, fun _ _ => rfl, fun region hregion hloop =>
      absurd hloop (hnever region hregion), fun _ => rfl,
      fun call hcall => absurd hcall List.not_mem_nil⟩

/-- What packing in front of the loop `next` does to a cursor, and the calls that it makes. -/
structure Packs (program : Program) (next : Nat) (reuse : Option Reuse) (cursor : Cursor)
    (calls : List Call) (active : Cursor) : Prop where
  outAux : active.outAux = cursor.outAux
  out : active.out = cursor.out
  turn : ∀ side region, program.region side = some region → region.loop = next →
    (active.input side).source = .scratch
  skip : ∀ side, (∀ region, program.region side = some region → region.loop ≠ next) →
    active.input side = cursor.input side
  calls : ∀ call ∈ calls, ∃ side region, program.region side = some region ∧ region.loop = next ∧
    call = .pack side (cursor.input side).address
      (program.slotAddress side ((reuse.map fun r => r.slot side).getD 0))

/-- Packing both inputs. -/
theorem packs_packInputs (next : Nat) (reuse : Option Reuse) (cursor : Cursor)
    (state : ThreadState) :
    program.Packs next reuse cursor ((program.packInputs next reuse cursor).run state).1.1
      ((program.packInputs next reuse cursor).run state).1.2 := by
  have hleft := program.packsInput_packInput .left next reuse cursor state
  have hright := program.packsInput_packInput .right next reuse
    ((program.packInput .left next reuse cursor).run state).1.2
    ((program.packInput .left next reuse cursor).run state).2
  -- the right input still stands where it stood, and the left one stays where it was moved to
  have hmoved := hleft.other .right (by decide)
  have hactive := hright.other .left (by decide)
  rw [run_packInputs]
  refine ⟨hright.outAux.trans hleft.outAux, hright.out.trans hleft.out, ?_, ?_, ?_⟩
  · intro side region hregion hturn
    cases side with
    | left =>
        rw [hactive]
        exact hleft.turn region hregion hturn
    | right => exact hright.turn region hregion hturn
  · intro side hnever
    cases side with
    | left => exact hactive.trans (hleft.skip hnever)
    | right => exact (hright.skip hnever).trans hmoved
  · intro call hcall
    rcases List.mem_append.1 hcall with hcall | hcall
    · obtain ⟨region, hregion, hturn, rfl⟩ := hleft.calls call hcall
      exact ⟨.left, region, hregion, hturn, rfl⟩
    · obtain ⟨region, hregion, hturn, rfl⟩ := hright.calls call hcall
      rw [hmoved]
      exact ⟨.right, region, hregion, hturn, rfl⟩

/-! ## Levels -/

section Levels

variable (hbuilt : program.IsBuilt)

include hbuilt

/-- Packing in front of loops reads within the extents. -/
theorem Packs.within {outer rest : List Loop} (happend : program.layout.loops = outer ++ rest)
    {ahead : List (Operands Int)}
    (hahead : (∀ loop ∈ rest, loop.isParallel = false) → ahead = offsets Loop.callerStrides rest)
    (hmeets : program.Meets packed outer.length) {reuse : Option Reuse} {cursor active : Cursor}
    {calls : List Call} (h : program.Packs outer.length reuse cursor calls active)
    (hclear : program.Clear packed cursor ahead) :
    ∀ call ∈ calls, ∀ access ∈ program.accesses call, program.Within access := by
  intro call hcall access haccess
  obtain ⟨side, region, hregion, hloop, rfl⟩ := h.calls call hcall
  obtain ⟨region', hregion', move, hmove, rfl⟩ := mem_accesses_pack.1 haccess
  obtain rfl := Option.some.inj (hregion.symm.trans hregion')
  -- the block that is copied is what the loops behind the region reach in the caller's buffer
  have hlocated := (hbuilt.located hregion).1
  rw [hloop, happend, List.take_left, List.drop_left] at hlocated
  obtain ⟨z, hz, heq⟩ := exists_offset_input (hlocated.mem_moves_iff.1 hmove)
  rw [← heq]
  rw [← hahead hlocated.cuts.sequential] at hz
  exact hclear.input side (hmeets.eq_false_of_turn hregion hloop) z hz

omit hbuilt in
/-- Packing leaves a cursor that stays within the extents. -/
theorem Packs.clear {next : Nat} {ahead : List (Operands Int)} (hmeets : program.Meets packed next)
    {reuse : Option Reuse} {cursor active : Cursor} {calls : List Call}
    (h : program.Packs next reuse cursor calls active)
    (hclear : program.Clear packed cursor ahead) :
    program.Clear (fun side => program.isDone side next) active ahead := by
  refine ⟨fun z hz => ?_, fun z hz => ?_, fun side hside z hz => ?_, fun side hside => ?_⟩
  · rw [h.outAux]
    exact hclear.outAux z hz
  · rw [h.out]
    exact hclear.out z hz
  · have hlater : ∀ region, program.region side = some region → region.loop ≠ next := by
      intro region hregion
      rw [isDone_eq hregion, decide_eq_false_iff_not] at hside
      omega
    rw [h.skip side hlater]
    refine hclear.input side (Bool.eq_false_of_not_eq_true fun hpacked => ?_) z hz
    obtain ⟨region, hregion⟩ := Option.isSome_iff_exists.1 (hclear.scratch side hpacked).1
    exact absurd ((hmeets.isDone hregion hpacked).symm.trans hside) (by simp)
  · cases hregion : program.region side with
    | none =>
        rw [isDone, hregion] at hside
        exact absurd hside (by simp)
    | some region =>
        refine ⟨rfl, ?_⟩
        by_cases hloop : region.loop = next
        · exact h.turn side region hregion hloop
        · -- it was packed further out
          rw [h.skip side fun region' hregion' => by
            obtain rfl := Option.some.inj (hregion.symm.trans hregion')
            exact hloop]
          exact (hclear.scratch side ((hmeets.eq_isDone hregion hloop).trans hside)).2

/-- One step of a level and all that is inside stay within the extents if the inner levels do so
from every cursor that does. -/
theorem stays_step {outer rest : List Loop} (happend : program.layout.loops = outer ++ rest)
    {ahead : List (Operands Int)}
    (hahead : (∀ loop ∈ rest, loop.isParallel = false) → ahead = offsets Loop.callerStrides rest)
    (hmeets : program.Meets packed outer.length) {cursor : Cursor}
    (hclear : program.Clear packed cursor ahead) (reuse : Option Reuse)
    (body : Cursor → ThreadStep (List Call))
    (hbody : ∀ active, program.Clear (fun side => program.isDone side outer.length) active ahead →
      program.Stays (body active)) :
    program.Stays (do
      let (packing, active) ← program.packInputs outer.length reuse cursor
      let calls ← body active
      return packing ++ calls) := by
  intro state call hcall
  have hpacks := program.packs_packInputs outer.length reuse cursor state
  rcases List.mem_append.1 hcall with hcall | hcall
  · exact hpacks.within hbuilt happend hahead hmeets hclear call hcall
  · exact hbody _ (hpacks.clear hmeets hclear) _ call hcall

omit hbuilt in
/-- The kernel calls at a tile are touches and a call of the main kernel. -/
theorem mem_kernelCalls {cursor : Cursor} {first last : Bool} {call : Call}
    (hcall : call ∈ program.kernelCalls cursor first last) :
    (∃ which, call = .touch which cursor.outAux cursor.out) ∨
      call = .main cursor.left cursor.right cursor.out := by
  have htouch : ∀ {which : Touch} {wanted : Bool},
      call ∈ (if wanted then [Call.touch which cursor.outAux cursor.out] else []) →
        call = .touch which cursor.outAux cursor.out := by
    intro which wanted hcall
    cases wanted with
    | true => exact List.mem_singleton.1 hcall
    | false => exact absurd hcall List.not_mem_nil
  rcases List.mem_append.1 hcall with hcall | hcall
  · rcases List.mem_append.1 hcall with hcall | hcall
    · exact .inl ⟨_, htouch hcall⟩
    · exact .inr (List.mem_singleton.1 hcall)
  · exact .inl ⟨_, htouch hcall⟩

/-- The main kernel reads an input within the extents, if it reads it from the caller's buffer. -/
theorem Clear.within_inputAccesses (hfollows : program.kernels.Follows kernel) {outer : List Loop}
    (happend : program.layout.loops = outer ++ kernel)
    (hprim : ∀ loop ∈ kernel, loop.isPrim = true) {cursor : Cursor}
    (h : program.Clear (fun side => program.isDone side outer.length) cursor
      (offsets Loop.callerStrides kernel)) (side : Side) :
    ∀ access ∈ program.inputAccesses side (cursor.input side), program.Within access := by
  intro access haccess
  obtain ⟨hsource, a, ha, rfl⟩ := mem_inputAccesses.1 haccess
  cases hdone : program.isDone side outer.length with
  | true => exact absurd ((h.scratch side hdone).2.symm.trans hsource) (by decide)
  | false =>
      -- what is not packed in front of the kernel loops is not packed at all
      have hunpacked : ∀ loop ∈ kernel, loop.isPacked side = false := by
        intro loop hloop
        cases hregion : program.region side with
        | none =>
            exact isPacked_eq_false hbuilt hregion loop (happend ▸ List.mem_append_right _ hloop)
        | some region =>
            have hle := loop_le_of_prim hbuilt happend hprim hregion
            rw [isDone_eq hregion, decide_eq_false_iff_not] at hdone
            exact absurd hle hdone
      obtain ⟨z, hz, rfl⟩ := hfollows.reads side hunpacked a ha
      exact h.input side hdone z hz

/-- Kernel calls from a cursor that stays within the extents stay within them. -/
theorem stays_kernelCalls (hfollows : program.kernels.Follows kernel) {outer : List Loop}
    (happend : program.layout.loops = outer ++ kernel)
    (hprim : ∀ loop ∈ kernel, loop.isPrim = true) {cursor : Cursor}
    (hclear : program.Clear (fun side => program.isDone side outer.length) cursor
      (offsets Loop.callerStrides kernel)) (first last : Bool) :
    program.Stays (pure (program.kernelCalls cursor first last)) := by
  intro state call hcall access haccess
  rcases mem_kernelCalls hcall with ⟨which, rfl⟩ | rfl
  · obtain ⟨touch, hkernel, haccess⟩ := mem_accesses_touch.1 haccess
    have hmade := made_of_touchKernel hkernel
    rcases haccess with ⟨a, ha, rfl⟩ | ⟨a, ha, rfl⟩
    · obtain ⟨z, hz, rfl⟩ := hfollows.touchReads touch hmade a ha
      exact hclear.outAux z hz
    · obtain ⟨z, hz, rfl⟩ := hfollows.touchWrites touch hmade a ha
      exact hclear.out z hz
  · have hinput := hclear.within_inputAccesses hbuilt hfollows happend hprim
    rcases mem_accesses_main.1 haccess with (hleft | hright) | ⟨a, ha, rfl⟩
    · exact hinput .left access hleft
    · exact hinput .right access hright
    · obtain ⟨z, hz, rfl⟩ := hfollows.writes a ha
      exact hclear.out z hz

/-- The levels in front of the loops `rest` lead a cursor to the offsets of these loops, and stay
within the extents if the cursor does. -/
def Bounded (program : Program) (kernel : List Loop) (share : Share) (outer rest : List Loop)
    (levels : List Level) : Prop :=
  ((∀ loop ∈ rest, loop.isParallel = false) →
    program.ahead share kernel levels = offsets Loop.callerStrides rest) ∧
    ∀ cursor first last, program.Clear (fun side => program.isDone side outer.length) cursor
        (program.ahead share kernel levels) →
      program.Stays (program.runPhases (levels.map (program.phase share)) cursor first last)

/-- One more level in front of levels that stay within the extents. -/
theorem Bounded.cons {outer run rest : List Loop} {level : Level} {inner : List Level}
    (h : program.Descends share outer run rest level)
    (hinner : program.Bounded kernel share (outer ++ run) rest inner) :
    program.Bounded kernel share outer (run ++ rest) (level :: inner) := by
  obtain ⟨hahead, hstays⟩ := hinner
  refine ⟨fun hplain => ?_, fun cursor first last hclear => ?_⟩
  · rw [List.forall_mem_append] at hplain
    rw [ahead_cons, h.offsets hplain.1, hahead hplain.2, offsets_append]
  · rw [ahead_cons] at hclear
    refine forall_mem_flatten fun step hstep => ?_
    -- each step in blocks mirrors a step in the caller's strides, which is the one bounded ahead
    obtain ⟨step', hstep', hmirrors⟩ :
        ∃ step' ∈ (program.phaseBy Loop.callerStrides share level).steps,
          Mirrors (fun side => program.isDone side outer.length) run step step' := by
      obtain ⟨i, rfl⟩ := List.get_of_mem hstep
      obtain ⟨hlength, hall⟩ := List.forall₂_iff_get.1 h.mirrors
      exact ⟨_, List.get_mem _ ⟨i, hlength ▸ i.2⟩, hall i i.2 _⟩
    have hmeets := h.meets
    show program.Stays (do
      let (packing, active) ← program.packInputs level.next step.reuse (cursor.move step.offset)
      let calls ← program.runPhases (inner.map (program.phase share)) active
        (first && step.first) (last && step.last)
      return packing ++ calls)
    rw [h.next] at hmeets ⊢
    apply stays_step hbuilt h.append hahead hmeets
      (hclear.move hmirrors (List.mem_map_of_mem hstep')) step.reuse
      (fun active => program.runPhases (inner.map (program.phase share)) active
        (first && step.first) (last && step.last))
    intro active hactive
    exact hstays active _ _ hactive

/-- All levels of a program stay within the extents. -/
theorem bounded_levels (hfollows : program.kernels.Follows kernel)
    {before omp sfc after : List Loop}
    (hcut : Layout.Cut program.layout.loops before omp sfc after kernel) :
    program.Bounded kernel share [] program.layout.loops program.layout.levels := by
  have hprim : ∀ loop ∈ kernel, loop.isPrim = true := fun loop hloop => by
    rw [Loop.isPrim, hcut.kernel loop hloop]
    rfl
  apply levels_induction (motive := program.Bounded kernel share) hbuilt hcut
  · intro outer happend
    refine ⟨fun _ => ahead_nil, fun cursor first last hclear => ?_⟩
    rw [ahead_nil] at hclear
    exact stays_kernelCalls hbuilt hfollows happend hprim hclear first last
  · intro outer run rest level inner h hinner
    exact hinner.cons hbuilt h

/-- The offsets that a thread leads to are those of index tuples of all loops. -/
theorem mem_offsets_of_ahead (hkernel : KernelLast program.layout.loops)
    {before omp sfc after : List Loop}
    (hcut : Layout.Cut program.layout.loops before omp sfc after kernel) {thread : Nat}
    (hthread : thread < program.layout.threads.total) {work : Work}
    (hdoes : program.Does (program.layout.shareOf thread) work) {z : Operands Int}
    (hz : z ∈ program.ahead (program.layout.shareOf thread) kernel program.layout.levels) :
    work.offset + z ∈ offsets Loop.callerStrides program.layout.loops := by
  have hprim : kernelLoops program.layout.loops = kernel :=
    (hcut.filter_mode fun mode => mode = .prim).trans (by simp)
  obtain ⟨y, hy, x, hx, rfl⟩ := mem_sumset.1 hz
  obtain ⟨v, hv, rfl⟩ := List.mem_map.1 hy
  have hvisit : v.shift work.offset ∈ program.threadVisits Loop.callerStrides before after
      (program.layout.shareOf thread) := by
    rw [← visits_phasesBy hbuilt hdoes Loop.callerStrides hcut]
    exact List.mem_map_of_mem hv
  have houter := (map_offset_launchVisits hbuilt hbuilt.keepsParallel hcut).mem_iff.1
    (List.mem_map_of_mem (List.mem_flatMap.2 ⟨thread, List.mem_range.2 hthread, hvisit⟩))
  rw [← hkernel, hprim, offsets_append, ← add_assoc]
  exact mem_sumset.2 ⟨_, houter, x, hx, rfl⟩

omit hbuilt in
/-- A thread begins with a cursor in the buffers of the caller, at the offset of its work. -/
theorem clear_start {offset : Operands Int} {ahead : List (Operands Int)}
    (h : ∀ z ∈ ahead, ∀ operand, program.Within ⟨operand, (offset + z).get operand⟩) :
    program.Clear (fun _ => false) ((Cursor.start 0).move offset) ahead := by
  refine ⟨fun z hz => ?_, fun z hz => ?_, fun side _ z hz => ?_, fun side hside => ?_⟩
  · show program.Within ⟨.outAux, 0 + offset.outAux + z.outAux⟩
    rw [zero_add]
    exact h z hz .outAux
  · show program.Within ⟨.out, 0 + offset.out + z.out⟩
    rw [zero_add]
    exact h z hz .out
  · cases side with
    | left =>
        show program.Within ⟨.left, 0 + offset.left + z.left⟩
        rw [zero_add]
        exact h z hz .left
    | right =>
        show program.Within ⟨.right, 0 + offset.right + z.right⟩
        rw [zero_add]
        exact h z hz .right
  · exact absurd hside (by simp)

/-- The calls of a thread stay within the extents if all index tuples do. -/
theorem within_threadCalls (hfollows : program.kernels.Follows kernel)
    (hkernel : KernelLast program.layout.loops) {before omp sfc after : List Loop}
    (hcut : Layout.Cut program.layout.loops before omp sfc after kernel)
    (hall : ∀ z ∈ offsets Loop.callerStrides program.layout.loops, ∀ operand,
      program.Within ⟨operand, z.get operand⟩) {thread : Nat}
    (hthread : thread < program.layout.threads.total) {work : Work}
    (hdoes : program.Does (program.layout.shareOf thread) work) {state : ThreadState}
    (hfits : program.Fits work state) :
    ∀ call ∈ ((program.threadCalls work 0).run state).1, ∀ access ∈ program.accesses call,
      program.Within access := by
  obtain ⟨hahead, hstays⟩ : program.Bounded kernel (program.layout.shareOf thread) []
      program.layout.loops program.layout.levels := bounded_levels hbuilt hfollows hcut
  have hclear := clear_start fun z hz =>
    hall _ (mem_offsets_of_ahead hbuilt hkernel hcut hthread hdoes hz)
  have hmeets : program.Meets (fun _ => false) ([] : List Loop).length := fun _ _ _ =>
    .inr ⟨rfl, Nat.zero_le _⟩
  have hfirst := stays_step hbuilt (show program.layout.loops = [] ++ _ from rfl) hahead hmeets
    hclear none
    (fun active => program.runPhases (program.layout.levels.map
      (program.phase (program.layout.shareOf thread))) active true true)
    fun active hactive => hstays active true true hactive
  -- the first phase packs what is packed in front of all loops
  have hphases : program.Stays (program.runPhases
      (program.threadPhases work (program.layout.shareOf thread)) (Cursor.start 0) true true) := by
    apply forall_mem_flatten
    rw [List.forall_mem_singleton]
    exact hfirst
  rw [threadCalls_run hbuilt hdoes hcut 0 hfits]
  exact hphases _

end Levels

end Program

/-! ## Launches -/

/-- Loops that do not move backwards through the buffers of the caller, apart from those of one
iteration. -/
def MovesForward (loops : List Loop) : Prop :=
  ∀ loop ∈ loops, loop.size = 1 ∨ ∀ operand, 0 ≤ loop.callerStrides.get operand

namespace Program

variable {program : Program}

/-- The extents are those of the strides through the caller's buffers. -/
theorem IsBuilt.get_extents (hbuilt : program.IsBuilt) (operand : Operand) :
    program.extents.get operand =
      extentBy program.layout.loops fun loop => loop.callerStrides.get operand := by
  rw [hbuilt.extents]
  cases operand <;> rfl

/-- The extents hold every index tuple of loops that move forward. -/
theorem IsBuilt.within_of_mem (hbuilt : program.IsBuilt)
    (hforward : MovesForward program.layout.loops) {z : Operands Int}
    (hz : z ∈ offsets Loop.callerStrides program.layout.loops) (operand : Operand) :
    program.Within ⟨operand, z.get operand⟩ := by
  have hmem := List.mem_map_of_mem (f := Operands.getHom operand) hz
  rw [map_offsets] at hmem
  obtain ⟨hlow, hhigh⟩ := lt_extentBy
    (fun loop hloop => (hforward loop hloop).imp_right fun hget => hget operand) hmem
  refine ⟨hlow, ?_⟩
  rw [hbuilt.get_extents]
  exact hhigh

end Program

namespace Buffers

/-- The buffer of an operand stream, if it was given. -/
def get (buffers : Buffers α) : Operand → Option (Buffer α)
  | .left => some buffers.left
  | .right => some buffers.right
  | .outAux => buffers.outAux
  | .out => some buffers.out

/-- An access lies inside its buffer. -/
def Contains (buffers : Buffers α) (access : Access) : Prop :=
  ∃ buffer, buffers.get access.operand = some buffer ∧ 0 ≤ access.address ∧
    access.address < buffer.size

end Buffers

namespace Contraction

variable {contraction : Contraction α} {program : Program} {buffers : Buffers α}

/-- A program reads an auxiliary tensor only if one of its tags asks for it. -/
theorem IsReady.readsAux (hready : contraction.IsReady program) {call : Call} {address : Int}
    (h : ⟨.outAux, address⟩ ∈ program.accesses call) :
    contraction.tags.readsAux.isSome = true := by
  -- copies and main kernels access the inputs and the output only
  have hside : ∀ {side : Side} {a : Int}, (⟨side.operand, a⟩ : Access) ≠ ⟨.outAux, address⟩ := by
    intro side a heq
    have hoperand := (Access.mk.inj heq).1
    cases side <;> exact absurd hoperand (by decide)
  have hout : ∀ {a : Int}, (⟨.out, a⟩ : Access) ≠ ⟨.outAux, address⟩ := fun heq =>
    absurd (Access.mk.inj heq).1 (by decide)
  cases call with
  | pack side source target =>
      obtain ⟨_, -, _, -, heq⟩ := Program.mem_accesses_pack.1 h
      exact absurd heq hside
  | main left right out =>
      rcases Program.mem_accesses_main.1 h with (h | h) | ⟨_, -, heq⟩
      · obtain ⟨-, _, -, heq⟩ := Program.mem_inputAccesses.1 h
        exact absurd heq hside
      · obtain ⟨-, _, -, heq⟩ := Program.mem_inputAccesses.1 h
        exact absurd heq hside
      · exact absurd heq hout
  | touch which outAux out =>
      obtain ⟨touch, hkernel, ⟨a, ha, -⟩ | ⟨_, -, heq⟩⟩ := Program.mem_accesses_touch.1 h
      · obtain ⟨tag, htag, hmake⟩ := KernelTags.touchKernel_of_make
          (make_of_makeKernels hready.kernels) (Program.made_of_touchKernel hkernel)
        rw [KernelTags.readsAux, List.find?_isSome]
        exact ⟨tag, htag, (Provider.readsAux_of_touchKernel hmake).2 (List.ne_nil_of_mem ha)⟩
      · exact absurd heq hout

/-- Accesses within the extents of a program lie inside buffers that are accepted. -/
theorem Accepts.contains (h : contraction.Accepts program buffers)
    (hready : contraction.IsReady program) {call : Call} {access : Access}
    (haccess : access ∈ program.accesses call) (hwithin : program.Within access) :
    buffers.Contains access := by
  obtain ⟨operand, address⟩ := access
  obtain ⟨hlow, hhigh⟩ := hwithin
  cases operand with
  | left =>
      have := h.left
      exact ⟨_, rfl, hlow, lt_of_lt_of_le hhigh (Int.ofNat_le.2 this)⟩
  | right =>
      have := h.right
      exact ⟨_, rfl, hlow, lt_of_lt_of_le hhigh (Int.ofNat_le.2 this)⟩
  | out =>
      have := h.out
      exact ⟨_, rfl, hlow, lt_of_lt_of_le hhigh (Int.ofNat_le.2 this)⟩
  | outAux =>
      obtain ⟨aux, haux⟩ := Option.isSome_iff_exists.1 (h.given (hready.readsAux haccess))
      have := h.outAux aux haux
      exact ⟨aux, haux, hlow, lt_of_lt_of_le hhigh (Int.ofNat_le.2 this)⟩

/-- In an accepted launch of loops that move forward, every element that is read or written lies
inside its buffer. -/
theorem Launches.contains [Scalar α] (hready : contraction.IsReady program)
    (hkernel : KernelLast contraction.loops) (hforward : MovesForward contraction.loops)
    (haccepts : contraction.Accepts program buffers) :
    ∀ calls ∈ program.launchCalls contraction.states 0, ∀ call ∈ calls,
      ∀ access ∈ program.accesses call, buffers.Contains access := by
  have hbuilt := hready.built
  have hmake := make_of_makeKernels hready.kernels
  rw [← hready.loops] at hkernel hforward hmake
  obtain ⟨before, omp, sfc, after, kernel, hcut⟩ := hbuilt.sound.exists_cut hkernel
  have hfollows := KernelTags.follows_of_make hkernel hbuilt.sizes hmake
  rw [show kernelLoops program.layout.loops = kernel from
    (hcut.filter_mode fun mode => mode = .prim).trans (by simp)] at hfollows
  intro calls hcalls call hcall access haccess
  -- the calls are those of some thread, and the bounds hold for the work of each thread
  obtain ⟨i, rfl⟩ := List.get_of_mem hcalls
  obtain ⟨hlength, hall⟩ := List.forall₂_iff_get.1 (hready.forall₂_launchCalls 0)
  have hi : (i : Nat) < (List.range program.layout.threads.total).length := by
    rw [hlength]
    exact i.2
  obtain ⟨work, state, hdoes, hfits, heq⟩ := hall i hi i.2
  rw [List.get_eq_getElem, List.getElem_range] at hdoes
  rw [List.length_range] at hi
  rw [heq] at hcall
  exact haccepts.contains hready haccess
    (Program.within_threadCalls hbuilt hfollows hkernel hcut
      (fun z hz operand => hbuilt.within_of_mem hforward hz operand) hi hdoes hfits call hcall
      access haccess)

/-- In every launch on checked buffers, every element that a packing copy, a touch kernel or the
main kernel reads or writes lies inside its buffer, if no loop moves backwards. -/
theorem contains_contract [Scalar α] (hnew : contraction.program = none)
    (hkernel : KernelLast contraction.loops) (hforward : MovesForward contraction.loops)
    (requests : List (Request α)) {next : Contraction α} {outcome : Outcome α}
    (h : (requests.foldl serve contraction).contract buffers = (next, .ok outcome)) :
    ∃ program, (requests.foldl serve contraction).program = some program ∧
      ∀ calls ∈ program.launchCalls (requests.foldl serve contraction).states 0, ∀ call ∈ calls,
        ∀ access ∈ program.accesses call, buffers.Contains access := by
  obtain ⟨hready, hsame⟩ := isReady_foldl_serve
    (fun program hprogram => absurd (hnew.symm.trans hprogram) (by simp)) requests
  obtain ⟨program, slices, haccepts, -⟩ := contract_launches hready h
  rw [← hsame.loops] at hkernel hforward
  exact ⟨program, haccepts.compiled,
    Launches.contains (hready program haccepts.compiled) hkernel hforward haccepts⟩

/-- The packed product on top of an auxiliary tensor. -/
def biasedProduct : Contraction Int := { packedProduct with tags := ⟨.copy, .madd, .relu⟩ }

/-- Buffers for `biasedProduct`. -/
def biasedBuffers : Buffers Int := { packedBuffers 3 with outAux := some (.replicate 16 1) }

/-- The second launch of the biased product, which packs both inputs and reads the auxiliary
tensor. -/
theorem contains_contract_biasedProduct :
    ∃ program next outcome,
      ([.compile, .contract biasedBuffers].foldl serve biasedProduct).contract biasedBuffers =
          (next, .ok outcome) ∧
        ([.compile, .contract biasedBuffers].foldl serve biasedProduct).program = some program ∧
        ∀ calls ∈ program.launchCalls
            ([.compile, .contract biasedBuffers].foldl serve biasedProduct).states 0,
          ∀ call ∈ calls, ∀ access ∈ program.accesses call, biasedBuffers.Contains access := by
  have hkernel : KernelLast biasedProduct.loops := by decide +kernel
  have hforward : MovesForward biasedProduct.loops := by
    have hall : ∀ loop ∈ biasedProduct.loops, 0 ≤ loop.callerStrides.left ∧
        0 ≤ loop.callerStrides.right ∧ 0 ≤ loop.callerStrides.outAux ∧
          0 ≤ loop.callerStrides.out := by decide
    intro loop hloop
    obtain ⟨hleft, hright, houtAux, hout⟩ := hall loop hloop
    refine .inr fun operand => ?_
    cases operand with
    | left => exact hleft
    | right => exact hright
    | outAux => exact houtAux
    | out => exact hout
  have haccepted : (([.compile, .contract biasedBuffers].foldl serve biasedProduct).contract
      biasedBuffers).2.isOk = true := by decide +kernel
  rcases hlaunch : ([.compile, .contract biasedBuffers].foldl serve biasedProduct).contract
    biasedBuffers with ⟨next, error | outcome⟩
  · rw [hlaunch] at haccepted
    exact absurd haccepted (by simp [Except.isOk, Except.toBool])
  · obtain ⟨program, hprogram, hcontains⟩ := contains_contract rfl hkernel hforward
      [.compile, .contract biasedBuffers] hlaunch
    exact ⟨program, next, outcome, hlaunch, hprogram, hcontains⟩

/-- The first launch on buffers is accepted, and an element outside its buffer is read or written in
it. -/
def Escapes (contraction : Contraction Int) (buffers : Buffers Int) : Prop :=
  ∃ program next outcome,
    contraction.compile.1.contract buffers = (next, .ok outcome) ∧
      contraction.compile.1.program = some program ∧
      ∃ calls ∈ program.launchCalls contraction.compile.1.states 0, ∃ call ∈ calls,
        ∃ access ∈ program.accesses call, ¬buffers.Contains access

/-- The accesses of the first launch. -/
def firstAccesses (contraction : Contraction Int) : List Access :=
  contraction.compile.1.program.elim [] fun program =>
    (program.launchCalls contraction.compile.1.states 0).flatMap fun calls =>
      calls.flatMap program.accesses

theorem escapes_of_access {contraction : Contraction Int} {buffers : Buffers Int} {access : Access}
    (haccepted : (contraction.compile.1.contract buffers).2.isOk = true)
    (haccess : access ∈ contraction.firstAccesses) (houtside : ¬buffers.Contains access) :
    contraction.Escapes buffers := by
  rcases hlaunch : contraction.compile.1.contract buffers with ⟨next, error | outcome⟩
  · rw [hlaunch] at haccepted
    exact absurd haccepted (by simp [Except.isOk, Except.toBool])
  · unfold firstAccesses at haccess
    cases hprogram : contraction.compile.1.program with
    | none =>
        rw [hprogram] at haccess
        exact absurd haccess List.not_mem_nil
    | some program =>
        rw [hprogram] at haccess
        obtain ⟨calls, hcalls, haccess⟩ := List.mem_flatMap.1 haccess
        obtain ⟨call, hcall, haccess⟩ := List.mem_flatMap.1 haccess
        exact ⟨program, next, outcome, hlaunch, hprogram, calls, hcalls, call, hcall, access,
          haccess, houtside⟩

/-- A product with a loop that moves backwards through the output. -/
def backwardProduct : Contraction Int :=
  create
    [⟨.n, .seq, 2, ⟨0, 1, 0, -2⟩, 0, 0⟩, ⟨.m, .prim, 2, ⟨1, 0, 0, 1⟩, 0, 0⟩,
      ⟨.n, .prim, 1, ⟨0, 0, 0, 0⟩, 0, 0⟩, ⟨.k, .prim, 1, ⟨0, 0, 0, 0⟩, 0, 0⟩]
    ⟨.fp32, .fp32, .fp32, .fp32⟩ ⟨.undefined, .madd, .undefined⟩ ⟨1, 1, 1⟩ .strided .unlimited

/-- A loop that moves backwards writes in front of the output. -/
theorem escapes_backwardProduct :
    backwardProduct.Escapes ⟨.fp32, #[1, 2], #[3, 4], none, #[0, 0, 0, 0]⟩ := by
  refine escapes_of_access ?_ (show ⟨.out, -2⟩ ∈ firstAccesses _ from ?_) ?_
  · decide +kernel
  · decide +kernel
  · rintro ⟨buffer, -, hlow, -⟩
    exact absurd hlow (by decide)

/-- A product with a packed input that is never copied, because a kernel loop stands in front of its
packing loop. The kernel loops take the elements 0 to 3 of the left input, and lie at 0, 1, 3 and 4
in the packing buffer. -/
def shieldedProduct : Contraction Int :=
  create
    [⟨.c, .prim, 1, ⟨0, 0, 0, 0⟩, 0, 0⟩, ⟨.m, .seq, 1, ⟨1, 0, 0, 0⟩, 0, 0⟩,
      ⟨.m, .prim, 2, ⟨1, 0, 0, 1⟩, 2, 0⟩, ⟨.n, .prim, 1, ⟨0, 0, 0, 0⟩, 0, 0⟩,
      ⟨.k, .prim, 2, ⟨3, 1, 0, 0⟩, 1, 0⟩]
    ⟨.fp64, .fp64, .fp64, .fp64⟩ ⟨.undefined, .madd, .undefined⟩ ⟨1, 1, 1⟩ .strided .unlimited

/-- With kernel loops that do not stand last, the main kernel may go through the caller's buffer
with the strides of a packing buffer, and read behind its end. -/
theorem escapes_shieldedProduct :
    shieldedProduct.Escapes ⟨.fp64, #[1, 2, 3, 4], #[5, 0], none, #[0, 0]⟩ := by
  refine escapes_of_access ?_ (show ⟨.left, 4⟩ ∈ firstAccesses _ from ?_) ?_
  · decide +kernel
  · decide +kernel
  · rintro ⟨buffer, hbuffer, -, hhigh⟩
    obtain rfl := Option.some.inj hbuffer
    exact absurd hhigh (by decide)

end Contraction

end LoopNest
