import LoopNest.Proofs.Launch.Bounds
import LoopNest.Proofs.Launch.Relaunch

/-!
# Calls keep to the packing slots

The scratch memory of a thread is a row of packing slots, first those of the left input, then those
of the right one. No two of them share a cell (`Program.slot_unique`), and all of them lie in the
scratch cells of a thread (`Program.slot_bounds`).

A packing copy fills cells of one slot of its input, and the main kernel reads a packed input from
one slot of this input (`Program.KeepsToSlots`). For the copies this is shown along the phases of a
thread: every step names slots that are there (`Program.Suits`). For the kernel calls it follows from
where the inputs stand on a route (`Program.Stands`). `Program.keepsToSlots_threadCalls` puts both
together. Nothing of it depends on the contents of any buffer.
-/

namespace LoopNest

namespace Program

variable (program : Program)

/-- The main kernel reads a packed input from one of its slots, and any other input from the caller's
buffer. -/
structure ReadsOneSlot (side : Side) (place : Place) : Prop where
  source : place.source = if (program.region side).isSome then .scratch else .buffer
  slot : (program.region side).isSome = true → ∃ slot < program.slots side,
    ∀ cell ∈ program.scratchReads side place, program.InSlot side slot cell

/-- A call keeps to the packing slots: a copy fills cells of one slot of its input, and the main
kernel reads each packed input from one slot of this input. -/
def KeepsToSlots : Call → Prop
  | .pack side _ target =>
      ∃ slot < program.slots side, ∀ cell ∈ program.targets side target,
        program.InSlot side slot cell
  | .touch .. => True
  | .main left right _ => program.ReadsOneSlot .left left ∧ program.ReadsOneSlot .right right

/-- A copy goes to the beginning of a slot. -/
def FillsSlot (call : Call) : Prop :=
  ∀ side source target, call = .pack side source target →
    ∃ slot < program.slots side, target = program.slotAddress side slot

variable {program}

/-! ## Slots -/

/-- A cell belongs to at most one slot, of one input. -/
theorem slot_unique (hbuilt : program.IsBuilt)
    (hforward : ∀ side, PackedForward side program.layout.loops) {side other : Side}
    {slot otherSlot : Nat} (hslot : slot < program.slots side)
    (hotherSlot : otherSlot < program.slots other) {cell : Int}
    (hcell : program.InSlot side slot cell) (hother : program.InSlot other otherSlot cell) :
    other = side ∧ otherSlot = slot := by
  by_contra hne
  obtain ⟨hlow, hhigh⟩ := hcell
  rcases slots_disjoint hbuilt hforward hslot hotherSlot hne hother with hbelow | habove
  · omega
  · omega

/-- A block that begins where a slot does lies in the slot. -/
theorem inSlot_of_targets (hbuilt : program.IsBuilt)
    (hforward : ∀ side, PackedForward side program.layout.loops) {side : Side} {slot : Nat}
    {cell : Int} (h : cell ∈ program.targets side (program.slotAddress side slot)) :
    program.InSlot side slot cell := by
  obtain ⟨region, hregion, move, hmove, rfl⟩ := h
  obtain ⟨hlow, hhigh⟩ := (hbuilt.copies hforward hregion).snd_mem_moves hmove
  rw [InSlot, slotCells_eq hregion]
  omega

/-! ## Packing copies -/

/-- Copies in front of a loop go to the slots that the step names. -/
theorem Packs.fillsSlot {next : Nat} {reuse : Option Reuse} {cursor active : Cursor}
    {calls : List Call} (h : program.Packs next reuse cursor calls active)
    (hsuits : program.Suits next reuse) : ∀ call ∈ calls, program.FillsSlot call := by
  intro call hcall side source target heq
  obtain ⟨packed, region, hregion, hturn, rfl⟩ := h.calls call hcall
  obtain ⟨rfl, -, rfl⟩ := Call.pack.inj heq
  exact ⟨_, (hsuits packed region hregion hturn).2, rfl⟩

/-- Copies of a thread go to slots that are there, if every step of its phases names such slots. -/
theorem fillsSlot_runPhases {phases : List Phase}
    (hsuits : ∀ phase ∈ phases, ∀ step ∈ phase.steps, program.Suits phase.next step.reuse)
    (cursor : Cursor) (first last : Bool) (state : ThreadState) :
    ∀ call ∈ ((program.runPhases phases cursor first last).run state).1, program.FillsSlot call := by
  induction phases generalizing cursor first last state with
  | nil =>
      intro call hcall side source target heq
      subst heq
      rcases mem_kernelCalls hcall with ⟨which, htouch⟩ | hmain
      · cases htouch
      · cases hmain
  | cons phase inner ih =>
      obtain ⟨hsteps, hinner⟩ := List.forall_mem_cons.1 hsuits
      apply forall_mem_flatten
      intro step hstep state call hcall
      rcases List.mem_append.1 hcall with hpacking | hcall
      · have hpacks := program.packs_packInputs phase.next step.reuse (cursor.move step.offset) state
        exact hpacks.fillsSlot (hsteps step hstep) call hpacking
      · exact ih hinner _ _ _ _ call hcall

section Built

variable (hbuilt : program.IsBuilt)

include hbuilt

/-- Packing in front of all loops uses the first slot of each input. -/
theorem suits_start : program.Suits 0 none := by
  intro side region hregion hturn
  rw [fillsAgain_eq hregion, hturn]
  exact ⟨rfl, hbuilt.slots_pos hregion⟩

/-- Every step of a thread names slots that are there. -/
theorem suits_threadPhases {before omp sfc after kernel : List Loop}
    (hcut : Layout.Cut program.layout.loops before omp sfc after kernel) (work : Work)
    (share : Share) :
    ∀ phase ∈ program.threadPhases work share, ∀ step ∈ phase.steps,
      program.Suits phase.next step.reuse := by
  have hlevels : ∀ level ∈ program.layout.levels, ∀ step ∈ (program.phase share level).steps,
      program.Suits level.next step.reuse := by
    apply levels_induction hbuilt hcut (motive := fun _ _ levels => ∀ level ∈ levels,
      ∀ step ∈ (program.phase share level).steps, program.Suits level.next step.reuse)
    · intro outer happend level hlevel
      exact absurd hlevel List.not_mem_nil
    · intro outer run rest level inner h hinner
      exact List.forall_mem_cons.2 ⟨h.suits, hinner⟩
  rw [threadPhases, List.forall_mem_cons]
  constructor
  · intro step hstep
    obtain rfl := List.mem_singleton.1 hstep
    exact suits_start hbuilt
  · intro phase hphase
    obtain ⟨level, hlevel, rfl⟩ := List.mem_map.1 hphase
    exact hlevels level hlevel

/-! ## Reads of the main kernel -/

/-- An input that stands on a route is read from one of its slots, if it is packed. -/
theorem Stands.readsOneSlot {α : Type} [Scalar α] {inputs : Inputs α} {scratch : Buffer α}
    (hforward : ∀ side, PackedForward side program.layout.loops) {kernel : List Loop} {side : Side}
    (hreads : ∀ i ∈ 0 :: program.kernels.main.reads side,
      ∃ x ∈ offsets (Loop.sideStrides side) kernel, x.2 = i)
    {place : Place} {block : Int} {within : Int × Int}
    (h : program.Stands inputs side kernel scratch (program.region side).isSome place block
      within) : program.ReadsOneSlot side place := by
  generalize hpacked : (program.region side).isSome = isPacked at h
  cases h with
  | buffer =>
      constructor
      · rw [hpacked]
        rfl
      · intro hsome
        rw [hpacked] at hsome
        cases hsome
  | @scratch region slot _ _ hregion hslot hrest hholds =>
      constructor
      · rw [hpacked]
        rfl
      · intro _
        refine ⟨slot, hslot, ?_⟩
        rintro cell ⟨-, i, hi, rfl⟩
        obtain ⟨x, hx, rfl⟩ := hreads i hi
        -- what the kernel loops reach lies in the block, and the block in the slot
        have hinside := hrest x hx
        rw [insideOf_eq hregion, ← (hbuilt.located hregion).1.mem_moves_iff] at hinside
        apply inSlot_of_targets hbuilt hforward
        refine ⟨region, hregion, _, hinside, ?_⟩
        rw [Prod.snd_add, add_assoc]

omit hbuilt in
/-- The kernel calls of a list are watched. -/
theorem mem_watch {α : Type} [Scalar α] (inputs : Inputs α) {calls : List Call} {left right : Place}
    {out : Int} (h : .main left right out ∈ calls) (scratch : Buffer α) :
    ∃ found, (.main left right out, found) ∈ (program.watch inputs calls scratch).1 := by
  induction calls generalizing scratch with
  | nil => exact absurd h List.not_mem_nil
  | cons call rest ih =>
      rcases List.mem_cons.1 h with rfl | hrest
      · exact ⟨scratch, List.mem_cons_self⟩
      · cases call with
        | pack => exact ih hrest _
        | touch =>
            obtain ⟨found, hfound⟩ := ih hrest scratch
            exact ⟨found, List.mem_cons_of_mem _ hfound⟩
        | main =>
            obtain ⟨found, hfound⟩ := ih hrest scratch
            exact ⟨found, List.mem_cons_of_mem _ hfound⟩

/-- What the main kernel reads or looks at, the kernel loops reach. -/
theorem exists_offset_of_reads (hkernel : KernelLast program.layout.loops)
    (hreads : program.ReadsKernelEnd) {side : Side} {i : Int}
    (hi : i ∈ 0 :: program.kernels.main.reads side) :
    ∃ x ∈ offsets (Loop.sideStrides side) (kernelLoops program.layout.loops), x.2 = i := by
  rw [← KernelShape.kernelEnd_eq hkernel]
  rcases List.mem_cons.1 hi with rfl | hi
  · refine ⟨0, zero_mem_offsets _ fun loop hloop => ?_, rfl⟩
    exact hbuilt.sizes loop ((KernelShape.kernelEnd_suffix _).subset hloop)
  · have hmem := hreads side i hi
    rw [← map_snd_offsets] at hmem
    exact List.mem_map.1 hmem

section Thread

variable (hforward : ∀ side, PackedForward side program.layout.loops)
  (hkernel : KernelLast program.layout.loops) {work : Work} {share : Share}
  (hdoes : program.Does share work) (base : Operands Int) {state : ThreadState}
  (hfits : program.Fits work state)

include hforward hkernel hdoes hfits

/-- The main kernel finds each packed input in one slot, whenever a thread calls it. -/
theorem readsOneSlot_of_main (hreads : program.ReadsKernelEnd) {left right : Place} {out : Int}
    (hcall : .main left right out ∈ ((program.threadCalls work base).run state).1) :
    program.ReadsOneSlot .left left ∧ program.ReadsOneSlot .right right := by
  obtain ⟨before, omp, sfc, after, kernel, hcut⟩ := hbuilt.sound.exists_cut hkernel
  have hkernelLoops : kernelLoops program.layout.loops = kernel :=
    (hcut.filter_mode fun mode => mode = .prim).trans (by simp)
  -- calls depend on no contents, so that any buffers will do to watch them
  let inputs : Inputs Int := ⟨#[], #[], none⟩
  let scratch : Buffer Int := Array.replicate program.scratchCells.toNat 0
  have hsize : program.scratchCells ≤ scratch.size := by
    rw [Array.size_replicate]
    exact Int.self_le_toNat _
  obtain ⟨watched, scratch', hroutes, hwatch⟩ :=
    watch_threadRoutes inputs hbuilt hforward hdoes hcut base hfits hsize
  obtain ⟨found, hfound⟩ := mem_watch inputs hcall scratch
  rw [hwatch] at hfound
  obtain ⟨group, hgroup, hfound⟩ := List.mem_flatten.1 hfound
  obtain ⟨r, -, cursor, scratch'', rfl, -, -, hstands⟩ := exists_left_of_forall₂ hroutes hgroup
  obtain ⟨kernelCall, hkernelCall, heq⟩ := List.mem_map.1 hfound
  obtain ⟨rfl, -⟩ := Prod.mk.inj heq
  obtain ⟨rfl, rfl, -⟩ : left = cursor.left ∧ right = cursor.right ∧ out = cursor.out := by
    rcases mem_kernelCalls hkernelCall with ⟨which, htouch⟩ | hmain
    · cases htouch
    · exact Call.main.inj hmain
  have hleads : ∀ side, ∀ i ∈ 0 :: program.kernels.main.reads side,
      ∃ x ∈ offsets (Loop.sideStrides side) kernel, x.2 = i := by
    intro side i hi
    rw [← hkernelLoops]
    exact exists_offset_of_reads hbuilt hkernel hreads hi
  exact ⟨(hstands .left).readsOneSlot hbuilt hforward (hleads .left),
    (hstands .right).readsOneSlot hbuilt hforward (hleads .right)⟩

/-- All calls of a thread keep to its packing slots. -/
theorem keepsToSlots_threadCalls (hreads : program.ReadsKernelEnd) :
    ∀ call ∈ ((program.threadCalls work base).run state).1, program.KeepsToSlots call := by
  intro call hcall
  cases call with
  | touch => trivial
  | main left right out =>
      exact readsOneSlot_of_main hbuilt hforward hkernel hdoes base hfits hreads hcall
  | pack side source target =>
      obtain ⟨before, omp, sfc, after, kernel, hcut⟩ := hbuilt.sound.exists_cut hkernel
      rw [threadCalls_run hbuilt hdoes hcut base hfits] at hcall
      obtain ⟨slot, hslot, rfl⟩ := fillsSlot_runPhases
        (suits_threadPhases hbuilt hcut work share) _ _ _ _ _ hcall side source target rfl
      refine ⟨slot, hslot, ?_⟩
      intro cell hcell
      exact inSlot_of_targets hbuilt hforward hcell

end Thread

end Built

end Program

end LoopNest
