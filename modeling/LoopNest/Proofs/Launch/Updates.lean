import LoopNest.Proofs.Launch.Coherence
import LoopNest.Proofs.Launch.MainCalls

/-!
# The updates of a launch

An accepted launch leaves in the output what the kernel calls of all visits leave there, through the
buffers of the caller (`Contraction.Launches.out_eq_updateAll`). The updates of the main kernel are
those of a kernel `main` that reads the caller's buffers and agrees with the kernel of the program on
packed inputs (`Program.Agrees`). Buffers that are accepted hold an element for every index tuple
(`exists_read?_of_extentBy`).
-/

namespace LoopNest

variable {α : Type}

/-! ## The updates of a thread -/

section Updates

variable [Scalar α]

/-- The elements of an input from an address of the caller's buffer on. -/
def callerView (inputs : Inputs α) (side : Side) (address : Int) : Int → α := fun i =>
  Buffer.readD (inputs.buffer side) (address + i) Scalar.zero

/-- The updates of the output by a main kernel on inputs that are not packed. -/
def mainUpdates (main : MainKernel) (inputs : Inputs α) (address : Operands Int) :
    List (Update α) :=
  (main.updates (callerView inputs .left address.left)
    (callerView inputs .right address.right)).map fun u => u.shift address.out

omit [Scalar α] in
/-- The block of an input from an address on lies in the buffer of the caller. -/
def Reaches (inputs : Inputs α) (kernel : List Loop) (address : Operands Int) : Prop :=
  ∀ side, ∀ x ∈ offsets (fun loop => loop.bufferStride side) kernel,
    ∃ y, Buffer.read? (inputs.buffer side) (address.input side + x) = some y

namespace Program

variable (program : Program)

/-- The updates of the output by a touch kernel. -/
def touchUpdates (inputs : Inputs α) (which : Touch) (address : Operands Int) : List (Update α) :=
  match program.touchKernel which with
  | some kernel => (kernel.updates (auxView inputs address.outAux)).map fun u => u.shift address.out
  | none => []

/-- The updates of the output by the kernel calls of a visit, with a main kernel for inputs that are
not packed. -/
def visitUpdates (main : MainKernel) (inputs : Inputs α) (v : Visit) : List (Update α) :=
  (if v.first then program.touchUpdates inputs .first v.offset else []) ++
    mainUpdates main inputs v.offset ++
    if v.last then program.touchUpdates inputs .last v.offset else []

/-- A main kernel computes from the caller's buffers what the kernel of the program computes from
the packed inputs. -/
def Agrees (α : Type) [Scalar α] (main : MainKernel) (kernel : List Loop) : Prop :=
  ∀ view view' : Side → Int → α,
    (∀ side, ∀ x ∈ offsets (Loop.sideStrides side) kernel, view side x.2 = view' side x.1) →
      program.kernels.main.updates (view .left) (view .right) =
        main.updates (view' .left) (view' .right)

variable {program} {inputs : Inputs α} {main : MainKernel} {kernel : List Loop}

theorem view_eq (side : Side) (scratch : Buffer α) (place : Place) (i : Int) :
    view inputs side scratch place i =
      (inputs.at? side scratch (place.move i)).getD Scalar.zero := by
  obtain ⟨source, address⟩ := place
  cases source with
  | buffer => rfl
  | scratch => rfl

/-- A touch kernel is called if it is wanted and there is one. -/
theorem flatMap_touch (inputs : Inputs α) (which : Touch) (wanted : Bool) (address : Operands Int)
    (scratch : Buffer α) :
    (if (wanted && (program.touchKernel which).isSome) = true then
        [Call.touch which address.outAux address.out] else []).flatMap
          (program.callUpdates inputs scratch) =
      if wanted = true then program.touchUpdates inputs which address else [] := by
  cases wanted with
  | false => rfl
  | true =>
      unfold touchUpdates
      cases hkernel : program.touchKernel which with
      | none => rfl
      | some touch => simp [callUpdates, hkernel]

/-- What the main kernel computes at a visit, it computes from the caller's buffers. -/
theorem callUpdates_main (hagrees : program.Agrees α main kernel) {cursor : Cursor}
    {address : Operands Int} {scratch : Buffer α} (hout : cursor.out = address.out)
    (hfinds : ∀ side, inputs.Finds side kernel scratch (cursor.input side) (address.input side))
    (hreaches : Reaches inputs kernel address) :
    program.callUpdates inputs scratch (.main cursor.left cursor.right cursor.out) =
      mainUpdates main inputs address := by
  refine congrArg₂ (fun base updates => List.map (fun u => Update.shift u base) updates) hout
    (hagrees (fun side => view inputs side scratch (cursor.input side))
      (fun side => callerView inputs side (address.input side)) ?_)
  intro side x hx
  have hfst : (AddMonoidHom.fst Int Int) x ∈
      (offsets (Loop.sideStrides side) kernel).map (AddMonoidHom.fst Int Int) :=
    List.mem_map_of_mem hx
  rw [map_offsets] at hfst
  obtain ⟨y, hy⟩ := hreaches side x.1 hfst
  rw [view_eq, hfinds side x hx y hy]
  exact (Buffer.readD_of_read? hy _).symm

/-- The updates of the kernel calls at a place: those of the touches that are asked for, and between
them those of the main kernel. -/
theorem flatMap_kernelCalls {cursor : Cursor} {address : Operands Int}
    (haux : cursor.outAux = address.outAux) (hout : cursor.out = address.out) (first last : Bool)
    (scratch : Buffer α) :
    (((program.kernelCalls cursor first last).map fun call => (call, scratch)).flatMap fun p =>
        program.callUpdates inputs p.2 p.1) =
      (if first then program.touchUpdates inputs .first address else []) ++
        program.callUpdates inputs scratch (.main cursor.left cursor.right cursor.out) ++
        if last then program.touchUpdates inputs .last address else [] := by
  have hfirst := program.flatMap_touch inputs .first first address scratch
  have hlast := program.flatMap_touch inputs .last last address scratch
  rw [← haux, ← hout] at hfirst hlast
  rw [List.flatMap_map, kernelCalls, List.flatMap_append, List.flatMap_append]
  dsimp only
  rw [show program.kernels.first = program.touchKernel .first from rfl, hfirst,
    show program.kernels.last = program.touchKernel .last from rfl, hlast, List.flatMap_singleton]

/-- The kernel calls of a visit make its updates. -/
theorem AtVisit.updates_eq (hagrees : program.Agrees α main kernel) {v : Visit}
    {calls : List (Call × Buffer α)} (h : program.AtVisit inputs kernel v calls)
    (hreaches : Reaches inputs kernel v.offset) :
    (calls.flatMap fun p => program.callUpdates inputs p.2 p.1) =
      program.visitUpdates main inputs v := by
  obtain ⟨cursor, scratch, rfl, haux, hout, hfinds⟩ := h
  rw [flatMap_kernelCalls haux hout, callUpdates_main hagrees hout hfinds hreaches, visitUpdates]

omit [Scalar α] in
theorem flatMap_flatten_of_forall₂ {ι β γ : Type} {f : β → List γ} {g : ι → List γ} {is : List ι}
    {bs : List (List β)} (h : List.Forall₂ (fun i b => g i = b.flatMap f) is bs) :
    bs.flatten.flatMap f = is.flatMap g := by
  induction h with
  | nil => rfl
  | cons hfirst _ ih =>
      rw [List.flatten_cons, List.flatMap_append, ih, ← hfirst, List.flatMap_cons]

/-- The calls of a thread make the updates of its schedule through the caller's buffers, whatever
was packed. -/
theorem runCalls_threadCalls (hbuilt : program.IsBuilt)
    (hapart : ∀ side, PackedApart side program.layout.loops)
    (hagrees : program.Agrees α main kernel) {share : Share} {work : Work}
    (hdoes : program.Does share work) {before omp sfc after : List Loop}
    (hcut : Layout.Cut program.layout.loops before omp sfc after kernel) {base : Operands Int}
    (hreaches : ∀ v ∈ program.threadVisits Loop.callerStrides before after share,
      Reaches inputs kernel (base + v.offset)) {state : ThreadState}
    (hfits : program.Fits work state) {scratch : Buffer α}
    (hsize : program.scratchCells ≤ scratch.size) (out : Buffer α) :
    (program.runCalls inputs ((program.threadCalls work base).run state).1 out scratch).1 =
      Buffer.updateAll out
        ((program.threadVisits Loop.callerStrides before after share).flatMap fun v =>
          program.visitUpdates main inputs (v.shift base)) := by
  obtain ⟨calls, scratch', hcalls, hwatch⟩ :=
    watch_threadCalls inputs hbuilt hapart hdoes hcut base hfits hsize
  have hvisits : ∀ v ∈ (program.threadVisits Loop.callerStrides before after share).map
      (Visit.shift base), Reaches inputs kernel v.offset := by
    intro v hv
    obtain ⟨w, hw, rfl⟩ := List.mem_map.1 hv
    exact hreaches w hw
  -- a call that reads packed copies updates as one that reads the caller
  have hupdates : List.Forall₂ (fun v calls => program.visitUpdates main inputs v =
      calls.flatMap fun p => program.callUpdates inputs p.2 p.1)
        ((program.threadVisits Loop.callerStrides before after share).map (Visit.shift base))
        calls :=
    ((List.forall₂_and_left _ _).2 ⟨hvisits, hcalls⟩).imp fun v calls h =>
      (h.2.updates_eq hagrees h.1).symm
  rw [runCalls_eq, hwatch, flatMap_flatten_of_forall₂ hupdates, List.flatMap_map]

end Program

end Updates

/-! ## Extents -/

theorem extentBy_eq (loops : List Loop) {stride : Loop → Int}
    (hstride : ∀ loop ∈ loops, loop.size = 1 ∨ 0 ≤ stride loop) :
    Program.extentBy loops stride =
      ((loops.map fun loop => stride loop * (loop.size - 1)).sum + 1).toNat := by
  rw [Program.extentBy, ← List.sum_eq_foldl]
  refine congrArg (fun xs : List Int => (xs.sum + 1).toNat) (List.map_congr_left fun loop hloop => ?_)
  rcases hstride loop hloop with hone | hforward
  · rw [hone, sub_self, mul_zero, mul_zero]
  · rw [Int.natAbs_of_nonneg hforward]

/-- Loops that move forward stay within their extent. -/
theorem lt_extentBy {loops : List Loop} {stride : Loop → Int}
    (hstride : ∀ loop ∈ loops, loop.size = 1 ∨ 0 ≤ stride loop) {x : Int}
    (hx : x ∈ offsets stride loops) : 0 ≤ x ∧ x < Program.extentBy loops stride := by
  obtain ⟨hlow, hhigh⟩ := offsets_bounds hstride hx
  rw [extentBy_eq loops hstride]
  omega

/-- A buffer as long as loops reach holds an element for each of their index tuples. -/
theorem exists_read?_of_extentBy {loops : List Loop} {stride : Loop → Int}
    (hstride : ∀ loop ∈ loops, 0 ≤ stride loop) {buffer : Buffer α}
    (hsize : Program.extentBy loops stride ≤ buffer.size) {x : Int}
    (hx : x ∈ offsets stride loops) : ∃ y, Buffer.read? buffer x = some y := by
  obtain ⟨hlow, hhigh⟩ := lt_extentBy (fun loop hloop => .inr (hstride loop hloop)) hx
  exact Buffer.exists_read? hlow (by omega)

namespace Contraction

variable [Scalar α] {contraction : Contraction α} {program : Program} {buffers : Buffers α}

omit [Scalar α] in
/-- Every visit of an accepted launch finds its blocks in the caller's buffers. -/
theorem Accepts.reaches (h : contraction.Accepts program buffers) (hbuilt : program.IsBuilt)
    (hnonneg : ∀ loop ∈ program.layout.loops, ∀ side, 0 ≤ loop.bufferStride side)
    {kernel : List Loop} (hkernel : KernelLast program.layout.loops)
    (hprim : kernelLoops program.layout.loops = kernel) {offset : Operands Int}
    (hoffset : offset ∈ offsets Loop.callerStrides (outerLoops program.layout.loops)) :
    Reaches ⟨buffers.left, buffers.right, buffers.outAux⟩ kernel offset := by
  intro side x hx
  have hmem : offset.input side + x ∈
      offsets (fun loop => loop.bufferStride side) program.layout.loops := by
    have houter := List.mem_map_of_mem (f := Operands.inputHom side) hoffset
    rw [map_offsets] at houter
    rw [← hkernel, hprim, offsets_append]
    refine mem_sumset.2 ⟨_, ?_, x, hx, rfl⟩
    rwa [← offsets_congr fun loop _ => loop.callerStrides_input side]
  have hsize : Program.extentBy program.layout.loops (fun loop => loop.bufferStride side) ≤
      ((⟨buffers.left, buffers.right, buffers.outAux⟩ : Inputs α).buffer side).size := by
    have hleft := h.left
    have hright := h.right
    rw [hbuilt.extents] at hleft hright
    cases side with
    | left => exact hleft
    | right => exact hright
  exact exists_read?_of_extentBy (fun loop hloop => hnonneg loop hloop side) hsize hmem

/-- The output of an accepted launch is the output buffer after the updates of all visits of all
threads, through the caller's buffers. -/
theorem Launches.out_eq_updateAll (hready : contraction.IsReady program)
    (hkernel : KernelLast program.layout.loops)
    (hapart : ∀ side, PackedApart side program.layout.loops)
    (hnonneg : ∀ loop ∈ program.layout.loops, ∀ side, 0 ≤ loop.bufferStride side)
    (hkeeps : program.KeepsParallel Loop.callerStrides)
    (hunit : contraction.scratch.pool.unit = contraction.types.out.bytes) {main : MainKernel}
    {before omp sfc after kernel : List Loop}
    (hcut : Layout.Cut program.layout.loops before omp sfc after kernel)
    (hagrees : program.Agrees α main kernel) (haccepts : contraction.Accepts program buffers)
    {slices : List (ScratchSlice α)} {next : Contraction α} {outcome : Outcome α}
    (h : contraction.Launches program buffers 0 slices next outcome) :
    outcome.out = Buffer.updateAll buffers.out
      ((program.launchVisits Loop.callerStrides before after).flatMap
        (program.visitUpdates main ⟨buffers.left, buffers.right, buffers.outAux⟩)) := by
  have hbuilt := hready.built
  have hvisits := Program.map_offset_launchVisits hbuilt hkeeps hcut
  have hprim : kernelLoops program.layout.loops = kernel :=
    (hcut.filter_mode fun mode => mode = .prim).trans (by simp)
  -- each thread by itself, on whatever output the threads before it left
  have hcalls : List.Forall₂
      (fun thread p => ∀ out, (program.runCalls ⟨buffers.left, buffers.right, buffers.outAux⟩
          p.1 out p.2.cells).1 =
        Buffer.updateAll out ((program.threadVisits Loop.callerStrides before after
          (program.layout.shareOf thread)).flatMap
            (program.visitUpdates main ⟨buffers.left, buffers.right, buffers.outAux⟩)))
      (List.range program.layout.threads.total)
      ((program.launchCalls contraction.states 0).zip slices) := by
    have hall := List.forall₂_iff_zip.1 (h.forall₂_runs hready hunit)
    refine List.forall₂_iff_zip.2 ⟨hall.1, fun {thread p} hmem out => ?_⟩
    obtain ⟨⟨work, state, hdoes, hfits, hp⟩, hsize⟩ := hall.2 hmem
    have hthread := (List.of_mem_zip hmem).1
    rw [hp, Program.runCalls_threadCalls hbuilt hapart hagrees hdoes hcut
      (fun v hv => ?_) hfits hsize out]
    · refine congrArg _ (List.flatMap_congr fun v _ => congrArg _ ?_)
      exact Visit.ext (zero_add _) rfl rfl
    · refine haccepts.reaches hbuilt hnonneg hkernel hprim ?_
      rw [zero_add]
      exact hvisits.mem_iff.1 (List.mem_map_of_mem (List.mem_flatMap.2 ⟨thread, hthread, hv⟩))
  rw [h.out_eq, foldl_updateAll hcalls, Program.launchVisits, List.flatMap_assoc]

end Contraction

end LoopNest
