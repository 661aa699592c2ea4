import LoopNest.Proofs.Launch.Levels

/-!
# Packing is invisible to the kernels

A packed input stands in a slot of the scratch memory instead of the caller's buffer. `Stands` says
where an input stands between two levels: at an address of the buffer, or at a place within the block
that a slot holds.

The kernel calls of a thread are those of its routes, and each of them finds the inputs where they
stand on the route (`Program.watch_threadRoutes`). The proof goes through the levels from the inside
out. What a level preserves is `Program.Inv`: slots hold what the thread believes them to hold, and
the slots of the inputs packed further out do not change.

If index tuples do not meet in the packing buffers, each call of the main kernel finds at both inputs
what it would find in the buffers of the caller (`Program.watch_threadCalls`).
-/

namespace LoopNest

variable {α : Type}

/-- The element at a place of an input. -/
def Inputs.at? (inputs : Inputs α) (side : Side) (scratch : Buffer α) (place : Place) : Option α :=
  match place.source with
  | .buffer => Buffer.read? (inputs.buffer side) place.address
  | .scratch => Buffer.read? scratch place.address

/-- The kernel loops find from a place on what they would find in the caller's buffer from an address
on, wherever the buffer has an element. -/
def Inputs.Finds (inputs : Inputs α) (side : Side) (kernel : List Loop) (scratch : Buffer α)
    (place : Place) (address : Int) : Prop :=
  ∀ x ∈ offsets (Loop.sideStrides side) kernel, ∀ y,
    Buffer.read? (inputs.buffer side) (address + x.1) = some y →
      inputs.at? side scratch (place.move x.2) = some y

namespace Program

variable (program : Program)

/-- Where an input stands in front of the loops `rest`: at an address of the caller's buffer, or
within the block from this address on. -/
inductive Stands [Scalar α] (inputs : Inputs α) (side : Side) (rest : List Loop)
    (scratch : Buffer α) : (packed : Bool) → Place → (block : Int) → (within : Int × Int) → Prop where
  | buffer (block : Int) : Stands inputs side rest scratch false ⟨.buffer, block⟩ block 0
  | scratch {region : PackedRegion} {slot : Nat} {block : Int} {within : Int × Int}
      (hregion : program.region side = some region) (hslot : slot < program.slots side)
      (hrest : ∀ x ∈ offsets (Loop.sideStrides side) rest,
        within + x ∈ offsets (Loop.sideStrides side) (program.insideOf side))
      (hholds : program.HoldsBlock inputs side scratch slot block) :
      Stands inputs side rest scratch true
        ⟨.scratch, program.slotAddress side slot + within.2⟩ block within

/-- The slots of some inputs have the same contents in two states of the scratch memory. -/
def Keeps (packed : Side → Bool) (scratch scratch' : Buffer α) : Prop :=
  ∀ side, packed side = true → ∀ slot < program.slots side,
    program.SlotKept side slot scratch scratch'

/-- What a thread believes is true, and the slots of some inputs are as they were. -/
def Inv [Scalar α] (inputs : Inputs α) (packed : Side → Bool) (before : Buffer α) (state : ThreadState)
    (scratch : Buffer α) : Prop :=
  program.Trusts inputs state scratch ∧ program.Keeps packed before scratch

/-- The kernel calls of a route, each with the scratch memory that it finds, and the inputs where they
stand on the route. -/
def AtRoute [Scalar α] (inputs : Inputs α) (kernel : List Loop) (r : Route)
    (calls : List (Call × Buffer α)) : Prop :=
  ∃ cursor scratch,
    calls = (program.kernelCalls cursor r.first r.last).map (fun call => (call, scratch)) ∧
      cursor.outAux = (r.offset Loop.strides).outAux ∧ cursor.out = (r.offset Loop.strides).out ∧
      ∀ side, program.Stands inputs side kernel scratch (program.region side).isSome
        (cursor.input side) (r.block side) (r.within side)

/-- Started where `P` holds, the kernel calls of a step are those of some routes, and `P` holds
again. -/
def Makes [Scalar α] (inputs : Inputs α) (kernel : List Loop) (P : ThreadState → Buffer α → Prop)
    (x : ThreadStep (List Call)) (rs : List Route) : Prop :=
  ∀ state scratch, P state scratch → ∃ calls scratch',
    List.Forall₂ (program.AtRoute inputs kernel) rs calls ∧
      program.watch inputs (x.run state).1 scratch = (calls.flatten, scratch') ∧
      P (x.run state).2 scratch'

variable {program} {inputs : Inputs α} {side : Side} {rest : List Loop} {scratch scratch' : Buffer α}
  {packed : Side → Bool}

theorem Keeps.refl (packed : Side → Bool) (scratch : Buffer α) :
    program.Keeps packed scratch scratch := fun side _ slot _ => .refl side slot scratch

theorem Keeps.trans {scratch'' : Buffer α} (h : program.Keeps packed scratch scratch')
    (h' : program.Keeps packed scratch' scratch'') : program.Keeps packed scratch scratch'' :=
  fun side hside slot hslot => (h side hside slot hslot).trans (h' side hside slot hslot)

variable [Scalar α]

/-- Kernel calls leave the scratch memory as it is. -/
theorem watch_kernelCalls (program : Program) (inputs : Inputs α) (cursor : Cursor)
    (first last : Bool) (scratch : Buffer α) :
    program.watch inputs (program.kernelCalls cursor first last) scratch =
      ((program.kernelCalls cursor first last).map (fun call => (call, scratch)), scratch) := by
  unfold kernelCalls
  dsimp only
  split <;> split <;> rfl

/-- The members of a list together make the routes of all of them. -/
theorem Makes.flatten {β γ : Type} {kernel : List Loop} {P : ThreadState → Buffer α → Prop}
    {f : β → ThreadStep (List Call)} {g : γ → List Route} {bs : List β} {cs : List γ}
    (h : List.Forall₂ (fun b c => program.Makes inputs kernel P (f b) (g c)) bs cs) :
    program.Makes inputs kernel P (do return (← bs.mapM f).flatten) (cs.flatMap g) := by
  induction h with
  | nil => exact fun state scratch hP => ⟨[], scratch, .nil, rfl, hP⟩
  | @cons b c bs cs hfirst _ ih =>
      intro state scratch hP
      obtain ⟨calls₁, scratch₁, hroutes₁, hwatch₁, hP₁⟩ := hfirst state scratch hP
      obtain ⟨calls₂, scratch₂, hroutes₂, hwatch₂, hP₂⟩ := ih _ scratch₁ hP₁
      rw [run_flatten_cons]
      refine ⟨calls₁ ++ calls₂, scratch₂, List.rel_append hroutes₁ hroutes₂, ?_, hP₂⟩
      rw [watch_append, hwatch₁, hwatch₂, List.flatten_append]

/-! ## Where an input stands -/

section Stands

variable (hbuilt : program.IsBuilt) (hforward : ∀ side, PackedForward side program.layout.loops)

include hbuilt hforward in
theorem Stands.of_kept {isPacked : Bool} {place : Place} {block : Int} {within : Int × Int}
    (h : program.Stands inputs side rest scratch isPacked place block within)
    (hkept : isPacked = true → ∀ slot < program.slots side,
      program.SlotKept side slot scratch scratch') :
    program.Stands inputs side rest scratch' isPacked place block within := by
  cases h with
  | buffer => exact .buffer block
  | scratch hregion hslot hrest hholds =>
      exact .scratch hregion hslot hrest (hholds.of_kept hbuilt hforward (hkept rfl _ hslot))

/-- A step along loops moves an input within its block if it is packed, and from block to block if it
is not. -/
theorem Stands.move {run : List Loop} {isPacked : Bool} {place : Place} {block : Int}
    {within : Int × Int}
    (h : program.Stands inputs side (run ++ rest) scratch isPacked place block within)
    (step : Int) (inner : Int × Int)
    (hpacked : isPacked = true → step = 0 ∧ inner ∈ offsets (Loop.sideStrides side) run)
    (hbuffer : isPacked = false → inner = 0) :
    program.Stands inputs side rest scratch isPacked (place.move (step + inner.2)) (block + step)
      (within + inner) := by
  cases h with
  | buffer =>
      rw [hbuffer rfl, Prod.snd_zero, add_zero, add_zero]
      exact .buffer _
  | @scratch region slot _ _ hregion hslot hrest hholds =>
      obtain ⟨rfl, hinner⟩ := hpacked rfl
      have hmove : Place.move ⟨.scratch, program.slotAddress side slot + within.2⟩ (0 + inner.2) =
          ⟨.scratch, program.slotAddress side slot + (within + inner).2⟩ := by
        rw [Place.move, Prod.snd_add, zero_add, add_assoc]
      rw [hmove, add_zero]
      refine .scratch hregion hslot (fun x hx => ?_) hholds
      rw [add_assoc]
      refine hrest _ ?_
      rw [offsets_append]
      exact mem_sumset.2 ⟨inner, hinner, x, hx, rfl⟩

theorem Stands.exists_region {place : Place} {block : Int} {within : Int × Int}
    (h : program.Stands inputs side rest scratch true place block within) :
    ∃ region, program.region side = some region := by
  cases h with
  | scratch hregion => exact ⟨_, hregion⟩

include hbuilt in
/-- Where index tuples do not meet in the packing buffers, the kernel loops find the caller's
elements. -/
theorem Stands.finds (hapart : ∀ side, PackedApart side program.layout.loops) {kernel : List Loop}
    (hkernel : ∀ loop ∈ kernel, loop ∈ program.layout.loops) {place : Place} {block : Int}
    {within : Int × Int}
    (h : program.Stands inputs side kernel scratch (program.region side).isSome place block within) :
    inputs.Finds side kernel scratch place (block + within.1) := by
  intro x hx y hy
  generalize hpacked : (program.region side).isSome = isPacked at h
  cases h with
  | buffer =>
      have hnone : program.region side = none := by simpa using hpacked
      have hunpacked := isPacked_eq_false hbuilt hnone
      rw [Prod.fst_zero, add_zero,
        fst_eq_snd_of_mem_offsets (fun loop hloop => hunpacked loop (hkernel loop hloop)) hx] at hy
      exact hy
  | @scratch region slot _ _ hregion hslot hrest hholds =>
      have hinside := hrest x hx
      rw [insideOf_eq hregion] at hinside
      have hsource := (hbuilt.located hregion).1.sourceOf_eq
        (by rw [List.take_append_drop]; exact hapart side) hinside
      have hblock := hholds region hregion _ _ hsource
      rw [Prod.snd_add, ← add_assoc, Prod.fst_add, ← add_assoc, Buffer.readD_of_read? hy] at hblock
      exact hblock

end Stands

/-! ## Packing between two levels -/

section Packing

/-- What packing one input in front of the loops `rest` does if it is its turn, and if it is not:
the input goes where the next level expects it, in the same block, no kernel is called, and nothing
else moves. -/
structure PacksInTurn (program : Program) (inputs : Inputs α) (side : Side) (outer rest : List Loop)
    (wasPacked : Bool) (block : Int) (within : Int × Int) (scratch scratch' : Buffer α)
    (cursor active : Cursor) (calls : List Call) (state' : ThreadState) : Prop where
  outAux : active.outAux = cursor.outAux
  out : active.out = cursor.out
  other : ∀ other, other ≠ side → active.input other = cursor.input other
  silent : program.watch inputs calls scratch = ([], scratch')
  trusts : program.Trusts inputs state' scratch'
  stands : program.Stands inputs side rest scratch' (program.isDone side outer.length)
    (active.input side) block within
  kept : ∀ other, other ≠ side ∨ wasPacked = true → ∀ slot < program.slots other,
    program.SlotKept other slot scratch scratch'

/-- A cursor that stays where it is. -/
theorem PacksInTurn.skip {outer : List Loop} {wasPacked : Bool} {block : Int} {within : Int × Int}
    {cursor : Cursor} {state : ThreadState} (htrusts : program.Trusts inputs state scratch)
    (hstands : program.Stands inputs side rest scratch wasPacked (cursor.input side) block within)
    (hdone : wasPacked = program.isDone side outer.length) :
    program.PacksInTurn inputs side outer rest wasPacked block within scratch scratch cursor cursor
      [] state where
  outAux := rfl
  out := rfl
  other _ _ := rfl
  silent := rfl
  trusts := htrusts
  stands := hdone ▸ hstands
  kept other _ slot _ := .refl other slot scratch

variable (hbuilt : program.IsBuilt) (hforward : ∀ side, PackedForward side program.layout.loops)
  {outer : List Loop} (happend : program.layout.loops = outer ++ rest)

include hbuilt hforward happend

/-- The turn of an input: it leaves the caller's buffer for its slot. -/
theorem packInput_turn {region : PackedRegion} (hregion : program.region side = some region)
    (hturn : region.loop = outer.length) {reuse : Option Reuse}
    (hsuits : program.Suits outer.length reuse) {cursor : Cursor} {block : Int} {within : Int × Int}
    {state : ThreadState} (htrusts : program.Trusts inputs state scratch)
    (hstands : program.Stands inputs side rest scratch false (cursor.input side) block within)
    {calls : List Call} {active : Cursor} {state' : ThreadState}
    (hrun : (program.packInput side outer.length reuse cursor).run state =
      ((calls, active), state')) :
    ∃ scratch', program.PacksInTurn inputs side outer rest false block within scratch scratch' cursor
      active calls state' := by
  obtain ⟨hagain, hslot⟩ := hsuits side region hregion hturn
  rw [← hturn] at hrun
  obtain ⟨rfl, scratch', hcalls, htrusts', hholds, hkept⟩ :=
    packInput_run hbuilt hforward hregion hagain rfl hslot htrusts hrun
  obtain ⟨hblock, rfl⟩ : (cursor.input side).address = block ∧ within = 0 := by
    generalize cursor.input side = place at hstands
    cases hstands
    exact ⟨rfl, rfl⟩
  have hinside : program.insideOf side = rest := by
    rw [insideOf_eq hregion, hturn, happend, List.drop_left]
  -- the slot holds the block from the address on, and the input stands at its beginning
  have hscratch : program.Stands inputs side rest scratch' true
      ⟨.scratch, program.slotAddress side ((reuse.map fun r => r.slot side).getD 0) +
        (0 : Int × Int).2⟩ block 0 :=
    .scratch hregion hslot (fun x hx => by rwa [zero_add, hinside]) (hblock ▸ hholds)
  rw [Prod.snd_zero, add_zero] at hscratch
  refine ⟨scratch', Cursor.outAux_withInput _ _ _, Cursor.out_withInput _ _ _,
    fun other hother => Cursor.input_withInput_of_ne _ _ _ hother, hcalls, htrusts', ?_, ?_⟩
  · rw [isDone_eq hregion, decide_eq_true (Nat.le_of_eq hturn), Cursor.input_withInput]
    exact hscratch
  · intro other hother slot hlt
    refine hkept other slot hlt fun hsame => ?_
    rcases hother with hne | hfalse
    · exact hne hsame.1
    · exact absurd hfalse (by simp)

/-- Packing one input if it is its turn. -/
theorem packInput_stands (hmeets : program.Meets packed outer.length) {reuse : Option Reuse}
    (hsuits : program.Suits outer.length reuse) {cursor : Cursor} {block : Int} {within : Int × Int}
    {state : ThreadState} (htrusts : program.Trusts inputs state scratch)
    (hstands : program.Stands inputs side rest scratch (packed side) (cursor.input side) block
      within)
    {calls : List Call} {active : Cursor} {state' : ThreadState}
    (hrun : (program.packInput side outer.length reuse cursor).run state =
      ((calls, active), state')) :
    ∃ scratch', program.PacksInTurn inputs side outer rest (packed side) block within scratch
      scratch' cursor active calls state' := by
  -- either the region starts here, or the step neither packs nor moves this input
  by_cases hturn : ∃ region, program.region side = some region ∧ region.loop = outer.length
  · obtain ⟨region, hregion, hturn⟩ := hturn
    have hpacked := hmeets.eq_false_of_turn hregion hturn
    rw [hpacked] at hstands ⊢
    exact packInput_turn hbuilt hforward happend hregion hturn hsuits htrusts hstands hrun
  · have hnever : ∀ region, program.region side = some region → region.loop ≠ outer.length :=
      fun region hregion hloop => hturn ⟨region, hregion, hloop⟩
    have hdone : packed side = program.isDone side outer.length := by
      cases hregion : program.region side with
      | some region => exact hmeets.eq_isDone hregion (hnever region hregion)
      | none =>
          rw [isDone, hregion]
          refine Bool.eq_false_of_not_eq_true fun hpacked => ?_
          rw [hpacked] at hstands
          obtain ⟨region, hregion'⟩ := hstands.exists_region
          exact absurd (hregion.symm.trans hregion') (by simp)
    rw [packInput_eq_pure hnever] at hrun
    obtain ⟨hcalls, rfl⟩ := Prod.mk.inj hrun
    obtain ⟨rfl, rfl⟩ := Prod.mk.inj hcalls
    exact ⟨scratch, .skip htrusts hstands hdone⟩

/-- Packing both inputs if it is their turn: the inputs stand where the next level expects them, and
no slot has changed that was filled further out. -/
theorem packInputs_stands (hmeets : program.Meets packed outer.length) {reuse : Option Reuse}
    (hsuits : program.Suits outer.length reuse) {cursor : Cursor} {block : Side → Int}
    {within : Side → Int × Int}
    {state : ThreadState} (htrusts : program.Trusts inputs state scratch)
    (hstands : ∀ side, program.Stands inputs side rest scratch (packed side) (cursor.input side)
      (block side) (within side))
    {calls : List Call} {active : Cursor} {state' : ThreadState}
    (hrun : (program.packInputs outer.length reuse cursor).run state =
      ((calls, active), state')) :
    (active.outAux = cursor.outAux ∧ active.out = cursor.out) ∧
      ∃ scratch', program.watch inputs calls scratch = ([], scratch') ∧
        program.Trusts inputs state' scratch' ∧
        (∀ side, program.Stands inputs side rest scratch' (program.isDone side outer.length)
          (active.input side) (block side) (within side)) ∧
        program.Keeps packed scratch scratch' := by
  rw [run_packInputs] at hrun
  dsimp only at hrun
  generalize hleft : (program.packInput .left outer.length reuse cursor).run state = l at hrun
  obtain ⟨⟨left, moved⟩, state₁⟩ := l
  generalize hright : (program.packInput .right outer.length reuse moved).run state₁ = r at hrun
  obtain ⟨⟨right, moved'⟩, state₂⟩ := r
  obtain ⟨hcalls, rfl⟩ := Prod.mk.inj hrun
  obtain ⟨rfl, rfl⟩ := Prod.mk.inj hcalls
  obtain ⟨scratch₁, hL⟩ :=
    packInput_stands hbuilt hforward happend hmeets hsuits htrusts (hstands .left) hleft
  -- packing the left input leaves the right one where it stands
  have hstandsR : program.Stands inputs .right rest scratch₁ (packed .right)
      (moved.input .right) (block .right) (within .right) := by
    rw [hL.other .right (by decide)]
    exact (hstands .right).of_kept hbuilt hforward fun _ slot hslot =>
      hL.kept .right (.inl (by decide)) slot hslot
  obtain ⟨scratch₂, hR⟩ :=
    packInput_stands hbuilt hforward happend hmeets hsuits hL.trusts hstandsR hright
  refine ⟨⟨hR.outAux.trans hL.outAux, hR.out.trans hL.out⟩, scratch₂, ?_, hR.trusts, ?_, ?_⟩
  · rw [watch_append, hL.silent, hR.silent, List.append_nil]
  · intro side
    cases side with
    | left =>
        rw [hR.other .left (by decide)]
        exact hL.stands.of_kept hbuilt hforward fun _ slot hslot =>
          hR.kept .left (.inl (by decide)) slot hslot
    | right => exact hR.stands
  · intro side hside slot hslot
    cases side with
    | left =>
        exact (hL.kept .left (.inr hside) slot hslot).trans
          (hR.kept .left (.inl (by decide)) slot hslot)
    | right =>
        exact (hL.kept .right (.inl (by decide)) slot hslot).trans
          (hR.kept .right (.inr hside) slot hslot)

end Packing

/-! ## Levels -/

section Levels

variable (hbuilt : program.IsBuilt) (hforward : ∀ side, PackedForward side program.layout.loops)
  {kernel : List Loop} {share : Share}

include hbuilt hforward in
/-- One step of a level and all that is inside: if the inner levels make some routes wherever the
inputs stand after packing, so does the step. -/
theorem makes_step {outer : List Loop} (happend : program.layout.loops = outer ++ rest)
    (hmeets : program.Meets packed outer.length) {reuse : Option Reuse}
    (hsuits : program.Suits outer.length reuse) {cursor : Cursor} {block : Side → Int}
    {within : Side → Int × Int}
    (hstands : ∀ side, program.Stands inputs side rest scratch (packed side) (cursor.input side)
      (block side) (within side)) (body : Cursor → ThreadStep (List Call)) {rs : List Route}
    (hbody : ∀ active scratch', active.outAux = cursor.outAux → active.out = cursor.out →
      (∀ side, program.Stands inputs side rest scratch' (program.isDone side outer.length)
        (active.input side) (block side) (within side)) →
      program.Makes inputs kernel (program.Inv inputs
        (fun side => program.isDone side outer.length) scratch') (body active) rs) :
    program.Makes inputs kernel (program.Inv inputs packed scratch)
      (do
        let (packing, active) ← program.packInputs outer.length reuse cursor
        let calls ← body active
        return packing ++ calls) rs := by
  intro state scratch₀ hinv
  obtain ⟨htrusts, hkeeps⟩ := hinv
  generalize hpack : (program.packInputs outer.length reuse cursor).run state = p
  obtain ⟨⟨packing, active⟩, state₁⟩ := p
  obtain ⟨⟨haux, hout⟩, scratch₁, hcalls, htrusts₁, hstands₁, hkeeps₁⟩ :=
    packInputs_stands hbuilt hforward happend hmeets hsuits htrusts
      (fun side => (hstands side).of_kept hbuilt hforward (hkeeps side)) hpack
  obtain ⟨calls, scratch₂, hroutes, hcalls', htrusts₂, hkeeps₂⟩ :=
    hbody active scratch₁ haux hout hstands₁ state₁ scratch₁ ⟨htrusts₁, .refl _ _⟩
  have hrun : (do
      let (packing, active) ← program.packInputs outer.length reuse cursor
      let calls ← body active
      return packing ++ calls : ThreadStep (List Call)).run state =
        (packing ++ ((body active).run state₁).1, ((body active).run state₁).2) := by
    show (let p := (program.packInputs outer.length reuse cursor).run state
      let q := (body p.1.2).run p.2
      (p.1.1 ++ q.1, q.2)) = _
    simp only [hpack]
  rw [hrun]
  refine ⟨calls, scratch₂, hroutes, ?_, htrusts₂, fun side hside slot hslot => ?_⟩
  · rw [watch_append, hcalls, hcalls', List.nil_append]
  · -- what was packed before the step is packed after it
    have hdone : program.isDone side outer.length = true := by
      obtain ⟨region, hregion⟩ := (hside ▸ hstands side).exists_region
      exact hmeets.isDone hregion hside
    exact ((hkeeps.trans hkeeps₁) side hside slot hslot).trans (hkeeps₂ side hdone slot hslot)

/-- The levels in front of the loops `rest` make their routes, wherever the inputs stand. -/
def Executes (program : Program) (inputs : Inputs α) (kernel : List Loop) (share : Share)
    (outer rest : List Loop) (levels : List Level) : Prop :=
  ∀ (cursor : Cursor) (start : Route) (scratch : Buffer α),
    cursor.outAux = (start.offset Loop.strides).outAux →
    cursor.out = (start.offset Loop.strides).out →
    (∀ side, program.Stands inputs side rest scratch (program.isDone side outer.length)
      (cursor.input side) (start.block side) (start.within side)) →
    program.Makes inputs kernel
      (program.Inv inputs (fun side => program.isDone side outer.length) scratch)
      (program.runPhases (levels.map (program.phase share)) cursor start.first start.last)
      ((program.routes share levels).map start.join)

include hbuilt hforward

/-- One more level in front of levels that make their routes. -/
theorem Executes.cons {outer run rest : List Loop} {level : Level} {inner : List Level}
    (h : program.Descends share outer run rest level)
    (hinner : program.Executes inputs kernel share (outer ++ run) rest inner) :
    program.Executes inputs kernel share outer (run ++ rest) (level :: inner) := by
  intro cursor start scratch haux hout hstands
  have hroutes : (program.routes share (level :: inner)).map start.join =
      (program.levelRoutes share level).flatMap fun r =>
        (program.routes share inner).map (start.join r).join := by
    rw [routes, List.map_flatMap]
    refine List.flatMap_congr fun r _ => ?_
    rw [List.map_map]
    exact List.map_congr_left fun s _ => (Route.join_assoc start r s).symm
  rw [hroutes]
  have hbodies : List.Forall₂
      (fun step r => program.Makes inputs kernel
        (program.Inv inputs (fun side => program.isDone side outer.length) scratch)
        (do
          let (packing, active) ← program.packInputs level.next step.reuse
            (cursor.move step.offset)
          let calls ← program.runPhases (inner.map (program.phase share)) active
            (start.first && step.first) (start.last && step.last)
          return packing ++ calls)
        ((program.routes share inner).map (start.join r).join))
      (program.phase share level).steps (program.levelRoutes share level) := by
    refine List.forall₂_iff_zip.2 ⟨h.routes.length_eq, fun {step r} hmem => ?_⟩
    -- the step moves the inputs along its route, and the levels further in go on from there
    obtain ⟨hstep, -⟩ := List.of_mem_zip hmem
    have hfollows := (List.forall₂_iff_zip.1 h.routes).2 hmem
    have hmoved : ∀ side, program.Stands inputs side rest scratch
        (program.isDone side outer.length) ((cursor.move step.offset).input side)
          ((start.join r).block side) ((start.join r).within side) := fun side => by
      have hoffset : step.offset.input side = r.block side + (r.within side).2 := by
        rw [← hfollows.offset, Route.within, add_sub_cancel]
      rw [Cursor.input_move, hoffset, Route.block_join, Route.within_join]
      exact (hstands side).move _ _ (hfollows.inSlot side) (hfollows.inBuffer side)
    have hmeets := h.meets
    have hsuits := h.suits
    rw [h.next] at hmeets hsuits ⊢
    refine makes_step hbuilt hforward h.append hmeets (hsuits step hstep) hmoved
      (fun active => program.runPhases (inner.map (program.phase share)) active
        (start.first && step.first) (start.last && step.last))
      fun active scratch' haux' hout' hstands' => ?_
    have := hinner active (start.join r) scratch' ?_ ?_ hstands'
    · simpa only [Route.join, hfollows.first, hfollows.last] using this
    · rw [haux', Route.join, Operands.add_outAux, ← haux, hfollows.offset]
      rfl
    · rw [hout', Route.join, Operands.add_out, ← hout, hfollows.offset]
      rfl
  exact Makes.flatten hbodies

/-- Without further levels the kernels are called. -/
theorem executes_nil {outer : List Loop} (happend : program.layout.loops = outer ++ kernel)
    (hprim : ∀ loop ∈ kernel, loop.isPrim = true) :
    program.Executes inputs kernel share outer kernel [] := by
  intro cursor start scratch₀ haux hout hstands state scratch hinv
  rw [routes, List.map_singleton, start.join_single]
  -- in front of the kernel every input with a region is packed
  have hdone : ∀ side, program.isDone side outer.length = (program.region side).isSome := by
    intro side
    cases hregion : program.region side with
    | none => rw [isDone, hregion]; rfl
    | some region =>
        rw [isDone_eq hregion]
        exact decide_eq_true (loop_le_of_prim hbuilt happend hprim hregion)
  refine ⟨[_], scratch, .cons ⟨cursor, scratch, rfl, haux, hout, fun side => ?_⟩ .nil, ?_, hinv⟩
  · rw [← hdone side]
    exact (hstands side).of_kept hbuilt hforward (hinv.2 side)
  · rw [List.flatten_singleton]
    exact watch_kernelCalls program inputs cursor start.first start.last scratch

/-- All levels of a program make their routes. -/
theorem executes_levels {before omp sfc after : List Loop}
    (hcut : Layout.Cut program.layout.loops before omp sfc after kernel) :
    program.Executes inputs kernel share [] program.layout.loops program.layout.levels := by
  have hprim : ∀ loop ∈ kernel, loop.isPrim = true := fun loop hloop => by
    rw [Loop.isPrim, hcut.kernel loop hloop]
    rfl
  apply levels_induction (motive := program.Executes inputs kernel share) hbuilt hcut
  · intro outer happend
    exact executes_nil hbuilt hforward happend hprim
  · intro outer run rest level inner h hinner
    exact hinner.cons hbuilt hforward h

omit hbuilt hforward in
/-- A thread that remembers nothing believes nothing false. -/
theorem trusts_initialState (work : Work) (hsize : program.scratchCells ≤ scratch.size) :
    program.Trusts inputs (program.initialState work) scratch := by
  have hnone : ∀ side slot, ((program.initialState work).held side).getD slot none = none := by
    intro side slot
    have hreplicate : ∀ n, (List.replicate n (none : Option Int)).getD slot none = none := by
      intro n
      rw [List.getD_eq_getElem?_getD, List.getElem?_replicate]
      split <;> rfl
    cases side <;> exact hreplicate _
  refine ⟨hsize, fun side _ slot => hnone side slot, fun side region _ slot _ address hheld => ?_⟩
  exact absurd ((hnone side slot).symm.trans hheld) (by simp)

variable (inputs) in
/-- The kernel calls of a thread are those of its routes, and the inputs stand where they stand on
the route, whatever was packed. -/
theorem watch_threadRoutes {work : Work} (hdoes : program.Does share work)
    {before omp sfc after : List Loop}
    (hcut : Layout.Cut program.layout.loops before omp sfc after kernel) (base : Operands Int)
    {state : ThreadState} (hfits : program.Fits work state)
    (hsize : program.scratchCells ≤ scratch.size) :
    ∃ calls scratch',
      List.Forall₂ (program.AtRoute inputs kernel)
          ((program.threadRoutes share).map (Route.shift base)) calls ∧
        program.watch inputs ((program.threadCalls work base).run state).1 scratch =
          (calls.flatten, scratch') := by
  have hroutes : (program.routes share program.layout.levels).map
      (Route.join ⟨fun _ => base + work.offset, true, true⟩) =
        (program.threadRoutes share).map (Route.shift base) := by
    rw [threadRoutes, List.map_map, hdoes.offset]
    refine List.map_congr_left fun r _ => Route.ext (fun stride => ?_) (Bool.true_and _)
      (Bool.true_and _)
    exact add_assoc _ _ _
  have hwithin : ∀ side, Route.within ⟨fun _ => base + work.offset, true, true⟩ side = 0 :=
    fun side => Prod.ext (sub_self _) (sub_self _)
  have hstart : ∀ side, program.Stands inputs side program.layout.loops scratch false
      (((Cursor.start base).move work.offset).input side)
      (Route.block ⟨fun _ => base + work.offset, true, true⟩ side)
      (Route.within ⟨fun _ => base + work.offset, true, true⟩ side) := by
    intro side
    rw [hwithin]
    cases side with
    | left => exact .buffer _
    | right => exact .buffer _
  have hmeets : program.Meets (fun _ => false) ([] : List Loop).length := fun _ _ _ =>
    .inr ⟨rfl, Nat.zero_le _⟩
  have hsuits : program.Suits ([] : List Loop).length none := by
    intro side region hregion hturn
    rw [fillsAgain_eq hregion, hturn]
    exact ⟨rfl, hbuilt.slots_pos hregion⟩
  have hlevels : program.Executes inputs kernel share [] program.layout.loops
      program.layout.levels := executes_levels hbuilt hforward hcut
  -- the first phase packs what is packed in front of all loops
  have hmakes := makes_step hbuilt hforward (show program.layout.loops = [] ++ _ from rfl) hmeets
    hsuits hstart
    (fun active => program.runPhases (program.layout.levels.map (program.phase share)) active
      true true)
    fun active scratch' haux hout hstands => hlevels active ⟨fun _ => base + work.offset, true, true⟩
      scratch' haux hout hstands
  have hphases := Makes.flatten (g := fun rs : List Route => rs)
    (f := fun step : Step => (do
      let (packing, active) ← program.packInputs 0 step.reuse
        ((Cursor.start base).move step.offset)
      let calls ← program.runPhases (program.layout.levels.map (program.phase share)) active
        (true && step.first) (true && step.last)
      return packing ++ calls))
    (List.Forall₂.cons (a := (⟨work.offset, true, true, none⟩ : Step)) hmakes .nil)
  obtain ⟨calls, scratch', hcalls, hwatch, -⟩ := hphases (program.initialState work) scratch
    ⟨trusts_initialState work hsize, .refl _ _⟩
  rw [List.flatMap_singleton, hroutes] at hcalls
  rw [threadCalls_run hbuilt hdoes hcut base hfits]
  exact ⟨calls, scratch', hcalls, hwatch⟩

end Levels

/-! ## Calls through the caller's buffers -/

/-- The kernel calls of a visit, each with the scratch memory that it finds: the touches that the
visit asks for, and between them the main kernel, which finds the inputs of the visit. -/
def AtVisit (program : Program) (inputs : Inputs α) (kernel : List Loop) (v : Visit)
    (calls : List (Call × Buffer α)) : Prop :=
  ∃ cursor scratch,
    calls = (program.kernelCalls cursor v.first v.last).map (fun call => (call, scratch)) ∧
      cursor.outAux = v.offset.outAux ∧ cursor.out = v.offset.out ∧
      ∀ side, inputs.Finds side kernel scratch (cursor.input side) (v.offset.input side)

section Visits

variable (hbuilt : program.IsBuilt) (hapart : ∀ side, PackedApart side program.layout.loops)
  {kernel : List Loop} {share : Share}

include hbuilt hapart

/-- The kernel calls of a route find the caller's elements if index tuples do not meet in the packing
buffers. -/
theorem AtRoute.atVisit (hkernel : ∀ loop ∈ kernel, loop ∈ program.layout.loops) {r : Route}
    {calls : List (Call × Buffer α)} (h : program.AtRoute inputs kernel r calls)
    (haux : (r.offset Loop.callerStrides).outAux = (r.offset Loop.strides).outAux)
    (hout : (r.offset Loop.callerStrides).out = (r.offset Loop.strides).out) :
    program.AtVisit inputs kernel (r.visit Loop.callerStrides) calls := by
  obtain ⟨cursor, scratch, hcalls, hcursorAux, hcursorOut, hstands⟩ := h
  refine ⟨cursor, scratch, hcalls, hcursorAux.trans haux.symm, hcursorOut.trans hout.symm,
    fun side => ?_⟩
  have hfinds := (hstands side).finds hbuilt hapart hkernel
  rwa [Route.within, add_sub_cancel] at hfinds

variable (inputs) in
/-- The kernel calls of a thread are those of its schedule, and the main kernel finds what it would
find in the caller's buffers, whatever was packed. -/
theorem watch_threadCalls {work : Work} (hdoes : program.Does share work)
    {before omp sfc after : List Loop}
    (hcut : Layout.Cut program.layout.loops before omp sfc after kernel) (base : Operands Int)
    {state : ThreadState} (hfits : program.Fits work state)
    (hsize : program.scratchCells ≤ scratch.size) :
    ∃ calls scratch',
      List.Forall₂ (program.AtVisit inputs kernel)
          ((program.threadVisits Loop.callerStrides before after share).map (Visit.shift base))
          calls ∧
        program.watch inputs ((program.threadCalls work base).run state).1 scratch =
          (calls.flatten, scratch') := by
  obtain ⟨calls, scratch', hroutes, hwatch⟩ := watch_threadRoutes inputs hbuilt
    (fun side => (hapart side).nonneg) hdoes hcut base hfits hsize
  refine ⟨calls, scratch', ?_, hwatch⟩
  have hkernel : ∀ loop ∈ kernel, loop ∈ program.layout.loops := fun loop hloop => by
    rw [hcut.append]
    simp [hloop]
  -- visits are routes read in the caller's strides; the outputs move alike in both
  rw [← map_visit_threadRoutes hbuilt hdoes Loop.callerStrides hcut, List.map_map,
    List.forall₂_map_left_iff]
  rw [List.forall₂_map_left_iff] at hroutes
  refine ((List.forall₂_and_left _ _).2 ⟨fun r hr => hr, hroutes⟩).imp fun r calls h =>
    AtRoute.atVisit hbuilt hapart hkernel h.2 ?_ ?_
  · exact congrArg (base.outAux + ·) (map_offset_of_mem_threadRoutes Operands.outAuxHom
      Loop.callerStrides Loop.strides (fun _ => rfl) h.1)
  · exact congrArg (base.out + ·) (map_offset_of_mem_threadRoutes Operands.outHom
      Loop.callerStrides Loop.strides (fun _ => rfl) h.1)

end Visits

end Program

/-! ## Threads of a launch -/

namespace Contraction

theorem forall₂_zip_of_length_le {ι β γ : Type} {R : ι → β → Prop} {is : List ι} {bs : List β}
    (h : List.Forall₂ R is bs) {cs : List γ} (hlength : bs.length ≤ cs.length) {P : γ → Prop}
    (hcs : ∀ c ∈ cs, P c) : List.Forall₂ (fun i p => R i p.1 ∧ P p.2) is (bs.zip cs) := by
  induction h generalizing cs with
  | nil => exact .nil
  | cons hib _ ih =>
      cases cs with
      | nil => simp at hlength
      | cons c cs =>
          rw [List.forall_mem_cons] at hcs
          exact .cons ⟨hib, hcs.1⟩ (ih (by simpa using hlength) hcs.2)

/-- Every thread of a launch goes through its work with scratch memory for all of its packing
slots. -/
theorem Launches.forall₂_runs [Scalar α] {contraction : Contraction α} {program : Program}
    (hready : contraction.IsReady program)
    (hunit : contraction.scratch.pool.unit = contraction.types.out.bytes) {buffers : Buffers α}
    {base : Operands Int} {slices : List (ScratchSlice α)} {next : Contraction α}
    {outcome : Outcome α} (h : contraction.Launches program buffers base slices next outcome) :
    List.Forall₂
      (fun thread run => (∃ work state, program.Does (program.layout.shareOf thread) work ∧
          program.Fits work state ∧ run.1 = ((program.threadCalls work base).run state).1) ∧
        program.scratchCells ≤ run.2.cells.size)
      (List.range program.layout.threads.total)
      ((program.launchCalls contraction.states base).zip slices) := by
  have hstates := hready.forall₂_launchCalls base
  refine forall₂_zip_of_length_le hstates ?_ (hready.scratchCells_le hunit h.handed)
  rw [← hstates.length_eq, hready.built.forall₂_does.length_eq]
  exact h.enough

end Contraction

end LoopNest
