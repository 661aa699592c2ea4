import LoopNest.Proofs.Launch.Phases
import LoopNest.Proofs.Packing.Region

/-!
# Packing slots

The scratch memory of a thread is a row of packing slots that do not overlap (`Program.InSlot`). A
slot holds a block of an input if the loops inside the packed region find in it every element that
they reach in the caller's buffer (`Program.HoldsBlock`).

A thread skips a copy if it believes that the slot holds the block already. It may do so, because
what it believes is true at any time (`Program.Trusts`): packing an input keeps this, leaves the
block in the slot, and changes no other slot (`Program.packInput_run`).
-/

namespace LoopNest

namespace Cursor

variable (cursor : Cursor) (side : Side) (place : Place)

theorem input_withInput : (cursor.withInput side place).input side = place := by
  cases side <;> rfl

theorem input_withInput_of_ne {other : Side} (h : other ≠ side) :
    (cursor.withInput side place).input other = cursor.input other := by
  cases side <;> cases other <;> first | rfl | exact absurd rfl h

theorem out_withInput : (cursor.withInput side place).out = cursor.out := by cases side <;> rfl

theorem outAux_withInput : (cursor.withInput side place).outAux = cursor.outAux := by
  cases side <;> rfl

theorem input_move (offset : Operands Int) :
    (cursor.move offset).input side = (cursor.input side).move (offset.input side) := by
  cases side <;> rfl

end Cursor

namespace Program

/-! ## Kernel calls and the memory they find -/

section Watch

variable {α : Type} [Scalar α] (program : Program) (inputs : Inputs α)

/-- The kernel calls of a list, each with the scratch memory in front of it, and the scratch memory
behind the list. -/
def watch : List Call → Buffer α → List (Call × Buffer α) × Buffer α
  | [], scratch => ([], scratch)
  | .pack side source target :: rest, scratch =>
      watch rest (program.pack inputs side source target scratch)
  | call :: rest, scratch =>
      ((call, scratch) :: (watch rest scratch).1, (watch rest scratch).2)

theorem watch_append (calls calls' : List Call) (scratch : Buffer α) :
    program.watch inputs (calls ++ calls') scratch =
      ((program.watch inputs calls scratch).1 ++
          (program.watch inputs calls' (program.watch inputs calls scratch).2).1,
        (program.watch inputs calls' (program.watch inputs calls scratch).2).2) := by
  induction calls generalizing scratch with
  | nil => rfl
  | cons call rest ih =>
      cases call with
      | pack => exact ih _
      | touch => simp only [List.cons_append, watch, ih]
      | main => simp only [List.cons_append, watch, ih]

/-- Running calls applies the updates of the kernel calls, with the scratch memory that each of them
finds. -/
theorem runCalls_eq (calls : List Call) (out scratch : Buffer α) :
    program.runCalls inputs calls out scratch =
      (Buffer.updateAll out ((program.watch inputs calls scratch).1.flatMap fun p =>
          program.callUpdates inputs p.2 p.1),
        (program.watch inputs calls scratch).2) := by
  induction calls generalizing out scratch with
  | nil => rfl
  | cons call rest ih =>
      cases call with
      | pack => exact ih _ _
      | touch =>
          refine (ih _ _).trans ?_
          simp only [watch, List.flatMap_cons, Buffer.updateAll_append]
      | main =>
          refine (ih _ _).trans ?_
          simp only [watch, List.flatMap_cons, Buffer.updateAll_append]

end Watch

variable {program : Program}

/-! ## Slots do not overlap -/

/-- Whether a cell of the scratch memory belongs to a slot. -/
def InSlot (program : Program) (side : Side) (slot : Nat) (cell : Int) : Prop :=
  program.slotAddress side slot ≤ cell ∧
    cell < program.slotAddress side slot + program.slotCells side

theorem IsBuilt.ofLoops_eq (hbuilt : program.IsBuilt) {side : Side} {region : PackedRegion}
    (hregion : program.region side = some region) :
    PackedRegion.ofLoops side program.layout.loops = .ok (some region) := by
  rw [← hregion]
  cases side with
  | left => exact hbuilt.left
  | right => exact hbuilt.right

/-- The region of a packed input begins in front of its packing loop, which does not stand behind a
kernel loop. -/
theorem IsBuilt.located (hbuilt : program.IsBuilt) {side : Side} {region : PackedRegion}
    (hregion : program.region side = some region) :
    region.Located side (program.layout.loops.take region.loop)
        (program.layout.loops.drop region.loop) ∧
      ((program.layout.loops.take region.loop).getLast?.map Loop.isPrim) ≠ some true := by
  have hsizes := hbuilt.sizes
  obtain ⟨outside, inside, happend, hcuts, hcells, hcopy, hlast⟩ :=
    PackedRegion.ofLoops_eq_some (hbuilt.ofLoops_eq hregion)
  rw [happend] at hcells hcopy hsizes ⊢
  rw [hcuts.loop, List.take_left, List.drop_left]
  exact ⟨⟨hcuts, hsizes, hcells, hcopy⟩, hlast⟩

theorem IsBuilt.copies (hbuilt : program.IsBuilt)
    (hforward : ∀ side, PackedForward side program.layout.loops) {side : Side} {region : PackedRegion}
    (hregion : program.region side = some region) :
    region.Copies side (program.layout.loops.take region.loop)
      (program.layout.loops.drop region.loop) :=
  ⟨(hbuilt.located hregion).1, by rw [List.take_append_drop]; exact hforward side⟩

theorem IsBuilt.slots_pos (hbuilt : program.IsBuilt) {side : Side} {region : PackedRegion}
    (hregion : program.region side = some region) : 1 ≤ program.slots side := by
  cases side with
  | left => exact hbuilt.slotsLeft (by rw [show program.left = some region from hregion]; rfl)
  | right => exact hbuilt.slotsRight (by rw [show program.right = some region from hregion]; rfl)

theorem slotCells_eq {side : Side} {region : PackedRegion}
    (hregion : program.region side = some region) : program.slotCells side = region.cells := by
  rw [slotCells, hregion]

theorem slotCells_nonneg (hbuilt : program.IsBuilt)
    (hforward : ∀ side, PackedForward side program.layout.loops) (side : Side) :
    0 ≤ program.slotCells side := by
  unfold slotCells
  split
  · rename_i region hregion
    have := (hbuilt.copies hforward hregion).cells_pos
    omega
  · exact Int.le_refl 0

/-- Slots in front of a given one end where it begins. -/
theorem slot_mul_le {cells : Int} (hcells : 0 ≤ cells) {slot slot' : Nat} (h : slot < slot') :
    (slot : Int) * cells + cells ≤ slot' * cells := by
  have hle : ((slot : Int) + 1) ≤ slot' := by omega
  have := Int.mul_le_mul_of_nonneg_right hle hcells
  rwa [add_mul, one_mul] at this

theorem slot_bounds (hbuilt : program.IsBuilt)
    (hforward : ∀ side, PackedForward side program.layout.loops) {side : Side} {slot : Nat}
    (hslot : slot < program.slots side) :
    0 ≤ program.slotAddress side slot ∧
      program.slotAddress side slot + program.slotCells side ≤ program.scratchCells := by
  have hleft := slotCells_nonneg hbuilt hforward .left
  have hright := slotCells_nonneg hbuilt hforward .right
  have hrow := Int.mul_nonneg hleft (Int.natCast_nonneg program.slotsLeft)
  have hrow' := Int.mul_nonneg hright (Int.natCast_nonneg program.slotsRight)
  have hstart := fun cells (h : 0 ≤ cells) => Int.mul_nonneg (Int.natCast_nonneg slot) h
  cases side with
  | left =>
      have hend := slot_mul_le hleft (show slot < program.slotsLeft from hslot)
      have := hstart _ hleft
      rw [mul_comm (program.slotsLeft : Int)] at hend
      refine ⟨this, ?_⟩
      simp only [scratchCells, slotAddress]
      omega
  | right =>
      have hend := slot_mul_le hright (show slot < program.slotsRight from hslot)
      have := hstart _ hright
      rw [mul_comm (program.slotsRight : Int)] at hend
      simp only [scratchCells, slotAddress]
      constructor <;> omega

/-- No cell belongs to two slots. -/
theorem slots_disjoint (hbuilt : program.IsBuilt)
    (hforward : ∀ side, PackedForward side program.layout.loops) {side side' : Side} {slot slot' : Nat}
    (hslot : slot < program.slots side) (hslot' : slot' < program.slots side')
    (hne : ¬(side' = side ∧ slot' = slot)) {cell : Int} (hcell' : program.InSlot side' slot' cell) :
    cell < program.slotAddress side slot ∨
      program.slotAddress side slot + program.slotCells side ≤ cell := by
  have hleft := slotCells_nonneg hbuilt hforward .left
  have hright := slotCells_nonneg hbuilt hforward .right
  have hsame : ∀ {cells : Int}, 0 ≤ cells → slot' ≠ slot →
      (slot' : Int) * cells + cells ≤ slot * cells ∨ (slot : Int) * cells + cells ≤ slot' * cells :=
    fun hcells h => (Nat.lt_or_gt_of_ne h).imp (slot_mul_le hcells) (slot_mul_le hcells)
  have hstart := fun (slot : Nat) => Int.mul_nonneg (Int.natCast_nonneg slot) hright
  have hfits : ∀ {slot : Nat}, slot < program.slotsLeft → (slot : Int) * program.slotCells .left +
      program.slotCells .left ≤ program.slotCells .left * program.slotsLeft := fun h => by
    rw [mul_comm (program.slotCells .left)]
    exact slot_mul_le hleft h
  unfold InSlot at hcell'
  cases side with
  | left =>
      cases side' with
      | left =>
          have := hsame hleft fun h => hne ⟨rfl, h⟩
          simp only [slotAddress] at *
          omega
      | right =>
          have h0 := hstart slot'
          have h1 := hfits hslot
          simp only [slotAddress] at *
          omega
  | right =>
      cases side' with
      | left =>
          have h0 := hstart slot
          have h1 := hfits hslot'
          simp only [slotAddress] at *
          omega
      | right =>
          have := hsame hright fun h => hne ⟨rfl, h⟩
          simp only [slotAddress] at *
          omega

/-! ## Blocks in slots -/

variable {α : Type} [Scalar α] {inputs : Inputs α} {scratch scratch' : Buffer α} {side : Side}
  {slot : Nat}

/-- The loops that read the packed copy of an input. -/
def insideOf (program : Program) (side : Side) : List Loop :=
  match program.region side with
  | some region => program.layout.loops.drop region.loop
  | none => []

theorem insideOf_eq {region : PackedRegion} (hregion : program.region side = some region) :
    program.insideOf side = program.layout.loops.drop region.loop := by
  rw [insideOf, hregion]

/-- A slot holds the block of an input at an address of the caller's buffer: each of its places holds
the element that was moved there last. -/
def HoldsBlock (program : Program) (inputs : Inputs α) (side : Side) (scratch : Buffer α)
    (slot : Nat) (address : Int) : Prop :=
  ∀ region, program.region side = some region → ∀ offset source,
    region.copy.sourceOf offset = some source →
      Buffer.read? scratch (program.slotAddress side slot + offset) =
        some (Buffer.readD (inputs.buffer side) (address + source) Scalar.zero)

/-- A slot has the same contents in two states of the scratch memory. -/
def SlotKept (program : Program) (side : Side) (slot : Nat) (scratch scratch' : Buffer α) : Prop :=
  ∀ cell, program.InSlot side slot cell → Buffer.read? scratch' cell = Buffer.read? scratch cell

omit [Scalar α] in
theorem SlotKept.refl (side : Side) (slot : Nat) (scratch : Buffer α) :
    program.SlotKept side slot scratch scratch := fun _ _ => rfl

omit [Scalar α] in
theorem SlotKept.trans {scratch'' : Buffer α} (h : program.SlotKept side slot scratch scratch')
    (h' : program.SlotKept side slot scratch' scratch'') :
    program.SlotKept side slot scratch scratch'' :=
  fun cell hcell => (h' cell hcell).trans (h cell hcell)

section Regions

variable (hbuilt : program.IsBuilt) (hforward : ∀ side, PackedForward side program.layout.loops)
  {region : PackedRegion} (hregion : program.region side = some region)

include hbuilt hforward hregion

omit [Scalar α] in
/-- What a copy moves into a slot belongs to the slot. -/
theorem inSlot_of_sourceOf {offset source : Int}
    (h : region.copy.sourceOf offset = some source) :
    program.InSlot side slot (program.slotAddress side slot + offset) := by
  obtain ⟨hlow, hhigh⟩ :=
    (hbuilt.copies hforward hregion).snd_mem_moves (StridedCopy.mem_moves_of_sourceOf h)
  dsimp only at hlow hhigh
  rw [InSlot, slotCells_eq hregion]
  omega

omit hregion in
theorem HoldsBlock.of_kept {address : Int} (h : program.HoldsBlock inputs side scratch slot address)
    (hkept : program.SlotKept side slot scratch scratch') :
    program.HoldsBlock inputs side scratch' slot address := by
  intro region hregion offset source hsource
  rw [hkept _ (inSlot_of_sourceOf hbuilt hforward hregion hsource)]
  exact h region hregion offset source hsource

omit hbuilt hforward in
theorem pack_eq_fill (source target : Int) (scratch : Buffer α) :
    program.pack inputs side source target scratch = region.copy.fill
      (fun offset => some (Buffer.readD (inputs.buffer side) (source + offset) Scalar.zero)) scratch
        target := by
  rw [pack, hregion]

/-- Packing leaves the block in its slot. -/
theorem holdsBlock_pack (inputs : Inputs α) (hslot : slot < program.slots side)
    (hscratch : program.scratchCells ≤ scratch.size) (address : Int) :
    program.HoldsBlock inputs side
      (program.pack inputs side address (program.slotAddress side slot) scratch) slot address := by
  intro region' hregion' offset source hsource
  obtain rfl := Option.some.inj (hregion.symm.trans hregion')
  obtain ⟨hlow, hhigh⟩ := slot_bounds hbuilt hforward hslot
  rw [slotCells_eq hregion] at hhigh
  rw [pack_eq_fill hregion]
  exact (hbuilt.copies hforward hregion).read?_fill hlow (by omega) hsource

/-- Packing changes no other slot. -/
theorem slotKept_pack (inputs : Inputs α) (scratch : Buffer α) (hslot : slot < program.slots side)
    (address : Int) (side' : Side) (slot' : Nat) (hslot' : slot' < program.slots side')
    (hne : ¬(side' = side ∧ slot' = slot)) :
    program.SlotKept side' slot' scratch
      (program.pack inputs side address (program.slotAddress side slot) scratch) := by
  intro cell hcell
  rw [pack_eq_fill hregion]
  refine (hbuilt.copies hforward hregion).read?_fill_frame ?_
  rw [← slotCells_eq hregion]
  exact slots_disjoint hbuilt hforward hslot hslot' hne hcell

end Regions

/-! ## What a thread believes -/

/-- Whether an input is packed at a level whose slots are used again. -/
def fillsAgain (program : Program) (side : Side) : Bool :=
  match program.region side with
  | some region =>
      0 < region.loop && (program.layout.loops.getD (region.loop - 1) .unit).isParallel
  | none => false

/-- The blocks that a thread believes its slots to hold are there. -/
structure Trusts (program : Program) (inputs : Inputs α) (state : ThreadState)
    (scratch : Buffer α) : Prop where
  size : program.scratchCells ≤ scratch.size
  never : ∀ side, program.fillsAgain side = false → ∀ slot,
    (state.held side).getD slot none = none
  block : ∀ side region, program.region side = some region → ∀ slot < program.slots side,
    ∀ address, (state.held side).getD slot none = some address →
      program.HoldsBlock inputs side scratch slot address

theorem held_hold (state : ThreadState) (side : Side) (slot : Nat) (address : Int) :
    (state.hold side slot address).held side = (state.held side).set slot (some address) := by
  cases side <;> rfl

theorem held_hold_of_ne (state : ThreadState) {side other : Side} (h : other ≠ side) (slot : Nat)
    (address : Int) : (state.hold side slot address).held other = state.held other := by
  cases side <;> cases other <;> first | rfl | exact absurd rfl h

/-- A list with one entry replaced has the new entry there and the old ones elsewhere. -/
theorem getD_set_eq_some {held : List (Option Int)} {slot slot' : Nat} {address address' : Int}
    (h : (held.set slot (some address)).getD slot' none = some address') :
    slot' = slot ∧ address' = address ∨ slot' ≠ slot ∧ held.getD slot' none = some address' := by
  rw [List.getD_eq_getElem?_getD, List.getElem?_set] at h
  by_cases heq : slot = slot'
  · rw [if_pos heq] at h
    split at h
    · exact .inl ⟨heq.symm, (Option.some.inj h).symm⟩
    · exact absurd h (by simp)
  · rw [if_neg heq] at h
    exact .inr ⟨fun h => heq h.symm, by rwa [List.getD_eq_getElem?_getD]⟩

section Filling

variable (hbuilt : program.IsBuilt) (hforward : ∀ side, PackedForward side program.layout.loops)
  {region : PackedRegion} (hregion : program.region side = some region) {state : ThreadState}
  (htrusts : program.Trusts inputs state scratch) (hslots : slot < program.slots side)

include hbuilt hforward hregion htrusts hslots

/-- The slots apart from the one that is filled hold what they are believed to hold. -/
theorem Trusts.holds_other {address : Int} {side' : Side} {region' : PackedRegion}
    (hregion' : program.region side' = some region') {slot' : Nat}
    (hslot' : slot' < program.slots side') (hne : ¬(side' = side ∧ slot' = slot)) {address' : Int}
    (hheld : (state.held side').getD slot' none = some address') :
    program.HoldsBlock inputs side'
      (program.pack inputs side address (program.slotAddress side slot) scratch) slot' address' :=
  (htrusts.block side' region' hregion' slot' hslot' address' hheld).of_kept hbuilt hforward
    (slotKept_pack hbuilt hforward hregion inputs scratch hslots address side' slot' hslot' hne)

/-- Filling a slot that is not used again: the thread believes nothing about it. -/
theorem Trusts.pack_once (hfills : program.fillsAgain side = false) (address : Int) :
    program.Trusts inputs state
      (program.pack inputs side address (program.slotAddress side slot) scratch) where
  size := by
    rw [pack_eq_fill hregion, StridedCopy.size_fill]
    exact htrusts.size
  never := htrusts.never
  block side' region' hregion' slot' hslot' address' hheld := by
    refine htrusts.holds_other hbuilt hforward hregion hslots hregion' hslot' ?_ hheld
    rintro ⟨rfl, -⟩
    exact absurd ((htrusts.never side' hfills slot').symm.trans hheld) (by simp)

/-- Filling a slot that may be used again: the thread remembers the block. -/
theorem Trusts.pack_again (hfills : program.fillsAgain side = true) (address : Int) :
    program.Trusts inputs (state.hold side slot address)
      (program.pack inputs side address (program.slotAddress side slot) scratch) where
  size := by
    rw [pack_eq_fill hregion, StridedCopy.size_fill]
    exact htrusts.size
  never side' hfalse slot' := by
    have hne : side' ≠ side := by
      rintro rfl
      exact absurd (hfills.symm.trans hfalse) (by simp)
    rw [held_hold_of_ne state hne]
    exact htrusts.never side' hfalse slot'
  block side' region' hregion' slot' hslot' address' hheld := by
    by_cases hside : side' = side
    · subst hside
      rw [held_hold] at hheld
      rcases getD_set_eq_some hheld with ⟨rfl, rfl⟩ | ⟨hne, hheld⟩
      · exact holdsBlock_pack hbuilt hforward hregion inputs hslots htrusts.size _
      · exact htrusts.holds_other hbuilt hforward hregion hslots hregion' hslot'
          (fun h => hne h.2) hheld
    · rw [held_hold_of_ne state hside] at hheld
      exact htrusts.holds_other hbuilt hforward hregion hslots hregion' hslot'
        (fun h => hside h.1) hheld

end Filling

/-! ## Packing an input -/

/-- An input whose turn it is fills its slot and moves there. -/
theorem run_packInput {region : PackedRegion} (hregion : program.region side = some region)
    (reuse : Option Reuse) (cursor : Cursor) (state : ThreadState) :
    (program.packInput side region.loop reuse cursor).run state =
      ((((program.fillSlot side ((reuse.map fun r => r.slot side).getD 0) reuse.isSome
          (cursor.input side).address).run state).1,
        cursor.withInput side
          ⟨.scratch, program.slotAddress side ((reuse.map fun r => r.slot side).getD 0)⟩),
        ((program.fillSlot side ((reuse.map fun r => r.slot side).getD 0) reuse.isSome
          (cursor.input side).address).run state).2) := by
  rw [packInput, hregion]
  dsimp only
  rw [if_pos rfl]
  rfl

/-- Where it is not the turn of an input, nothing happens to it. -/
theorem packInput_eq_pure {next : Nat}
    (h : ∀ region, program.region side = some region → region.loop ≠ next) (reuse : Option Reuse)
    (cursor : Cursor) : program.packInput side next reuse cursor = pure ([], cursor) := by
  rw [packInput]
  cases hregion : program.region side with
  | none => rfl
  | some region => exact if_neg (h region hregion)

/-- The left input is packed before the right one. -/
theorem run_packInputs (next : Nat) (reuse : Option Reuse) (cursor : Cursor)
    (state : ThreadState) :
    (program.packInputs next reuse cursor).run state =
      let p := (program.packInput .left next reuse cursor).run state
      let q := (program.packInput .right next reuse p.1.2).run p.2
      ((p.1.1 ++ q.1.1, q.1.2), q.2) := rfl

/-- A packed input stands in its slot, which holds the block that the input stood at, and no other
slot has changed. -/
theorem packInput_run (hbuilt : program.IsBuilt)
    (hforward : ∀ side, PackedForward side program.layout.loops) {region : PackedRegion}
    (hregion : program.region side = some region) {reuse : Option Reuse}
    (hagain : reuse.isSome = program.fillsAgain side)
    (hslot : slot = (reuse.map fun r => r.slot side).getD 0) (hslots : slot < program.slots side)
    {cursor : Cursor} {state : ThreadState} (htrusts : program.Trusts inputs state scratch)
    {calls : List Call} {active : Cursor} {state' : ThreadState}
    (hrun : (program.packInput side region.loop reuse cursor).run state =
      ((calls, active), state')) :
    active = cursor.withInput side ⟨.scratch, program.slotAddress side slot⟩ ∧
      ∃ scratch', program.watch inputs calls scratch = ([], scratch') ∧
        program.Trusts inputs state' scratch' ∧
        program.HoldsBlock inputs side scratch' slot (cursor.input side).address ∧
        ∀ side' slot', slot' < program.slots side' → ¬(side' = side ∧ slot' = slot) →
          program.SlotKept side' slot' scratch scratch' := by
  rw [run_packInput hregion, ← hslot, fillSlot_run] at hrun
  split at hrun
  · -- the slot holds the block already
    rename_i hheld
    obtain ⟨hcalls, rfl⟩ := Prod.mk.inj hrun
    obtain ⟨rfl, rfl⟩ := Prod.mk.inj hcalls
    exact ⟨rfl, scratch, rfl, htrusts,
      htrusts.block side region hregion slot hslots _ hheld.2, fun _ _ _ _ => .refl _ _ _⟩
  · obtain ⟨hcalls, rfl⟩ := Prod.mk.inj hrun
    obtain ⟨rfl, rfl⟩ := Prod.mk.inj hcalls
    refine ⟨rfl, _, rfl, ?_, holdsBlock_pack hbuilt hforward hregion inputs hslots htrusts.size _,
      fun side' slot' => slotKept_pack hbuilt hforward hregion inputs scratch hslots _ side' slot'⟩
    cases hreuse : reuse.isSome with
    | false => exact htrusts.pack_once hbuilt hforward hregion hslots (hagain ▸ hreuse) _
    | true => exact htrusts.pack_again hbuilt hforward hregion hslots (hagain ▸ hreuse) _

end Program

end LoopNest
