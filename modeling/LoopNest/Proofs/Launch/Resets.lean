import LoopNest.Proofs.Launch.Sights

/-!
# What a thread forgets between two launches

A thread resets its state in front of each launch. What a reset leaves of a state is the number of
its cells and slots, and no step of a launch changes these (`KeepsReset`). So a thread makes the same
calls in every launch (`Program.threadCalls_congr`) and leaves a state that fits its work again
(`Program.fits_threadCalls`), for every list of loops.
-/

namespace LoopNest

namespace ThreadState

variable (state : ThreadState)

theorem reset_reset : state.reset.reset = state.reset := by simp [reset]

theorem reset_hold (side : Side) (slot : Nat) (address : Int) :
    (state.hold side slot address).reset = state.reset := by
  cases side <;> simp [reset, hold]

/-- After a reset no slot is remembered. -/
theorem getD_held_reset (side : Side) (slot : Nat) :
    (state.reset.held side).getD slot none = none := by
  have hnone : ∀ held : List (Option Int),
      (held.map fun _ => (none : Option Int)).getD slot none = none := by
    intro held
    rw [List.getD_eq_getElem?_getD, List.getElem?_map]
    cases held[slot]? <;> rfl
  cases side <;> exact hnone _

end ThreadState

/-- A step that keeps the number of cells and slots. -/
def KeepsReset {β : Type} (x : ThreadStep β) : Prop := ∀ state, (x.run state).2.reset = state.reset

section KeepsReset

variable {β γ : Type}

theorem keepsReset_pure (b : β) : KeepsReset (pure b : ThreadStep β) := fun _ => rfl

theorem KeepsReset.bind {x : ThreadStep β} {f : β → ThreadStep γ} (hx : KeepsReset x)
    (hf : ∀ b, KeepsReset (f b)) : KeepsReset (x >>= f) := fun state =>
  (hf _ _).trans (hx state)

theorem KeepsReset.mapM {f : β → ThreadStep γ} (hf : ∀ b, KeepsReset (f b)) (bs : List β) :
    KeepsReset (bs.mapM f) := by
  induction bs with
  | nil => exact keepsReset_pure _
  | cons b bs ih =>
      rw [List.mapM_cons]
      exact (hf b).bind fun _ => ih.bind fun _ => keepsReset_pure _

end KeepsReset

namespace Program

variable (program : Program) (work : Work)

theorem keepsReset_countVisit (stop : Stop) : KeepsReset (countVisit work stop) := by
  intro state
  show ({ state with visits := _ } : ThreadState).reset = state.reset
  simp only [ThreadState.reset, Array.map_const', Array.size_setIfInBounds]

theorem keepsReset_packInput (side : Side) (next : Nat) (reuse : Option Reuse) (cursor : Cursor) :
    KeepsReset (program.packInput side next reuse cursor) := by
  have hfill : ∀ slot again address,
      KeepsReset (program.fillSlot side slot again address) := fun slot again address state => by
    rw [fillSlot_run]
    split
    · rfl
    · -- another block may be remembered, but in as many slots
      dsimp only
      split
      · exact state.reset_hold side slot address
      · rfl
  unfold packInput
  split
  · split
    · exact (hfill _ _ _).bind fun _ => keepsReset_pure _
    · exact keepsReset_pure _
  · exact keepsReset_pure _

theorem keepsReset_packInputs (next : Nat) (reuse : Option Reuse) (cursor : Cursor) :
    KeepsReset (program.packInputs next reuse cursor) :=
  (program.keepsReset_packInput _ _ _ _).bind fun _ =>
    (program.keepsReset_packInput _ _ _ _).bind fun _ => keepsReset_pure _

theorem keepsReset_visit (levels : List Level) (cursor : Cursor) (first last : Bool) :
    KeepsReset (program.visit work levels cursor first last) := by
  induction levels generalizing cursor first last with
  | nil => exact keepsReset_pure _
  | cons level inner ih =>
      have hinside : ∀ reuse (cursor : Cursor) (first last : Bool), KeepsReset (do
          let r ← program.packInputs level.next reuse cursor
          let calls ← program.visit work inner r.2 first last
          return r.1 ++ calls) := fun reuse cursor first last =>
        (program.keepsReset_packInputs _ _ _).bind fun r =>
          (ih r.2 first last).bind fun calls => keepsReset_pure (r.1 ++ calls)
      rw [visit]
      cases level.kind with
      | sequential =>
          exact (KeepsReset.mapM (fun _ => hinside _ _ _ _) _).bind fun _ => keepsReset_pure _
      | flat =>
          exact (KeepsReset.mapM (fun _ => hinside _ _ _ _) _).bind fun _ => keepsReset_pure _
      | curve =>
          exact (KeepsReset.mapM (fun stop => (keepsReset_countVisit work stop).bind fun _ =>
            hinside _ _ _ _) _).bind fun _ => keepsReset_pure _

/-- The calls of a thread depend on what a reset leaves of its state. -/
theorem threadCalls_congr (base : Operands Int) {state state' : ThreadState}
    (h : state'.reset = state.reset) :
    (program.threadCalls work base).run state' = (program.threadCalls work base).run state := by
  show (do
    let r ← program.packInputs 0 none ((Cursor.start base).move work.offset)
    let calls ← program.visit work program.layout.levels r.2 true true
    return r.1 ++ calls : ThreadStep (List Call)).run state'.reset = _
  rw [h]
  rfl

theorem reset_threadCalls (base : Operands Int) (state : ThreadState) :
    ((program.threadCalls work base).run state).2.reset = state.reset := by
  have hcalls : KeepsReset (do
      let r ← program.packInputs 0 none ((Cursor.start base).move work.offset)
      let calls ← program.visit work program.layout.levels r.2 true true
      return r.1 ++ calls : ThreadStep (List Call)) :=
    (program.keepsReset_packInputs _ _ _).bind fun r =>
      (program.keepsReset_visit _ _ _ _ _).bind fun calls => keepsReset_pure (r.1 ++ calls)
  exact (hcalls state.reset).trans state.reset_reset

variable {program work}

/-- States with the same numbers of cells and slots fit the same work. -/
theorem Fits.of_reset {state state' : ThreadState} (h : program.Fits work state)
    (heq : state'.reset = state.reset) : program.Fits work state' := by
  have hvisits := congrArg (fun s : ThreadState => s.visits.size) heq
  have hleft := congrArg (fun s : ThreadState => s.heldLeft.length) heq
  have hright := congrArg (fun s : ThreadState => s.heldRight.length) heq
  simp only [ThreadState.reset, Array.size_map, List.length_map] at hvisits hleft hright
  exact ⟨hvisits.trans h.visits, hleft.trans h.heldLeft, hright.trans h.heldRight⟩

/-- A thread leaves a state that fits its work again. -/
theorem fits_threadCalls (base : Operands Int) {state : ThreadState}
    (h : program.Fits work state) :
    program.Fits work ((program.threadCalls work base).run state).2 :=
  h.of_reset (program.reset_threadCalls work base state)

end Program

end LoopNest
