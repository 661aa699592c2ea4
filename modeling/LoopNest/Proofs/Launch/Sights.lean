import LoopNest.Proofs.Launch.Schedule

/-!
# What a thread calls

The calls of a thread depend on its state only through the blocks that need not be packed again. A
`Sight` is a kernel call without what packing decides: the place of a packed input is left out, and
calls that pack are not seen at all. The sights of a thread are the same in every launch.

The main statement is `Program.sights_threadCalls`: a thread shows the kernel calls of its schedule,
in order, and its state fits its work again.
-/

namespace LoopNest

/-- A kernel call seen from outside the scratch memory; a packed input has no place. -/
inductive Sight where
  | touch (which : Touch) (outAux out : Int)
  | main (left right : Option Place) (out : Int)
  deriving DecidableEq

/-- The sight of a call. -/
def Call.sight (packed : Side → Bool) : Call → Option Sight
  | .pack .. => none
  | .touch which outAux out => some (.touch which outAux out)
  | .main left right out =>
      some (.main (if packed .left then none else some left)
        (if packed .right then none else some right) out)

/-- The sights of a list of calls. -/
def sights (packed : Side → Bool) (calls : List Call) : List Sight :=
  calls.filterMap (Call.sight packed)

@[simp] theorem sights_append (packed : Side → Bool) (calls calls' : List Call) :
    sights packed (calls ++ calls') = sights packed calls ++ sights packed calls' :=
  List.filterMap_append

/-- Two cursors stand at the same addresses, apart from packed inputs. -/
structure Cursor.Agrees (packed : Side → Bool) (cursor cursor' : Cursor) : Prop where
  input : ∀ side, packed side = false → cursor.input side = cursor'.input side
  outAux : cursor.outAux = cursor'.outAux
  out : cursor.out = cursor'.out

namespace Cursor

variable {packed : Side → Bool} {cursor cursor' cursor'' : Cursor}

theorem Agrees.refl (packed : Side → Bool) (cursor : Cursor) : cursor.Agrees packed cursor :=
  ⟨fun _ _ => rfl, rfl, rfl⟩

theorem Agrees.trans (h : cursor.Agrees packed cursor') (h' : cursor'.Agrees packed cursor'') :
    cursor.Agrees packed cursor'' :=
  ⟨fun side hside => (h.input side hside).trans (h'.input side hside), h.outAux.trans h'.outAux,
    h.out.trans h'.out⟩

theorem Agrees.move (h : cursor.Agrees packed cursor') (offset : Operands Int) :
    (cursor.move offset).Agrees packed (cursor'.move offset) where
  input side hside := by
    have := h.input side hside
    cases side <;> simp_all [Cursor.input, Cursor.move]
  outAux := congrArg (· + offset.outAux) h.outAux
  out := congrArg (· + offset.out) h.out

theorem agrees_withInput {side : Side} (hside : packed side = true) (place : Place) :
    (cursor.withInput side place).Agrees packed cursor where
  input other hother := by
    cases side <;> cases other <;> simp_all [Cursor.input, Cursor.withInput]
  outAux := by cases side <;> rfl
  out := by cases side <;> rfl

end Cursor

/-! ## Steps of a thread -/

/-- Started in a state with `P`, a step gives a value and a state with `Q`. -/
def Ensures {β : Type} (P : ThreadState → Prop) (x : ThreadStep β)
    (Q : β → ThreadState → Prop) : Prop :=
  ∀ state, P state → Q (x.run state).1 (x.run state).2

section Ensures

variable {β γ : Type} {P : ThreadState → Prop}

theorem Ensures.bind {x : ThreadStep β} {f : β → ThreadStep γ} {Q : β → ThreadState → Prop}
    {R : γ → ThreadState → Prop} (hx : Ensures P x Q) (hf : ∀ b, Ensures (Q b) (f b) R) :
    Ensures P (x >>= f) R :=
  fun state hstate => hf _ _ (hx state hstate)

theorem ensures_pure {b : β} {Q : β → ThreadState → Prop} (h : ∀ state, P state → Q b state) :
    Ensures P (pure b) Q := h

theorem ensures_and {p : Prop} {x : ThreadStep β} {Q : β → ThreadState → Prop}
    (h : p → Ensures P x Q) : Ensures (fun state => p ∧ P state) x Q :=
  fun state hstate => h hstate.1 state hstate.2

theorem Ensures.mapM {f : β → ThreadStep γ} {R : β → γ → Prop} {bs : List β}
    (h : ∀ b ∈ bs, Ensures P (f b) fun c state => R b c ∧ P state) :
    Ensures P (bs.mapM f) fun cs state => List.Forall₂ R bs cs ∧ P state := by
  induction bs with
  | nil => exact ensures_pure fun _ hstate => ⟨.nil, hstate⟩
  | cons b bs ih =>
      rw [List.forall_mem_cons] at h
      rw [List.mapM_cons]
      intro state hstate
      obtain ⟨hc, hstate⟩ := h.1 state hstate
      obtain ⟨hcs, hstate⟩ := ih h.2 _ hstate
      exact ⟨.cons hc hcs, hstate⟩

end Ensures

/-- The sights of joined lists of calls. -/
theorem sights_flatten {β : Type} {packed : Side → Bool} {g : β → List Sight} {bs : List β}
    {lists : List (List Call)} (h : List.Forall₂ (fun b calls => sights packed calls = g b) bs lists) :
    sights packed lists.flatten = bs.flatMap g := by
  induction h with
  | nil => rfl
  | cons hcalls _ ih => rw [List.flatten_cons, sights_append, hcalls, ih, List.flatMap_cons]

namespace Program

variable (program : Program)

/-- A state of a thread with the cells and the slots of its work. -/
structure Fits (work : Work) (state : ThreadState) : Prop where
  visits : state.visits.size = (work.sizeM * work.sizeN).toNat
  heldLeft : state.heldLeft.length = program.slotsLeft
  heldRight : state.heldRight.length = program.slotsRight

/-- The first phase brings the cursor to the start of the work of a thread; the others are its
levels. -/
def threadPhases (work : Work) (share : Share) : List Phase :=
  ⟨0, [⟨work.offset, true, true, none⟩]⟩ :: program.layout.levels.map (program.phase share)

variable {program} {work : Work} {share : Share} {packed : Side → Bool}

theorem fits_initialState (work : Work) : program.Fits work (program.initialState work) :=
  ⟨Array.size_replicate, List.length_replicate, List.length_replicate⟩

theorem Fits.hold {state : ThreadState} (h : program.Fits work state) (side : Side) (slot : Nat)
    (address : Int) : program.Fits work (state.hold side slot address) := by
  cases side with
  | left => exact ⟨h.visits, by rw [← h.heldLeft]; exact List.length_set, h.heldRight⟩
  | right => exact ⟨h.visits, h.heldLeft, by rw [← h.heldRight]; exact List.length_set⟩

/-- A launch begins as the first one does. -/
theorem Fits.reset_eq {state : ThreadState} (h : program.Fits work state) :
    state.reset = program.initialState work := by
  rw [ThreadState.reset, List.map_const', List.map_const', Array.map_const', h.visits, h.heldLeft,
    h.heldRight]
  rfl

/-- Kernel calls show what the cursor has outside the packed inputs. -/
theorem sights_kernelCalls_congr {cursor cursor' : Cursor} (h : cursor.Agrees packed cursor')
    (first last : Bool) :
    sights packed (program.kernelCalls cursor first last) =
      sights packed (program.kernelCalls cursor' first last) := by
  have hmain : sights packed [.main cursor.left cursor.right cursor'.out] =
      sights packed [.main cursor'.left cursor'.right cursor'.out] := by
    have hleft := h.input .left
    have hright := h.input .right
    cases hl : packed .left <;> cases hr : packed .right <;>
      simp_all [sights, Call.sight, Cursor.input]
  simp only [kernelCalls, sights_append, h.outAux, h.out, hmain]

/-- Packing is not seen and moves packed inputs only. -/
theorem ensures_packInputs (hpacked : ∀ side, (program.region side).isSome → packed side = true)
    (next : Nat) (reuse : Option Reuse) (cursor : Cursor) :
    Ensures (program.Fits work) (program.packInputs next reuse cursor) fun r state =>
      (sights packed r.1 = [] ∧ r.2.Agrees packed cursor) ∧ program.Fits work state := by
  -- a copy moves no operand that is not packed
  have hfill : ∀ side slot again address, Ensures (program.Fits work)
      (program.fillSlot side slot again address) fun calls state =>
        sights packed calls = [] ∧ program.Fits work state := by
    intro side slot again address state hstate
    rw [fillSlot_run]
    split
    · exact ⟨rfl, hstate⟩
    · refine ⟨rfl, ?_⟩
      show program.Fits work (if again = true then _ else state)
      split
      · exact hstate.hold side slot address
      · exact hstate
  have hpack : ∀ side cursor, Ensures (program.Fits work)
      (program.packInput side next reuse cursor) fun r state =>
        (sights packed r.1 = [] ∧ r.2.Agrees packed cursor) ∧ program.Fits work state := by
    intro side cursor
    unfold packInput
    split
    · rename_i region hregion
      split
      · refine (hfill _ _ _ _).bind fun calls => ensures_pure fun state hstate => ?_
        exact ⟨⟨hstate.1, Cursor.agrees_withInput (hpacked side (by rw [hregion]; rfl)) _⟩,
          hstate.2⟩
      · exact ensures_pure fun state hstate => ⟨⟨rfl, .refl _ _⟩, hstate⟩
    · exact ensures_pure fun state hstate => ⟨⟨rfl, .refl _ _⟩, hstate⟩
  refine (hpack .left cursor).bind fun ⟨left, moved⟩ => ensures_and fun ⟨hleft, hmoved⟩ => ?_
  refine (hpack .right moved).bind fun ⟨right, moved'⟩ => ensures_and fun ⟨hright, hmoved'⟩ => ?_
  refine ensures_pure fun state hstate => ⟨⟨?_, hmoved'.trans hmoved⟩, hstate⟩
  rw [sights_append, hleft, hright, List.append_nil]

/-- The phases of a thread show the kernel calls of their visits, in order. -/
theorem ensures_runPhases (hpacked : ∀ side, (program.region side).isSome → packed side = true)
    (phases : List Phase) {cursor place : Cursor} (hplace : cursor.Agrees packed place)
    (first last : Bool) :
    Ensures (program.Fits work) (program.runPhases phases cursor first last) fun calls state =>
      sights packed calls = ((visits phases).flatMap fun v => sights packed
        (program.kernelCalls (place.move v.offset) (first && v.first) (last && v.last))) ∧
        program.Fits work state := by
  induction phases generalizing cursor place first last with
  | nil =>
      refine ensures_pure fun state hstate => ⟨?_, hstate⟩
      simp [visits, Visit.single, Cursor.move_zero, sights_kernelCalls_congr hplace]
  | cons phase inner ih =>
      -- one step: what its packing leaves of the cursor is where the inner phases start
      have hstep : ∀ step ∈ phase.steps, Ensures (program.Fits work)
          (do
            let r ← program.packInputs phase.next step.reuse (cursor.move step.offset)
            let calls ← program.runPhases inner r.2 (first && step.first) (last && step.last)
            return r.1 ++ calls)
          fun calls state =>
            sights packed calls = ((visits inner).flatMap fun v => sights packed
              (program.kernelCalls ((place.move step.offset).move v.offset)
                (first && step.first && v.first) (last && step.last && v.last))) ∧
              program.Fits work state := by
        intro step _
        refine (ensures_packInputs hpacked phase.next step.reuse (cursor.move step.offset)).bind
          fun r => ensures_and fun hpacked => ?_
        obtain ⟨hpacking, hactive⟩ := hpacked
        refine (ih (hactive.trans (hplace.move step.offset)) (first && step.first)
          (last && step.last)).bind fun calls => ensures_and fun hcalls => ?_
        refine ensures_pure fun state hstate => ⟨?_, hstate⟩
        rw [sights_append, hpacking, List.nil_append, hcalls]
      rw [runPhases]
      refine (Ensures.mapM hstep).bind fun lists => ensures_pure fun state hstate =>
        ⟨?_, hstate.2⟩
      rw [sights_flatten hstate.1, visits, nest, List.flatMap_assoc, List.flatMap_map]
      refine List.flatMap_congr fun step _ => ?_
      rw [List.flatMap_map]
      refine List.flatMap_congr fun v _ => ?_
      simp only [Cursor.move_move, Visit.join, Step.visit, Bool.and_assoc]

/-- A thread goes through its phases from the state before its first launch. -/
theorem threadCalls_run (hbuilt : program.IsBuilt) (hdoes : program.Does share work)
    {before omp sfc after kernel : List Loop}
    (hcut : Layout.Cut program.layout.loops before omp sfc after kernel) (base : Operands Int)
    {state : ThreadState} (hfits : program.Fits work state) :
    (program.threadCalls work base).run state =
      (program.runPhases (program.threadPhases work share) (Cursor.start base) true true).run
        (program.initialState work) := by
  have honce : program.layout.levels.Pairwise fun a b => a.kind = .curve → b.kind ≠ .curve := by
    rw [hbuilt.sound.levels_eq hcut]
    exact Layout.pairwise_levels _ _ _ _ _ _ _ _
  have hpack : RunsAs (program.packInputs 0 none ((Cursor.start base).move work.offset))
      (program.packInputs 0 none ((Cursor.start base).move work.offset)) (noVisits work)
      (noVisits work) := ignoresVisits_packInputs _ _ _ _
  have hrun := hpack.bind fun r => (runsAs_visit hbuilt hdoes honce r.2 true true).bind
    fun calls => ignoresVisits_pure (r.1 ++ calls) (noVisits work)
  have hphases : program.runPhases (program.threadPhases work share) (Cursor.start base) true true =
      (do
        let r ← program.packInputs 0 none ((Cursor.start base).move work.offset)
        let calls ← program.runPhases (program.layout.levels.map (program.phase share)) r.2 true true
        return r.1 ++ calls) := by
    rw [threadPhases, runPhases]
    simp only [List.mapM_cons, List.mapM_nil, bind_assoc, pure_bind, List.flatten_cons,
      List.flatten_nil, List.append_nil]
    rfl
  have hignores : IgnoresVisits (program.runPhases (program.threadPhases work share)
      (Cursor.start base) true true) := ignoresVisits_runPhases _ _ _ _
  rw [hphases] at hignores ⊢
  calc (program.threadCalls work base).run state
      = (do
          let r ← program.packInputs 0 none ((Cursor.start base).move work.offset)
          let calls ← program.visit work program.layout.levels r.2 true true
          return r.1 ++ calls : ThreadStep (List Call)).run state.reset := rfl
    _ = _ := by
        rw [hfits.reset_eq]
        exact (hrun (program.initialState work)).trans
          (hignores (noVisits work) (program.initialState work)).symm

/-- The visits of the phases of a thread are those of its schedule. -/
theorem visits_threadPhases (hbuilt : program.IsBuilt) (hdoes : program.Does share work)
    {before omp sfc after kernel : List Loop}
    (hcut : Layout.Cut program.layout.loops before omp sfc after kernel) :
    visits (program.threadPhases work share) =
      program.threadVisits Loop.strides before after share := by
  rw [← visits_phases hbuilt hdoes hcut, threadPhases, visits, List.map_singleton, nest,
    List.flatMap_singleton]
  exact List.map_congr_left fun v _ => Visit.ext rfl (Bool.true_and _) (Bool.true_and _)

/-- The kernel calls of a visit, on buffers that start at the given addresses. -/
def visitSights (program : Program) (packed : Side → Bool) (base : Operands Int) (v : Visit) :
    List Sight :=
  sights packed (program.kernelCalls ((Cursor.start base).move v.offset) v.first v.last)

/-- A thread shows the kernel calls of its schedule, in order, and its state fits its work again. -/
theorem sights_threadCalls (hbuilt : program.IsBuilt) (hdoes : program.Does share work)
    (hpacked : ∀ side, (program.region side).isSome → packed side = true)
    {before omp sfc after kernel : List Loop}
    (hcut : Layout.Cut program.layout.loops before omp sfc after kernel) (base : Operands Int)
    {state : ThreadState} (hfits : program.Fits work state) :
    sights packed ((program.threadCalls work base).run state).1 =
        (program.threadVisits Loop.strides before after share).flatMap
          (program.visitSights packed base) ∧
      program.Fits work ((program.threadCalls work base).run state).2 := by
  rw [threadCalls_run hbuilt hdoes hcut base hfits, ← visits_threadPhases hbuilt hdoes hcut]
  exact ensures_runPhases hpacked _ (.refl packed _) true true _ (fits_initialState work)

end Program

end LoopNest
