import LoopNest.Proofs.Parallel.Runs
import LoopNest.Proofs.Planning.Fusion
import LoopNest.Proofs.Planning.Passes

/-!
# Where planning puts loops

Planning appends kernel loops at the end of the list and never puts a loop behind them, so the
kernel loops of a planned nest stand last (`plan_kernelLast`). What stands in front of them are the
packed loops, and in front of these the loops that blocking was free to move, along which no input
is packed (`block_eq_ok`).
-/

namespace LoopNest

/-! ## Kernel loops stand last -/

theorem kernelLast_iff {loops : List Loop} :
    KernelLast loops ↔ loops.Pairwise fun a b => a.isPrim = true → b.isPrim = true := by
  constructor
  · intro h
    have houter : ∀ loop ∈ outerLoops loops, ¬loop.isPrim = true := fun loop hloop => by
      simpa using (List.mem_filter.1 hloop).2
    rw [← h, List.pairwise_append]
    refine ⟨List.pairwise_of_forall_mem_list fun a ha b _ hprim => absurd hprim (houter a ha),
      List.pairwise_of_forall_mem_list fun a _ b hb _ => (List.mem_filter.1 hb).2,
      fun a ha b _ hprim => absurd hprim (houter a ha)⟩
  · intro h
    induction h with
    | nil => rfl
    | @cons loop rest hloop _ ih =>
        by_cases hprim : loop.isPrim = true
        · have hall : ∀ l ∈ loop :: rest, l.isPrim = true :=
            List.forall_mem_cons.2 ⟨hprim, fun l hl => hloop l hl hprim⟩
          rw [KernelLast, outerLoops, kernelLoops, List.filter_eq_self.2 hall,
            List.filter_eq_nil_iff.2 fun l hl => by simp [hall l hl], List.nil_append]
        · rw [KernelLast, outerLoops, kernelLoops, List.filter_cons_of_neg hprim,
            List.filter_cons_of_pos (by simpa using hprim), List.cons_append]
          exact congrArg _ ih

/-- Whether kernel loops stand last is seen from which loops are kernel loops. -/
theorem kernelLast_iff_map {loops : List Loop} :
    KernelLast loops ↔ (loops.map Loop.isPrim).Pairwise fun a b => a = true → b = true := by
  rw [kernelLast_iff, List.pairwise_map]

theorem KernelLast.filter {loops : List Loop} (h : KernelLast loops) (q : Loop → Bool) :
    KernelLast (loops.filter q) :=
  kernelLast_iff.2 ((kernelLast_iff.1 h).filter q)

theorem KernelLast.append {front loops : List Loop} (hfront : ∀ loop ∈ front, loop.isPrim = false)
    (h : KernelLast loops) : KernelLast (front ++ loops) := by
  rw [kernelLast_iff, List.pairwise_append]
  refine ⟨List.pairwise_of_forall_mem_list fun a ha b _ hprim => ?_, kernelLast_iff.1 h,
    fun a ha b _ hprim => ?_⟩
  · exact absurd hprim (by rw [hfront a ha]; simp)
  · exact absurd hprim (by rw [hfront a ha]; simp)

/-- A loop list that begins like another one and goes on with kernel loops. -/
def Extends (loops result : List Loop) : Prop :=
  ∃ run : List Bool, result.map Loop.isPrim = loops.map Loop.isPrim ++ run ∧ ∀ b ∈ run, b = true

namespace Extends

variable {a b c : List Loop}

theorem of_map_eq (h : b.map Loop.isPrim = a.map Loop.isPrim) : Extends a b :=
  ⟨[], by rw [h, List.append_nil], by simp⟩

theorem snoc (loop : Loop) (h : b.map Loop.isPrim = a.map Loop.isPrim ++ [loop.isPrim])
    (hprim : loop.isPrim = true) : Extends a b :=
  ⟨[loop.isPrim], h, by simpa using hprim⟩

theorem trans (h : Extends a b) (h' : Extends b c) : Extends a c := by
  obtain ⟨run, hab, hrun⟩ := h
  obtain ⟨run', hbc, hrun'⟩ := h'
  exact ⟨run ++ run', by rw [hbc, hab, List.append_assoc],
    fun x hx => (List.mem_append.1 hx).elim (hrun x) (hrun' x)⟩

theorem kernelLast (h : Extends a b) (ha : ∀ loop ∈ a, loop.isPrim = false) : KernelLast b := by
  obtain ⟨run, hab, hrun⟩ := h
  have hfront : ∀ x ∈ a.map Loop.isPrim, ¬x = true := by
    intro x hx
    obtain ⟨loop, hloop, rfl⟩ := List.mem_map.1 hx
    rw [ha loop hloop]
    simp
  rw [kernelLast_iff_map, hab, List.pairwise_append]
  exact ⟨List.pairwise_of_forall_mem_list fun x hx y _ hprim => absurd hprim (hfront x hx),
    List.pairwise_of_forall_mem_list fun x _ y hy _ => hrun y hy,
    fun x hx y _ hprim => absurd hprim (hfront x hx)⟩

end Extends

/-! ## Installing -/

theorem mode_of_split {loop : Loop} {target : Int} {mode : Mode} {pair : LoopPair}
    (h : loop.split target mode = .ok pair) :
    pair.outer.mode = loop.mode ∧ pair.inner.mode = mode := by
  obtain ⟨size, -, h⟩ := bind_eq_ok.1 h
  obtain rfl := pure_eq_ok.1 h
  exact ⟨rfl, rfl⟩

/-- What a new loop has in common with the loop that it replaces, the lists have in common. -/
theorem map_set_eq {β : Type} (f : Loop → β) {loops : List Loop} {index : Nat} {loop new : Loop}
    (hloop : loops[index]? = some loop) (hsame : f new = f loop) :
    (loops.set index new).map f = loops.map f := by
  obtain ⟨hlt, rfl⟩ := List.getElem?_eq_some_iff.1 hloop
  rw [List.map_set, hsame, ← List.getElem_map f (h := by simpa using hlt), List.set_getElem_self]

/-- A split appends the inner loop and leaves the modes of the others. -/
theorem map_isPrim_splitAt {loops result : List Loop} {index : Nat} {target : Int} {mode : Mode}
    (h : splitAt loops index target mode = .ok result) :
    result.map Loop.isPrim = loops.map Loop.isPrim ++ [decide (mode = .prim)] := by
  obtain ⟨loop, pair, hget, hpair, rfl⟩ := splitAt_eq_ok h
  obtain ⟨houter, hinner⟩ := mode_of_split hpair
  rw [List.map_append, List.map_singleton,
    map_set_eq Loop.isPrim hget (show pair.outer.isPrim = loop.isPrim by rw [Loop.isPrim, houter]; rfl),
    Loop.isPrim, hinner]

theorem extends_installSlot {axis : Axis} {required : Bool} {candidate : Option Found}
    {target : Int} {loops result : List Loop}
    (h : installSlot axis required candidate target loops = .ok result) : Extends loops result := by
  cases slotFill_of_installSlot h with
  | split hfound htarget hsplit => exact ⟨[true], map_isPrim_splitAt hsplit, by simp⟩
  | idle => exact .snoc (placeholder axis) (List.map_append ..) rfl
  | empty => exact .of_map_eq rfl

theorem extends_installSlots {chosen : Candidates} {targets : Slots Int} {loops result : List Loop}
    (h : installSlots chosen targets loops = .ok result) : Extends loops result := by
  obtain ⟨_, _, _, _, h₁, h₂, h₃, h₄, h₅⟩ := installSlots_eq_ok h
  exact (extends_installSlot h₁).trans ((extends_installSlot h₂).trans ((extends_installSlot h₃).trans
    ((extends_installSlot h₄).trans (extends_installSlot h₅))))

/-- Further packed loops are not kernel loops. -/
theorem forall_installExtra {candidate : Option Found} {target : Int} {loops result : List Loop}
    (hloops : ∀ loop ∈ loops, loop.isPrim = false)
    (h : installExtra candidate target loops = .ok result) :
    ∀ loop ∈ result, loop.isPrim = false := by
  rcases installExtra_cases h with ⟨found, -, hsplit⟩ | ⟨-, rfl⟩
  · intro loop hloop
    have hmem := List.mem_map_of_mem (f := Loop.isPrim) hloop
    rw [map_isPrim_splitAt hsplit, List.mem_append] at hmem
    rcases hmem with hmem | hmem
    · obtain ⟨l, hl, heq⟩ := List.mem_map.1 hmem
      rw [← heq, hloops l hl]
    · exact List.mem_singleton.1 hmem
  · exact hloops

/-- There are no kernel loops in the normal form of a list without kernel loops. -/
theorem forall_normal_isPrim {loops : List Loop} (h : ∀ loop ∈ loops, loop.isPrim = false) :
    ∀ loop ∈ sortAndFuse (dropUnits loops), loop.isPrim = false :=
  forall_sortAndFuse (fun _ _ _ houter _ => houter) fun loop hloop =>
    h loop (List.mem_of_mem_filter hloop)

theorem isPrim_repack (loop : Loop) (side : Side) (stride : Int) :
    (loop.repack side stride).isPrim = loop.isPrim := by
  cases side <;> rfl

/-- Packing keeps whatever of a loop does not depend on its strides. -/
theorem map_packInputs {β : Type} (f : Loop → β)
    (hf : ∀ loop side stride, f (Loop.repack loop side stride) = f loop) (settings : Settings)
    (kernel : KernelTag) (chosen : Candidates) (loops : List Loop) :
    (packInputs settings kernel chosen loops).map f = loops.map f := by
  have hassign : ∀ (side : Side) order running (packed : List Loop),
      packed.map f = loops.map f →
      (assignBufferStrides side order running packed).map f = loops.map f := by
    intro side order running packed hpacked
    refine assignBufferStrides_induction (P := fun packed => packed.map f = loops.map f)
      (fun packed index loop stride hloop h => ?_) order running hpacked
    rw [map_set_eq f hloop (hf loop side stride), h]
  have hpack : ∀ (side : Side) (chosen : Bool) order (packed : List Loop),
      packed.map f = loops.map f →
      (if chosen then assignBufferStrides side order 1 packed else packed).map f = loops.map f := by
    intro side chosen order packed hpacked
    split
    · exact hassign _ _ _ _ hpacked
    · exact hpacked
  exact hpack _ _ _ _ (hpack _ _ _ _ rfl)

namespace KernelStages.Lead

variable {s : KernelStages} {settings : Settings} {kernel : KernelTag} {loops : List Loop}
  {kerneled : Kerneled}

/-- Further packed loops are not kernel loops. -/
theorem forall_withExtra (h : s.Lead settings kernel loops kerneled)
    (hloops : ∀ loop ∈ loops, loop.isPrim = false) : ∀ loop ∈ s.withExtra, loop.isPrim = false := by
  have hrest : ∀ loop ∈ s.rest, loop.isPrim = false := by
    intro loop hloop
    exact hloops loop ((takeComplex_perm h.takes).mem_iff.2 (List.mem_append_right _ hloop))
  exact forall_installExtra (forall_installExtra hrest h.right) h.left

end KernelStages.Lead

/-- Kernel loops are installed at the end of the list. -/
theorem installKernel_kernelLast {settings : Settings} {kernel : KernelTag} {loops : List Loop}
    {kerneled : Kerneled} (hloops : ∀ loop ∈ loops, loop.isPrim = false)
    (h : installKernel settings kernel loops = .ok kerneled) : KernelLast kerneled.loops := by
  obtain ⟨s, hs⟩ := installKernel_eq_ok h
  have hbase : Extends s.withExtra s.base := by
    unfold KernelStages.base
    cases s.complex with
    | none => exact .of_map_eq (by simp)
    | some loop => exact .snoc { loop with mode := .prim } (List.map_append ..) rfl
  rw [hs.loops]
  refine Extends.kernelLast (.trans hbase ((extends_installSlots hs.slots).trans
    (.of_map_eq (map_packInputs Loop.isPrim isPrim_repack _ _ _ _)))) (hs.forall_withExtra hloops)

/-! ## Blocking -/

/-- A loop outside the kernel with iterations along which no input is packed. -/
def Loop.IsFree (loop : Loop) : Prop := loop.IsPlain ∧ loop.isPrim = false

/-- Loops that blocking moves stay free. -/
theorem MoveStep.free {axis : Axis} {mode : Mode} {state next : Moved} (hmode : mode ≠ .prim)
    (h : MoveStep axis mode state next) (hfree : ∀ loop ∈ state.rest ++ state.moved, loop.IsFree) :
    ∀ loop ∈ next.rest ++ next.moved, loop.IsFree := by
  rw [List.forall_mem_append] at hfree
  obtain ⟨hrest, hmoved⟩ := hfree
  have hothers : ∀ index, ∀ loop ∈ state.rest.eraseIdx index, loop.IsFree := fun index loop hl =>
    hrest loop (List.mem_of_mem_eraseIdx hl)
  -- a split gives the mode to the inner part; the outer part keeps its own
  have hparts : ∀ {loop : Loop} {target : Int} {pair : LoopPair}, loop.IsFree →
      loop.split target mode = .ok pair → pair.outer.IsFree ∧ pair.inner.IsFree := by
    intro loop target pair hloop hpair
    obtain ⟨houter, hinner⟩ := (isSplit_of_split hloop.1 hpair).isPlain
    obtain ⟨houterMode, hinnerMode⟩ := mode_of_split hpair
    refine ⟨⟨houter, ?_⟩, hinner, decide_eq_false (hinnerMode ▸ hmode)⟩
    rw [Loop.isPrim, houterMode]
    exact hloop.2
  cases h with
  | @whole index loop hget haxis =>
      have hloop := hrest loop (List.mem_of_getElem? hget)
      rw [List.forall_mem_append, List.forall_mem_cons]
      exact ⟨hothers index, ⟨isPlain_retag mode hloop.1, decide_eq_false hmode⟩, hmoved⟩
  | @split index loop target pair hget haxis hpair =>
      obtain ⟨houter, hinner⟩ := hparts (hrest loop (List.mem_of_getElem? hget)) hpair
      rw [List.forall_mem_append, List.forall_mem_cons]
      refine ⟨fun l hl => ?_, hinner, hmoved⟩
      rcases List.mem_or_eq_of_mem_set hl with hmem | rfl
      · exact hrest l hmem
      · exact houter
  | @drop index loop target pair hget haxis hpair hone =>
      obtain ⟨-, hinner⟩ := hparts (hrest loop (List.mem_of_getElem? hget)) hpair
      rw [List.forall_mem_append, List.forall_mem_cons]
      exact ⟨hothers index, hinner, hmoved⟩

theorem moveInner_free {axis : Axis} {mode : Mode} {count : Nat} {target : Int}
    {state result : Moved} (hmode : mode ≠ .prim)
    (hfree : ∀ loop ∈ state.rest ++ state.moved, loop.IsFree)
    (h : moveInner axis mode count target state = .ok result) :
    ∀ loop ∈ result.rest ++ result.moved, loop.IsFree :=
  moveInner_induction (motive := fun current => ∀ loop ∈ current.rest ++ current.moved, loop.IsFree)
    (fun hmove => hmove.free hmode) hfree h

theorem takeInner_free {axis : Axis} {mode : Mode} {target : Int} {loops : List Loop}
    {result : Moved} (hmode : mode ≠ .prim) (hfree : ∀ loop ∈ loops, loop.IsFree)
    (h : takeInner axis mode target loops = .ok result) :
    (∀ loop ∈ result.rest, loop.IsFree) ∧ ∀ loop ∈ result.moved, loop.IsFree := by
  rw [← List.forall_mem_append]
  exact moveInner_free hmode (by simpa using hfree) h

/-- Blocking puts free loops in front of the kernel loops and the packed loops. -/
theorem block_eq_ok {settings : Settings} {element : ElementType} {loops : List Loop}
    {blocked : Blocked} (hsound : ∀ loop ∈ loops, loop.IsSound)
    (h : block settings element loops = .ok blocked) :
    ∃ front, blocked.loops = front ++ loops.filter Loop.staysWithKernel ∧
      ∀ loop ∈ front, loop.IsFree := by
  obtain ⟨n, m, k, c, hsteps⟩ := exists_blocking h
  obtain ⟨_, hn⟩ := hsteps.takesN
  obtain ⟨_, hm⟩ := hsteps.takesM
  obtain ⟨_, hk⟩ := hsteps.takesK
  obtain ⟨_, hc⟩ := hsteps.takesC
  -- loops are moved as parallel or sequential ones, never as kernel loops
  have hparallel : (if settings.curves then Mode.sfc else .omp) ≠ .prim := by
    split <;> simp
  have hfree : ∀ loop ∈ loops.filter fun loop => !loop.staysWithKernel, loop.IsFree := by
    intro loop hloop
    obtain ⟨hmem, hq⟩ := List.mem_filter.1 hloop
    have hstays : loop.staysWithKernel = false := by simpa using hq
    refine ⟨⟨(hsound loop hmem).1, isUnpacked_of_not_staysWithKernel (hsound loop hmem) hstays⟩, ?_⟩
    rw [Loop.staysWithKernel, Bool.or_eq_false_iff, Bool.or_eq_false_iff] at hstays
    exact hstays.1.1
  obtain ⟨hn, hn'⟩ := takeInner_free hparallel hfree hn
  obtain ⟨hm, hm'⟩ := takeInner_free hparallel hn hm
  obtain ⟨hk, hk'⟩ := takeInner_free (by simp) hm hk
  obtain ⟨hc, hc'⟩ := takeInner_free (by simp) hk hc
  refine ⟨_, hsteps.loops, ?_⟩
  simp only [List.forall_mem_append]
  refine ⟨⟨⟨⟨fun loop hloop => ?_, hk'⟩, hc'⟩, hn'⟩, hm'⟩
  exact hc loop ((sortBy_perm _ c.rest).mem_iff.1 hloop)

/-- The stages of a plan, without the counts of threads. -/
theorem plan_eq_ok {settings : Settings} {kernel : KernelTag} {element : ElementType}
    {loops : List Loop} {nest : Nest} (hunpacked : ∀ loop ∈ loops, loop.IsUnpacked)
    (h : Nest.plan settings kernel element loops = .ok nest) :
    ∃ kerneled front,
      installKernel settings kernel (sortAndFuse (dropUnits loops)) = .ok kerneled ∧
      Plain (sortAndFuse (dropUnits loops)) ∧ nest.kernel = kerneled.kernel ∧
      nest.loops = front ++ (dropUnits kerneled.loops).filter Loop.staysWithKernel ∧
      (∀ loop ∈ front, loop.IsFree) ∧ ∀ loop ∈ kerneled.loops, loop.IsSound := by
  obtain ⟨kerneled, blocked, hstages⟩ := exists_planStages h
  have hplain : Plain loops := fun loop hloop =>
    ⟨hstages.sizes loop hloop, hunpacked loop hloop⟩
  have hnormal := (sortAndFuse_reshapes (hplain.filter _ : Plain (dropUnits loops))).2
  have hsound := (installKernel_reshapes hnormal hstages.install).forall_of_stable stable_isSound
    fun loop hloop => isSound_of_isPlain (hnormal loop hloop)
  obtain ⟨front, hfront, hfree⟩ := block_eq_ok
    (fun loop hloop => hsound loop (List.mem_of_mem_filter hloop)) hstages.block
  exact ⟨kerneled, front, hstages.install, hnormal, hstages.kernel, hstages.loops.trans hfront, hfree,
    hsound⟩

/-- Kernel loops stand last in a planned nest. -/
theorem plan_kernelLast {settings : Settings} {kernel : KernelTag} {element : ElementType}
    {loops : List Loop} {nest : Nest} (hunpacked : ∀ loop ∈ loops, loop.IsUnpacked)
    (hprim : ∀ loop ∈ loops, loop.isPrim = false)
    (h : Nest.plan settings kernel element loops = .ok nest) : KernelLast nest.loops := by
  obtain ⟨kerneled, front, hkernel, -, -, hloops, hfree, -⟩ := plan_eq_ok hunpacked h
  rw [hloops]
  exact .append (fun loop hloop => (hfree loop hloop).2)
    (((installKernel_kernelLast (forall_normal_isPrim hprim) hkernel).filter _).filter _)

end LoopNest
