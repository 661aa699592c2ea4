import LoopNest.Kernel.Shape
import LoopNest.Proofs.Kernel.Nest
import LoopNest.Proofs.Planning.Choices
import LoopNest.Proofs.Planning.IterationSpace
import LoopNest.Proofs.Planning.Placement
import LoopNest.Proofs.Planning.Product

/-!
# The kernel loops of a planned nest

The main kernel of a nest is chosen from the target sizes, while its loops are installed slot by slot
from candidates, targets and slots that may not stay empty. `plan_kernelRun` says when the two
decisions agree: if kernels do not reduce over batches, or if they do, the product is real, and a
further packed loop may have more than one iteration, then the kernel loops of a planned nest are
the loops that its main kernel consumes (`KernelTag.axes`).

Without these conditions the two decisions come apart. A batch slot that has to be filled and gets
no iterations leaves a fourth kernel loop to a kernel of three (`plan_kernelRun_short`).
-/

namespace LoopNest

/-- The axes of the loops that a main kernel consumes, outermost first. -/
def KernelTag.axes : KernelTag → List Axis
  | .madd => [.m, .n, .k]
  | .brMadd => [.k, .m, .n, .k]
  | .packedMadd => [.c, .m, .n, .k]
  | .cpxMadd => [.cpx, .m, .n, .k]
  | .cpxPackedMadd => [.cpx, .c, .m, .n, .k]
  | _ => []

theorem KernelTag.primCount_eq {kernel : KernelTag} (h : kernel.axes ≠ []) :
    kernel.primCount = some kernel.axes.length := by
  cases kernel <;> first | rfl | exact absurd rfl h

/-- The chosen kernel consumes a complex loop, a batch loop and packed lanes where there are any. A
kernel with a batch loop has neither of the others. -/
theorem axes_refineKernel {kernel : KernelTag} (hkernel : kernel = .madd ∨ kernel = .cpxMadd)
    {targets : Slots Int}
    (hone : kernel = .cpxMadd ∨ 1 < targets.c → targets.br ≤ 1) :
    (refineKernel kernel (decide (kernel = .cpxMadd)) targets).axes =
      (if kernel = .cpxMadd then [.cpx] else []) ++ ((if 1 < targets.br then [.k] else []) ++
        ((if 1 < targets.c then [.c] else []) ++ [.m, .n, .k])) := by
  unfold refineKernel
  by_cases hc : 1 < targets.c
  · have hbr : ¬1 < targets.br := Int.not_lt.2 (hone (.inr hc))
    rcases hkernel with rfl | rfl
    · simp [hc, hbr, KernelTag.axes]
    · simp [hc, hbr, KernelTag.axes]
  · rcases hkernel with rfl | rfl
    · by_cases hbr : 1 < targets.br
      · simp [hc, hbr, KernelTag.axes]
      · simp [hc, hbr, KernelTag.axes]
    · have hbr : ¬1 < targets.br := Int.not_lt.2 (hone (.inl rfl))
      simp [hc, hbr, KernelTag.axes]

/-! ## Axes and modes of installed loops -/

/-- What planning keeps of a loop that stays in its place. -/
def Loop.kind (loop : Loop) : Axis × Mode := (loop.axis, loop.mode)

theorem kind_repack (loop : Loop) (side : Side) (stride : Int) :
    (loop.repack side stride).kind = loop.kind := by
  cases side <;> rfl

theorem kind_of_split {loop : Loop} {target : Int} {mode : Mode} {pair : LoopPair}
    (h : loop.split target mode = .ok pair) :
    pair.outer.kind = loop.kind ∧ pair.inner.kind = (loop.axis, mode) := by
  obtain ⟨size, -, h⟩ := bind_eq_ok.1 h
  obtain rfl := pure_eq_ok.1 h
  exact ⟨rfl, rfl⟩

/-- A list that begins with loops of the same axes as another list. -/
def Grown (rest loops : List Loop) : Prop := rest.map Loop.axis <+: loops.map Loop.axis

namespace Grown

variable {rest loops result : List Loop}

theorem refl (rest : List Loop) : Grown rest rest := List.prefix_refl _

theorem of_kinds (h : Grown rest loops) {run : List (Axis × Mode)}
    (hkinds : result.map Loop.kind = loops.map Loop.kind ++ run) : Grown rest result := by
  have haxes := congrArg (List.map Prod.fst) hkinds
  rw [List.map_append, List.map_map, List.map_map] at haxes
  apply List.IsPrefix.trans h
  exact ⟨run.map Prod.fst, haxes.symm⟩

/-- A loop that was found before still has its axis. -/
theorem axis_eq (h : Grown rest loops) {found : Found} (hin : found.In rest) {loop : Loop}
    (hloop : loops[found.index]? = some loop) : loop.axis = found.loop.axis := by
  obtain ⟨run, hrun⟩ := h
  have hleft : (rest.map Loop.axis)[found.index]? = some found.loop.axis := by
    rw [List.getElem?_map, hin]
    rfl
  have hright : (loops.map Loop.axis)[found.index]? = (rest.map Loop.axis)[found.index]? := by
    rw [← hrun, List.getElem?_append_left (List.getElem?_eq_some_iff.1 hleft).1]
  rw [List.getElem?_map, hloop, hleft] at hright
  exact Option.some.inj hright

end Grown

theorem map_kind_splitAt {loops result : List Loop} {index : Nat} {target : Int} {mode : Mode}
    (h : splitAt loops index target mode = .ok result) :
    ∃ loop, loops[index]? = some loop ∧
      result.map Loop.kind = loops.map Loop.kind ++ [(loop.axis, mode)] := by
  obtain ⟨loop, pair, hloop, hpair, rfl⟩ := splitAt_eq_ok h
  obtain ⟨houter, hinner⟩ := kind_of_split hpair
  refine ⟨loop, hloop, ?_⟩
  rw [List.map_append, List.map_singleton, map_set_eq Loop.kind hloop houter, hinner]

theorem map_kind_installExtra {candidate : Option Found} {target : Int} {loops result : List Loop}
    (h : installExtra candidate target loops = .ok result) :
    ∃ run, result.map Loop.kind = loops.map Loop.kind ++ run := by
  rcases installExtra_cases h with ⟨found, -, hsplit⟩ | ⟨-, rfl⟩
  · obtain ⟨loop, -, hkinds⟩ := map_kind_splitAt hsplit
    exact ⟨_, hkinds⟩
  · exact ⟨[], (List.append_nil _).symm⟩

/-- The axes of the loops that a slot contributes to the kernel: one if it has to be filled or is
given more than one iteration, and none otherwise. -/
def slotAxes (axis : Axis) (required : Bool) (candidate : Option Found) (target : Int) : List Axis :=
  if required || candidate.isSome && 1 < target then [axis] else []

/-- Kernel loops of given axes. -/
def primKinds (axes : List Axis) : List (Axis × Mode) := axes.map fun axis => (axis, .prim)

theorem map_kind_installSlot {rest loops result : List Loop} (hgrown : Grown rest loops) {axis : Axis}
    {required : Bool} {candidate : Option Found} (hfound : FoundFor rest axis candidate) {target : Int}
    (h : installSlot axis required candidate target loops = .ok result) :
    result.map Loop.kind =
      loops.map Loop.kind ++ primKinds (slotAxes axis required candidate target) := by
  cases slotFill_of_installSlot h with
  | @split found _ hcandidate htarget hsplit =>
      obtain ⟨hin, haxis⟩ := hfound found hcandidate
      obtain ⟨loop, hloop, hkinds⟩ := map_kind_splitAt hsplit
      rw [hkinds, hgrown.axis_eq hin hloop, haxis, slotAxes, decide_eq_true htarget, hcandidate]
      simp [primKinds]
  | idle hidle hrequired =>
      rw [slotAxes, hidle, hrequired, List.map_append]
      rfl
  | empty hidle hrequired =>
      rw [slotAxes, hidle, hrequired]
      exact (List.append_nil _).symm

/-- The axes of the loops that all slots contribute, outermost first. -/
def runAxes (chosen : Candidates) (targets : Slots Int) : List Axis :=
  slotAxes .k chosen.batchRequired chosen.slots.br targets.br ++
    (slotAxes .c false chosen.slots.c targets.c ++ [.m, .n, .k])

theorem map_kind_installSlots {rest loops result : List Loop} (hgrown : Grown rest loops)
    {chosen : Candidates} (hsits : chosen.Sits rest) {targets : Slots Int}
    (h : installSlots chosen targets loops = .ok result) :
    result.map Loop.kind = loops.map Loop.kind ++ primKinds (runAxes chosen targets) := by
  obtain ⟨_, _, _, _, h₁, h₂, h₃, h₄, h₅⟩ := installSlots_eq_ok h
  have k₁ := map_kind_installSlot hgrown hsits.br h₁
  have g₁ := hgrown.of_kinds k₁
  have k₂ := map_kind_installSlot g₁ hsits.c h₂
  have g₂ := g₁.of_kinds k₂
  have k₃ := map_kind_installSlot g₂ hsits.m h₃
  have g₃ := g₂.of_kinds k₃
  have k₄ := map_kind_installSlot g₃ hsits.n h₄
  have k₅ := map_kind_installSlot (g₃.of_kinds k₄) hsits.k h₅
  rw [k₅, k₄, k₃, k₂, k₁]
  simp [primKinds, runAxes, slotAxes]

/-! ## Kernel loops of an installed list -/

/-- In a list of loops outside the kernel followed by kernel loops, the axes of the kernel loops are
read off the kinds. -/
theorem map_axis_of_kinds {loops front : List Loop} {axes : List Axis}
    (hkinds : loops.map Loop.kind = front.map Loop.kind ++ primKinds axes)
    (hfront : ∀ loop ∈ front, loop.isPrim = false) :
    (kernelLoops loops).map Loop.axis = axes := by
  have hfilter : ∀ list : List Loop, (kernelLoops list).map Loop.axis =
      ((list.map Loop.kind).filter fun kind => kind.2 = .prim).map Prod.fst := by
    intro list
    rw [List.filter_map, List.map_map]
    rfl
  have hnone : (front.map Loop.kind).filter (fun kind => decide (kind.2 = .prim)) = [] := by
    apply List.filter_eq_nil_iff.2
    intro kind hkind
    obtain ⟨loop, hloop, rfl⟩ := List.mem_map.1 hkind
    intro hprim
    have hmode : decide (loop.mode = .prim) = false := hfront loop hloop
    exact of_decide_eq_false hmode (of_decide_eq_true hprim)
  rw [hfilter, hkinds, List.filter_append, hnone, List.nil_append]
  simp [primKinds, List.filter_map, Function.comp_def]

namespace KernelStages.Lead

variable {s : KernelStages} {settings : Settings} {kernel : KernelTag} {loops : List Loop}
  {kerneled : Kerneled}

/-- The slots are filled behind a list that candidates are still found in. -/
theorem grown_base (h : s.Lead settings kernel loops kerneled) : Grown s.rest s.base := by
  obtain ⟨r₁, k₁⟩ := map_kind_installExtra h.right
  obtain ⟨r₂, k₂⟩ := map_kind_installExtra h.left
  apply ((Grown.refl s.rest).of_kinds k₁ |>.of_kinds k₂).of_kinds
  exact List.map_append

theorem map_kind_base (h : s.Lead settings kernel loops kerneled) : s.base.map Loop.kind =
    s.withExtra.map Loop.kind ++ primKinds (if s.complex.isSome then [.cpx] else []) := by
  have htakes := h.takes
  unfold base
  cases hcomplex : s.complex with
  | none => simp [primKinds]
  | some loop =>
      rw [hcomplex] at htakes
      rw [List.map_append]
      simp [Loop.kind, primKinds, axis_of_takeComplex htakes]

/-- The kernel loops are the complex loop and the loops of the slots. -/
theorem map_axis_kernelLoops (h : s.Lead settings kernel loops kerneled)
    (hloops : ∀ loop ∈ loops, loop.isPrim = false) :
    (kernelLoops kerneled.loops).map Loop.axis =
      (if s.complex.isSome then [.cpx] else []) ++ runAxes s.chosen s.targets.slots := by
  have hslots := map_kind_installSlots h.grown_base (candidates_spec h.chooses).1 h.slots
  apply map_axis_of_kinds _ (h.forall_withExtra hloops)
  rw [h.loops, map_packInputs Loop.kind kind_repack, hslots, h.map_kind_base, List.append_assoc,
    primKinds, primKinds, primKinds, List.map_append]

/-- A batch slot that stays empty has no target. -/
theorem br_le_one_of_unbatched (h : s.Lead settings kernel loops kerneled)
    (hunbatched : s.chosen.Unbatched) : s.targets.slots.br ≤ 1 := by
  have hle := (targetSizes_spec h.aims).2.1 hunbatched.required
  rw [Candidates.sizes, Slots.map, hunbatched.br] at hle
  exact hle

/-- A batch slot with a target has a candidate. -/
theorem isSome_of_one_lt_br (h : s.Lead settings kernel loops kerneled)
    (hbr : 1 < s.targets.slots.br) : s.chosen.slots.br.isSome = true := by
  cases hnone : s.chosen.slots.br with
  | some f => rfl
  | none =>
      -- an empty batch slot need not be filled, so it has no target
      have hrequired : s.chosen.batchRequired = false := by
        rw [← Bool.not_eq_true]
        intro hrequired
        have hsome := (candidates_spec h.chooses).2.required hrequired
        rw [hnone] at hsome
        cases hsome
      have := h.br_le_one_of_unbatched ⟨hnone, hrequired⟩
      omega

/-- Packed lanes are installed if they have a target. -/
theorem slotAxes_lanes (h : s.Lead settings kernel loops kerneled) :
    slotAxes .c false s.chosen.slots.c s.targets.slots.c =
      if 1 < s.targets.slots.c then [.c] else [] := by
  have hlanes := (targetSizes_spec h.aims).1
  rw [slotAxes, Bool.false_or]
  cases hnone : s.chosen.slots.c with
  | some f => simp
  | none =>
      have hone : s.targets.slots.c = 1 := by
        rw [hlanes, Candidates.sizes, Slots.map, hnone]
        rfl
      rw [hone]
      rfl

/-- A batch loop that has to be there has more than one iteration, if further packed loops have. -/
theorem one_lt_br_of_required (h : s.Lead settings kernel loops kerneled)
    (hsize : ∀ loop ∈ loops, 2 ≤ loop.size) (hextra : 2 ≤ settings.extraPacking)
    (hrequired : s.chosen.batchRequired = true) : 1 < s.targets.slots.br := by
  obtain ⟨hsits, hbatches⟩ := candidates_spec h.chooses
  obtain ⟨f, hf⟩ := Option.isSome_iff_exists.1 (hbatches.required hrequired)
  have hmem : f.loop ∈ loops :=
    (takeComplex_perm h.takes).mem_iff.2 (List.mem_append_right _ (hsits.br f hf).1.mem)
  apply (targetSizes_spec h.aims).2.2 hrequired
  · rw [Candidates.sizes, Slots.map, hf]
    exact hsize f.loop hmem
  · exact hextra

/-- The installed slots are those that the chosen kernel consumes. -/
theorem axes_eq (h : s.Lead settings kernel loops kerneled) (hsize : ∀ loop ∈ loops, 2 ≤ loop.size)
    (hbatch : settings.batchReduce = true → kernel = .madd ∧ 2 ≤ settings.extraPacking) :
    (if s.complex.isSome then [.cpx] else []) ++ runAxes s.chosen s.targets.slots =
      kerneled.kernel.axes := by
  have hbatches := (candidates_spec h.chooses).2
  -- the batch slot is installed exactly if it has a target
  have hrequired : s.chosen.batchRequired = true → 1 < s.targets.slots.br := by
    intro hrequired
    cases hreduce : settings.batchReduce with
    | true => exact h.one_lt_br_of_required hsize (hbatch hreduce).2 hrequired
    | false =>
        have hidle := (hbatches.idle (.inl hreduce)).required
        exact absurd (hrequired.symm.trans hidle) (by simp)
  have hslot : slotAxes .k s.chosen.batchRequired s.chosen.slots.br s.targets.slots.br =
      if 1 < s.targets.slots.br then [.k] else [] := by
    rw [slotAxes]
    by_cases hbr : 1 < s.targets.slots.br
    · rw [h.isSome_of_one_lt_br hbr, decide_eq_true hbr]
      simp [hbr]
    · have hidle : s.chosen.batchRequired = false :=
        Bool.eq_false_iff.2 fun hr => hbr (hrequired hr)
      simp [hbr, hidle]
  -- there is no batch loop beside packed lanes or a complex loop
  have hone : kernel = .cpxMadd ∨ 1 < s.targets.slots.c → s.targets.slots.br ≤ 1 := by
    intro hbusy
    apply h.br_le_one_of_unbatched
    apply hbatches.idle
    rcases hbusy with rfl | hc
    · left
      apply Bool.eq_false_iff.2
      intro hreduce
      exact absurd (hbatch hreduce).1 (by simp)
    · right
      by_contra hle
      rw [(targetSizes_spec h.aims).1, if_neg (show ¬1 < s.chosen.sizes.c from hle)] at hc
      exact absurd hc (by decide)
  rw [runAxes, hslot, h.slotAxes_lanes, h.kernel, isSome_of_takeComplex h.takes,
    axes_refineKernel h.tag hone]
  simp only [decide_eq_true_eq]

end KernelStages.Lead

/-! ## Planned nests -/

/-- Loops of a normal form have more than one iteration. -/
theorem two_le_size_of_normal {loops : List Loop} (hsize : ∀ loop ∈ loops, 1 ≤ loop.size)
    (hprim : ∀ loop ∈ loops, loop.isPrim = false) :
    ∀ loop ∈ sortAndFuse (dropUnits loops), 2 ≤ loop.size := by
  apply forall_sortAndFuse
  · intro outer inner _ houter hinner
    exact le_trans houter (le_mul_of_one_le_right (by omega) (by omega))
  · intro loop hloop
    obtain ⟨hmem, hkept⟩ := List.mem_filter.1 hloop
    rw [hprim loop hmem, Bool.or_false, decide_eq_true_eq] at hkept
    have := hsize loop hmem
    omega

/-- Kernel loops stay in front of nothing when other loops are dropped or moved. -/
theorem kernelLoops_stays (loops : List Loop) :
    kernelLoops ((dropUnits loops).filter Loop.staysWithKernel) = kernelLoops loops := by
  rw [kernelLoops, dropUnits, List.filter_filter, List.filter_filter]
  apply List.filter_congr
  intro loop _
  cases hprim : loop.isPrim with
  | true => simp [Loop.staysWithKernel, hprim]
  | false => simp

/-- Behind free loops, the kernel loops are those that stay. -/
theorem kernelLoops_append_stays {front : List Loop} (hfree : ∀ loop ∈ front, loop.IsFree)
    (loops : List Loop) :
    kernelLoops (front ++ (dropUnits loops).filter Loop.staysWithKernel) = kernelLoops loops := by
  have hfront : kernelLoops front = [] := by
    apply List.filter_eq_nil_iff.2
    intro loop hloop
    rw [(hfree loop hloop).2]
    simp
  rw [kernelLoops, List.filter_append]
  show kernelLoops front ++ _ = _
  rw [hfront, List.nil_append]
  exact kernelLoops_stays loops

/-- The kernel loops of a planned nest were installed. -/
theorem plan_kernelLoops {settings : Settings} {kernel : KernelTag} {element : ElementType}
    {loops : List Loop} {nest : Nest} (hunpacked : ∀ loop ∈ loops, loop.IsUnpacked)
    (hplan : Nest.plan settings kernel element loops = .ok nest) :
    ∃ s kerneled, KernelStages.Lead s settings kernel (sortAndFuse (dropUnits loops)) kerneled ∧
      nest.kernel = kerneled.kernel ∧ kernelLoops nest.loops = kernelLoops kerneled.loops := by
  obtain ⟨kerneled, front, hkernel, -, htag, hloops, hfree, -⟩ := plan_eq_ok hunpacked hplan
  obtain ⟨s, hs⟩ := installKernel_eq_ok hkernel
  refine ⟨s, kerneled, hs, htag, ?_⟩
  rw [hloops]
  exact kernelLoops_append_stays hfree kerneled.loops

/-- If kernels do not reduce over batches, or the product is real and further packed loops have more
than one iteration, the kernel loops at the end of a planned nest are those that its main kernel
consumes. -/
theorem plan_kernelRun {settings : Settings} {kernel : KernelTag} {element : ElementType}
    {loops : List Loop} {nest : Nest} (hunpacked : ∀ loop ∈ loops, loop.IsUnpacked)
    (hsequential : ∀ loop ∈ loops, loop.mode = .seq)
    (hbatch : settings.batchReduce = true → kernel = .madd ∧ 2 ≤ settings.extraPacking)
    (hplan : Nest.plan settings kernel element loops = .ok nest) :
    (KernelShape.trailing nest.loops).reverse.map Loop.axis = nest.kernel.axes ∧
      nest.kernel.primCount = some (KernelShape.trailing nest.loops).length := by
  have hprim : ∀ loop ∈ loops, loop.isPrim = false := by
    intro loop hloop
    rw [Loop.isPrim, hsequential loop hloop]
    rfl
  obtain ⟨s, kerneled, hs, htag, hkernelLoops⟩ := plan_kernelLoops hunpacked hplan
  have htrailing := KernelShape.trailing_eq (plan_kernelLast hunpacked hprim hplan)
  have haxes : (kernelLoops nest.loops).map Loop.axis = nest.kernel.axes := by
    rw [hkernelLoops, htag, hs.map_axis_kernelLoops (forall_normal_isPrim hprim)]
    exact hs.axes_eq (two_le_size_of_normal (plan_sizes hplan) hprim) hbatch
  have hne : nest.kernel.axes ≠ [] := by
    rw [← haxes, hkernelLoops, hs.map_axis_kernelLoops (forall_normal_isPrim hprim), runAxes]
    simp
  rw [htrailing, List.reverse_reverse, List.length_reverse, ← List.length_map (f := Loop.axis), haxes]
  exact ⟨rfl, KernelTag.primCount_eq hne⟩

/-- Settings for kernels that reduce over batches, with further packed loops of a given size. -/
def Settings.batched (extra : Int) : Settings :=
  { threads := 1, targetK := 2, batchReduce := true, extraPacking := extra }

/-- The nest planned for `transposedProduct` if further packed loops have two iterations: the outer K
loop has become the batch loop. -/
def batchedNest : Nest :=
  ⟨[⟨.k, .prim, 2, ⟨8, 12, 0, 0⟩, 1, 0⟩, ⟨.m, .prim, 4, ⟨1, 0, 0, 1⟩, 2, 0⟩,
    ⟨.n, .prim, 3, ⟨0, 4, 0, 4⟩, 0, 0⟩, ⟨.k, .prim, 2, ⟨4, 1, 0, 0⟩, 8, 0⟩], .brMadd, ⟨1, 1, 1⟩⟩

/-- The four kernel loops of `batchedNest` are those of its kernel. -/
theorem plan_kernelRun_batchedNest :
    Nest.plan (Settings.batched 2) .madd .fp32 transposedProduct = .ok batchedNest ∧
      (KernelShape.trailing batchedNest.loops).reverse.map Loop.axis = batchedNest.kernel.axes ∧
      batchedNest.kernel.primCount = some (KernelShape.trailing batchedNest.loops).length := by
  have hplan : Nest.plan (Settings.batched 2) .madd .fp32 transposedProduct = .ok batchedNest :=
    plan_eq_ok_of_stages (by decide)
      (show Nest.stages (Settings.batched 2) .madd .fp32 transposedProduct =
        .ok (⟨batchedNest.loops, 1, 1⟩, .brMadd) by decide +kernel)
  have hunpacked : ∀ loop ∈ transposedProduct, loop.sourceLeft = 0 ∧ loop.sourceRight = 0 := by
    decide
  exact ⟨hplan, plan_kernelRun hunpacked (by decide) (fun _ => ⟨rfl, by decide⟩) hplan⟩

/-- If further packed loops have one iteration, the batch slot is filled with a loop that no kernel
consumes: the main kernel of the planned nest has three loops, and four stand at its end. -/
theorem plan_kernelRun_short : ∃ nest,
    Nest.plan (Settings.batched 1) .madd .fp32 transposedProduct = .ok nest ∧
      nest.kernel = .madd ∧
      (KernelShape.trailing nest.loops).reverse.map Loop.axis = [.k, .m, .n, .k] := by
  refine ⟨⟨[⟨.k, .seq, 2, ⟨1, 12, 0, 0⟩, 0, 0⟩, ⟨.k, .prim, 1, 0, 0, 0⟩,
    ⟨.m, .prim, 4, ⟨1, 0, 0, 1⟩, 2, 0⟩, ⟨.n, .prim, 3, ⟨0, 4, 0, 4⟩, 0, 0⟩,
    ⟨.k, .prim, 2, ⟨4, 1, 0, 0⟩, 8, 0⟩], .madd, ⟨1, 1, 1⟩⟩, ?_, rfl, by decide⟩
  exact plan_eq_ok_of_stages (by decide)
    (show Nest.stages (Settings.batched 1) .madd .fp32 transposedProduct =
      .ok (⟨_, 1, 1⟩, .madd) by decide +kernel)

end LoopNest
