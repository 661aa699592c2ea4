import LoopNest.Proofs.Packing.Region
import LoopNest.Proofs.Planning.NormalForm
import LoopNest.Proofs.Planning.PackedStrides

/-!
# Packed regions of planned nests

Planning packs an input along all the loops that it appends, and along no other loop. What stands
with the kernel in a planned nest is appended or packed, so along every packed input such a loop
is packed or does not move (`KernelStages.Lead.mayEnclose`). The loops in front of it are free. A
packed region can therefore always be cut out of a planned nest (`plan_exists_region`).
-/

namespace LoopNest

/-- Whether an input is to be packed. -/
def Candidates.packs (chosen : Candidates) : Side → Bool
  | .left => chosen.packLeft
  | .right => chosen.packRight

section Inputs

variable {settings : Settings} {kernel : KernelTag} {chosen : Candidates} {loops : List Loop}
  {index : Nat}

/-- A loop at a distance outside the packing order is left as it is. -/
theorem getElem?_packInputs_of_not_mem
    (hnot : loops.length - index ∉ packingOrder settings kernel chosen) :
    (packInputs settings kernel chosen loops)[index]? = loops[index]? := by
  have hleft : (packLeftInput settings kernel chosen loops)[index]? = loops[index]? := by
    unfold packLeftInput
    split
    · exact getElem?_assign_of_not_mem hnot
    · rfl
  have hlength : (packLeftInput settings kernel chosen loops).length = loops.length := by
    rw [← List.length_map (f := Loop.size), map_packLeftInput _ _ _ _ _ fun _ _ => rfl,
      List.length_map]
  rw [packInputs_eq]
  split
  · rw [getElem?_assign_of_not_mem (by rw [hlength]; exact hnot), hleft]
  · exact hleft

/-- Along an input that is packed, the loops of the packing order are packed or do not move. -/
theorem settled_of_packInputs {side : Side} (hpack : chosen.packs side = true)
    (hmem : loops.length - index ∈ packingOrder settings kernel chosen) {loop : Loop}
    (hloop : (packInputs settings kernel chosen loops)[index]? = some loop) :
    loop.Settled side := by
  have hlength : (packLeftInput settings kernel chosen loops).length = loops.length := by
    rw [← List.length_map (f := Loop.size), map_packLeftInput _ _ _ _ _ fun _ _ => rfl,
      List.length_map]
  cases side with
  | right =>
      rw [packInputs_eq, if_pos (show chosen.packRight = true from hpack)] at hloop
      exact settled_of_assign (fun l _ => .inl (by rw [hlength]; exact hmem)) hloop
  | left =>
      -- the right input is packed after the left one and leaves it as it is
      have hsame := map_packInputs_right settings kernel chosen loops
        (fun loop => (loop.sourceLeft, loop.strides.left)) fun _ _ => rfl
      have hindex := congrArg (fun values => values[index]?) hsame
      simp only [List.getElem?_map, hloop, Option.map_some] at hindex
      obtain ⟨l, hl, heq⟩ := Option.map_eq_some_iff.1 hindex.symm
      rw [packLeftInput, if_pos (show chosen.packLeft = true from hpack)] at hl
      have hsettled := settled_of_assign (fun _ _ => .inl hmem) hl
      obtain ⟨hsource, hstride⟩ := Prod.mk.inj heq
      unfold Loop.Settled Loop.isPacked at *
      simp only [Loop.source, Loop.stride, hsource, hstride] at hsettled ⊢
      exact hsettled

/-- An input that is not to be packed is not packed. -/
theorem source_of_packInputs {side : Side} (hpack : chosen.packs side = false) :
    (packInputs settings kernel chosen loops).map (fun loop => loop.source side) =
      loops.map fun loop => loop.source side := by
  cases side with
  | left =>
      rw [map_packInputs_right _ _ _ _ _ fun _ _ => rfl, packLeftInput,
        show chosen.packLeft = false from hpack, if_neg (by simp)]
  | right =>
      rw [packInputs_eq, show chosen.packRight = false from hpack, if_neg (by simp)]
      exact map_packLeftInput _ _ _ _ _ fun _ _ => rfl

end Inputs

namespace KernelStages

variable {s : KernelStages} {settings : Settings} {loops : List Loop} {kerneled : Kerneled}
  {front : List Loop} {appended : Appended}

namespace Appends

/-- The loops in front are those that were there before, up to their sizes and strides. -/
theorem mode_front (h : s.Appends front appended) {mode : Mode}
    (hrest : ∀ loop ∈ s.rest, loop.mode = mode) : ∀ loop ∈ front, loop.mode = mode := by
  intro loop hloop
  have hkind := List.mem_map_of_mem (f := Loop.kind) hloop
  rw [h.front] at hkind
  obtain ⟨l, hl, heq⟩ := List.mem_map.1 hkind
  rw [← hrest l hl]
  exact (Prod.mk.inj heq).2.symm

/-- The kernel loops are the appended loops of the slots. -/
theorem kernelLoops_eq (h : s.Appends front appended) (hrest : ∀ loop ∈ s.rest, loop.mode = .seq) :
    kernelLoops s.installed =
      appended.br ++ appended.lane ++ [appended.m, appended.n, appended.k] := by
  -- everything in front of the slots was sequential and stays so
  have hfront : kernelLoops (front ++ appended.extra) = [] := by
    apply List.filter_eq_nil_iff.2
    intro loop hloop
    have hmode : loop.mode = .seq := by
      rcases List.mem_append.1 hloop with hloop | hloop
      · exact h.mode_front hrest loop hloop
      · exact h.extra loop hloop
    rw [Loop.isPrim, hmode]
    simp
  have hslots : kernelLoops (appended.br ++ appended.lane ++ [appended.m, appended.n, appended.k]) =
      appended.br ++ appended.lane ++ [appended.m, appended.n, appended.k] := by
    apply List.filter_eq_self.2
    intro loop hloop
    exact decide_eq_true (h.prims loop hloop)
  rw [h.installed, Appended.loops, Appended.outer,
    show front ++ (appended.extra ++ (appended.br ++ appended.lane) ++
        [appended.m, appended.n, appended.k]) =
      (front ++ appended.extra) ++
        (appended.br ++ appended.lane ++ [appended.m, appended.n, appended.k]) by simp]
  show List.filter _ _ = _
  rw [List.filter_append]
  show kernelLoops _ ++ kernelLoops _ = _
  rw [hfront, hslots, List.nil_append]

/-- No installed loop is parallel. -/
theorem isParallel_eq_false (h : s.Appends front appended)
    (hrest : ∀ loop ∈ s.rest, loop.mode = .seq) :
    ∀ loop ∈ s.installed, loop.isParallel = false := by
  intro loop hloop
  have hmode : loop.mode = .seq ∨ loop.mode = .prim := by
    rw [h.installed, Appended.loops, Appended.outer, List.append_assoc, List.mem_append,
      List.mem_append] at hloop
    rcases hloop with hloop | hloop | hloop
    · exact .inl (h.mode_front hrest loop hloop)
    · exact .inl (h.extra loop hloop)
    · exact .inr (h.prims loop (by simpa using hloop))
  rcases hmode with hmode | hmode
  · rw [Loop.isParallel, hmode]
    rfl
  · rw [Loop.isParallel, hmode]
    rfl

end Appends

namespace Lead

/-- If the kernel loops are as many as the kernel takes, the packing order covers the appended loops
and no others. -/
theorem mem_packingOrder (h : s.Lead settings .madd loops kerneled) (happends : s.Appends front appended)
    (hrest : ∀ loop ∈ s.rest, loop.mode = .seq)
    (hcount : (kernelLoops kerneled.loops).length = kerneled.kernel.primCount.getD 0) {index : Nat}
    (hindex : index < s.installed.length) :
    s.installed.length - index ∈ packingOrder settings kerneled.kernel s.chosen ↔
      front.length ≤ index := by
  have hkernel : (kernelLoops kerneled.loops).length = (kernelLoops s.installed).length := by
    have hmodes := map_packInputs Loop.isPrim isPrim_repack settings kerneled.kernel s.chosen s.installed
    rw [← h.loops] at hmodes
    have hlength : ∀ list : List Loop,
        (kernelLoops list).length = ((list.map Loop.isPrim).filter id).length := by
      intro list
      rw [List.filter_map, List.length_map]
      rfl
    rw [hlength, hlength, hmodes]
  rw [hkernel, happends.kernelLoops_eq hrest] at hcount
  -- the kernel takes as many loops as were appended for it
  have hprims : kerneled.kernel.primCount =
      some (appended.br ++ appended.lane ++ [appended.m, appended.n, appended.k]).length := by
    cases hprims : kerneled.kernel.primCount with
    | none =>
        rw [hprims] at hcount
        simp at hcount
    | some count =>
        rw [hprims] at hcount
        rw [hcount]
        rfl
  have hlength := congrArg List.length happends.installed
  rw [packingOrder, mem_bufferOrder hprims, ← happends.length]
  simp only [Appended.loops, Appended.outer, List.length_append, List.length_cons,
    List.length_nil] at hlength ⊢
  omega

/-- Along an input that is packed, what stays with the kernel may stand inside a packed region. -/
theorem mayEnclose (h : s.Lead settings .madd loops kerneled) (happends : s.Appends front appended)
    (hrest : ∀ loop ∈ s.rest, loop.mode = .seq) (hplain : Plain s.installed)
    (hforward : ∀ loop ∈ kerneled.loops, ∀ side, 0 ≤ loop.bufferStride side)
    (hcount : (kernelLoops kerneled.loops).length = kerneled.kernel.primCount.getD 0) {side : Side}
    (hpack : s.chosen.packs side = true) {loop : Loop} (hloop : loop ∈ kerneled.loops)
    (hstays : loop.staysWithKernel = true) : PackedRegion.MayEnclose side loop := by
  obtain ⟨index, hindex⟩ := List.getElem?_of_mem hloop
  have hkinds := map_packInputs Loop.kind kind_repack settings kerneled.kernel s.chosen s.installed
  rw [← h.loops] at hkinds
  have hlt : index < s.installed.length := by
    have hlength := congrArg List.length hkinds
    rw [List.length_map, List.length_map] at hlength
    have := (List.getElem?_eq_some_iff.1 hindex).1
    omega
  have hparallel : loop.isParallel = false := by
    have hmem := List.mem_map_of_mem (f := Loop.kind) hloop
    rw [hkinds] at hmem
    obtain ⟨l, hl, heq⟩ := List.mem_map.1 hmem
    have hseq := happends.isParallel_eq_false hrest l hl
    rw [Loop.isParallel, (Prod.mk.inj heq).2] at hseq
    exact hseq
  refine ⟨hparallel, ?_⟩
  have horder := h.mem_packingOrder happends hrest hcount hlt
  rw [h.loops] at hindex
  by_cases hfront : front.length ≤ index
  · rcases settled_of_packInputs hpack (horder.2 hfront) hindex with hpacked | hstride
    · exact .inl hpacked
    · by_cases hpacked : loop.isPacked side = true
      · exact .inl hpacked
      · right
        have hnonneg := hforward loop hloop side
        rw [Loop.bufferStride, if_neg hpacked] at hnonneg
        omega
  · -- a loop in front is as it was, so that it does not stay with the kernel
    exfalso
    rw [getElem?_packInputs_of_not_mem (fun hmem => hfront (horder.1 hmem)), happends.installed,
      List.getElem?_append_left (by omega)] at hindex
    have hmem := List.mem_of_getElem? hindex
    have hmode := happends.mode_front hrest loop hmem
    obtain ⟨-, hleft, hright⟩ := hplain loop (by
      rw [happends.installed]
      exact List.mem_append_left _ hmem)
    rw [Loop.staysWithKernel, Loop.isPrim, hmode, hleft, hright] at hstays
    simp at hstays

end Lead

end KernelStages

/-- Loops of the normal form of a sequential list are sequential. -/
theorem mode_normal {loops : List Loop} (h : ∀ loop ∈ loops, loop.mode = .seq) :
    ∀ loop ∈ sortAndFuse (dropUnits loops), loop.mode = .seq :=
  forall_sortAndFuse (fun _ _ _ houter _ => houter) fun loop hloop =>
    h loop (List.mem_of_mem_filter hloop)

/-- No loop of a planned product moves backwards through a buffer of the caller. -/
theorem bufferStride_nonneg {settings : Settings} {loops : List Loop} {kerneled : Kerneled}
    (hplain : Plain loops) (hmultiplies : ∀ loop ∈ loops, loop.axis.Multiplies loop.strides)
    (hkernel : installKernel settings .madd loops = .ok kerneled) :
    ∀ loop ∈ kerneled.loops, ∀ side, 0 ≤ loop.bufferStride side := by
  have hstrides : ∀ loop ∈ kerneled.loops, loop.axis.Multiplies loop.callerStrides := by
    apply (installKernel_reshapes hplain hkernel).forall_of_stable strideRule_multiplies.stable
    intro loop hloop
    rw [Loop.callerStrides_of_isUnpacked (hplain loop hloop).2]
    exact hmultiplies loop hloop
  intro loop hloop side
  cases side with
  | left => exact (hstrides loop hloop).left
  | right => exact (hstrides loop hloop).right

/-- An input that is not to be packed is not packed along any installed loop. -/
theorem KernelStages.Lead.isPacked_eq_false {s : KernelStages} {settings : Settings}
    {kernel : KernelTag} {loops : List Loop} {kerneled : Kerneled}
    (h : s.Lead settings kernel loops kerneled) (hplain : Plain s.installed) {side : Side}
    (hpack : s.chosen.packs side = false) :
    ∀ loop ∈ kerneled.loops, loop.isPacked side = false := by
  intro loop hloop
  have hmem := List.mem_map_of_mem (f := fun loop => loop.source side) hloop
  rw [h.loops, source_of_packInputs hpack] at hmem
  obtain ⟨l, hl, hsource⟩ := List.mem_map.1 hmem
  have hnone : l.isPacked side = false := (hplain l hl).2.isPacked_eq_false side
  rw [Loop.isPacked] at hnone ⊢
  rwa [← hsource]

/-- Both inputs of a plan for a separated product have a packed region or need none, if the kernel
loops fit the kernel. -/
theorem plan_exists_region {settings : Settings} {element : ElementType} {loops : List Loop}
    {nest : Nest} (hloops : IsSeparated loops) (hlanes : TakesLanesWhole settings loops)
    (hplan : Nest.plan settings .madd element loops = .ok nest)
    (hcheck : KernelShape.checkAxes nest.kernel (KernelShape.trailing nest.loops) = .ok ())
    (side : Side) : ∃ region, PackedRegion.ofLoops side nest.loops = .ok region := by
  obtain ⟨kerneled, front, hkernel, hplain, htag, hnest, hfree, -⟩ :=
    plan_eq_ok hloops.unpacked hplan
  obtain ⟨s, hs⟩ := installKernel_eq_ok hkernel
  obtain ⟨hreal, hnormal⟩ := takeComplex_madd hs.takes
  have hspread : Spread s.rest := hnormal ▸ hloops.spread_normal (plan_sizes hplan)
  have hwhole := hlanes s.chosen (hnormal ▸ hs.chooses)
  obtain ⟨outer, appended, happends⟩ := hs.appends hreal
    (candidates_aligned hspread.size hspread.multiplies hwhole hs.chooses)
  have hinstalled := (hs.reshapes hplain).2
  have hunpacked : ∀ loop ∈ front, loop.isPacked side = false ∧ loop.isPrim = false :=
    fun loop hloop => ⟨(hfree loop hloop).1.2.isPacked_eq_false side, (hfree loop hloop).2⟩
  cases hpack : s.chosen.packs side with
  | false =>
      refine ⟨none, PackedRegion.ofLoops_of_unpacked fun loop hloop => ?_⟩
      rw [hnest, List.mem_append] at hloop
      rcases hloop with hloop | hloop
      · exact (hunpacked loop hloop).1
      · apply hs.isPacked_eq_false hinstalled hpack
        exact List.mem_of_mem_filter (List.mem_of_mem_filter hloop)
  | true =>
      have hrest : ∀ loop ∈ s.rest, loop.mode = .seq := hnormal ▸ mode_normal hloops.sequential
      have hforward := bufferStride_nonneg hplain (forall_normal Axis.Multiplies hloops.multiplies)
        hkernel
      -- the check counts the kernel loops that were installed
      have hcount : (kernelLoops kerneled.loops).length = kerneled.kernel.primCount.getD 0 := by
        have htrailing := KernelShape.trailing_eq
          (plan_kernelLast hloops.unpacked hloops.isPrim_eq_false hplan)
        rw [hnest, kernelLoops_append_stays hfree] at htrailing
        rw [hnest, htrailing, htag] at hcheck
        rw [← (KernelShape.checkAxes_eq_ok hcheck).1, List.length_reverse]
      rw [hnest]
      apply PackedRegion.exists_ofLoops hunpacked
      intro loop hloop
      obtain ⟨hmem, hstays⟩ := List.mem_filter.1 hloop
      exact hs.mayEnclose happends hrest hinstalled hforward hcount hpack
        (List.mem_of_mem_filter hmem) hstays

end LoopNest
