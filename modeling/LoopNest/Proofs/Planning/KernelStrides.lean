import LoopNest.Proofs.Planning.Appended
import LoopNest.Proofs.Planning.BufferStrides

/-!
# Strides of planned kernel loops

The kernel loops are appended with the strides of their candidates (`KernelStages.Appends`), and then
the inputs that are to be packed get the strides of their packing buffers. `KernelStages.Cut` holds
the list before and after packing, cut in front of M. Each block of the kernel has a contiguous
direction in it: along an input that is packed because M and N come right behind the lanes in a
packing buffer (`contiguous_left`, `contiguous_right`), along any other input because the candidates
are aligned.

So the installed list ends in loops that have a shape (`KernelStages.Lead.realCore`).
-/

namespace LoopNest

/-- Loops of more than one iteration with the strides of a product. M moves through the left input
and N through the right one, and the auxiliary tensor is addressed like the output or not at all. -/
structure Spread (loops : List Loop) : Prop where
  size : ∀ loop ∈ loops, 2 ≤ loop.size
  multiplies : ∀ loop ∈ loops, loop.axis.Multiplies loop.strides
  m : ∀ loop ∈ loops, loop.axis = .m → 0 < loop.strides.left
  n : ∀ loop ∈ loops, loop.axis = .n → 0 < loop.strides.right
  outAux : ∀ loop ∈ loops, loop.strides.outAux = 0 ∨ loop.strides.outAux = loop.strides.out

/-- The loops of both packing buffers from the innermost position on, as distances from the end. -/
def packingOrder (settings : Settings) (kernel : KernelTag) (chosen : Candidates) : List Nat :=
  bufferOrder kernel
    (if settings.packedSupport = .allStrideOne then LanePosition.innermost else .outermost)
    (chosen.extraLeft.toList ++ chosen.extraRight.toList).length

/-- The list after the left input was packed. -/
def packLeftInput (settings : Settings) (kernel : KernelTag) (chosen : Candidates)
    (loops : List Loop) : List Loop :=
  if chosen.packLeft then assignBufferStrides .left (packingOrder settings kernel chosen) 1 loops
  else loops

/-- The left input is packed first, then the right one. -/
theorem packInputs_eq (settings : Settings) (kernel : KernelTag) (chosen : Candidates)
    (loops : List Loop) : packInputs settings kernel chosen loops =
      if chosen.packRight then
        assignBufferStrides .right (packingOrder settings kernel chosen) 1
          (packLeftInput settings kernel chosen loops)
      else packLeftInput settings kernel chosen loops := rfl

section Passes

variable (settings : Settings) (kernel : KernelTag) (chosen : Candidates) (loops : List Loop)
  {β : Type} (f : Loop → β)

theorem map_packLeftInput (hf : ∀ loop stride, f (Loop.repack loop .left stride) = f loop) :
    (packLeftInput settings kernel chosen loops).map f = loops.map f := by
  unfold packLeftInput
  split
  · exact map_assign f hf
  · rfl

/-- What packing the right input leaves of a loop is known after the left input was packed. -/
theorem map_packInputs_right (hf : ∀ loop stride, f (Loop.repack loop .right stride) = f loop) :
    (packInputs settings kernel chosen loops).map f =
      (packLeftInput settings kernel chosen loops).map f := by
  rw [packInputs_eq]
  split
  · exact map_assign f hf
  · rfl

end Passes

/-- A list that agrees with another one in some respect can be cut in the same places. -/
theorem exists_core {β : Type} (f : Loop → β) {packed front : List Loop} {m n k : Loop}
    (h : packed.map f = (front ++ [m, n, k]).map f) :
    ∃ front' m' n' k', packed = front' ++ [m', n', k'] ∧ front'.map f = front.map f ∧
      f m' = f m ∧ f n' = f n ∧ f k' = f k := by
  rw [List.map_append, List.map_eq_append_iff] at h
  obtain ⟨front', core, rfl, hfront, hcore⟩ := h
  obtain ⟨m', core, rfl, hm, hcore⟩ := List.map_eq_cons_iff.1 hcore
  obtain ⟨n', core, rfl, hn, hcore⟩ := List.map_eq_cons_iff.1 hcore
  obtain ⟨k', core, rfl, hk, hcore⟩ := List.map_eq_cons_iff.1 hcore
  obtain rfl := List.map_eq_nil_iff.1 hcore
  exact ⟨front', m', n', k', rfl, hfront, hm, hn, hk⟩

/-- Lists with the same cut agree in some respect loop by loop. -/
theorem core_congr {β : Type} (f : Loop → β) {front front' : List Loop} {m n k m' n' k' : Loop}
    (h : (front ++ [m, n, k]).map f = (front' ++ [m', n', k']).map f) :
    front.map f = front'.map f ∧ f m = f m' ∧ f n = f n' ∧ f k = f k' := by
  rw [List.map_append, List.map_append] at h
  obtain ⟨hfront, hcore⟩ := List.append_inj' h rfl
  simp only [List.map_cons, List.map_nil, List.cons.injEq, and_true] at hcore
  exact ⟨hfront, hcore⟩

/-- What packing leaves of every loop. -/
def Loop.invariant (loop : Loop) : Int × Bool × Int × Int :=
  (loop.size, loop.isPrim, loop.strides.out, loop.strides.outAux)

theorem invariant_repack (loop : Loop) (side : Side) (stride : Int) :
    (loop.repack side stride).invariant = loop.invariant := by
  cases side <;> rfl

/-- Lanes stay last when inputs are packed. -/
theorem EndsInLanes.of_invariant {kernel : KernelTag} {lanes : Int} {front front' : List Loop}
    (h : EndsInLanes kernel lanes front)
    (hsame : front'.map Loop.invariant = front.map Loop.invariant) :
    EndsInLanes kernel lanes front' := by
  intro hpacked
  obtain ⟨init, lane, rfl, hprim, hsize⟩ := h hpacked
  rw [List.map_append, List.map_eq_append_iff] at hsame
  obtain ⟨init', last, rfl, -, hlast⟩ := hsame
  obtain ⟨lane', rfl, hlane⟩ := List.map_eq_singleton_iff.1 hlast
  obtain ⟨hsize', hprim', -⟩ := by simpa [Loop.invariant] using hlane
  exact ⟨init', lane', rfl, hprim'.trans hprim, hsize'.trans hsize⟩

section Packed

variable {settings : Settings} {kernel : KernelTag} {chosen : Candidates} {front front' : List Loop}
  {m n k m' n' k' : Loop} {lanes : Int}

/-- A packed left input is contiguous in M. -/
theorem contiguous_left (hpack : chosen.packLeft = true) (hlanes : EndsInLanes kernel lanes front)
    (hstride : 0 < m.strides.left)
    (h : packInputs settings kernel chosen (front ++ [m, n, k]) = front' ++ [m', n', k']) :
    Contiguous lanes m'.strides.left := by
  obtain ⟨front₁, m₁, n₁, k₁, hleft, -⟩ := exists_core (fun _ => ())
    (map_packLeftInput settings kernel chosen (front ++ [m, n, k]) _ fun _ _ => rfl)
  have hsame := map_packInputs_right settings kernel chosen (front ++ [m, n, k])
    (fun loop => loop.strides.left) fun _ _ => rfl
  rw [h, hleft] at hsame
  rw [(core_congr _ hsame).2.1]
  rw [packLeftInput, if_pos hpack] at hleft
  exact contiguous_m hleft hlanes hstride

/-- A packed right input is contiguous in N, because M does not move through it. -/
theorem contiguous_right (hpack : chosen.packRight = true) (hlanes : EndsInLanes kernel lanes front)
    (hidle : m.strides.right = 0) (hstride : 0 < n.strides.right)
    (h : packInputs settings kernel chosen (front ++ [m, n, k]) = front' ++ [m', n', k']) :
    Contiguous lanes n'.strides.right := by
  obtain ⟨front₁, m₁, n₁, k₁, hleft, hfront, hm, hn, -⟩ := exists_core
    (fun loop => (loop.invariant, loop.strides.right))
    (map_packLeftInput settings kernel chosen (front ++ [m, n, k]) _ fun _ _ => rfl)
  have hsame := congrArg (List.map Prod.fst) hfront
  rw [List.map_map, List.map_map] at hsame
  have hidle₁ : m₁.strides.right ≤ 0 := le_of_eq ((Prod.mk.inj hm).2.trans hidle)
  have hstride₁ : 0 < n₁.strides.right := lt_of_lt_of_eq hstride (Prod.mk.inj hn).2.symm
  rw [packInputs_eq, if_pos hpack, hleft] at h
  exact contiguous_n h (hlanes.of_invariant hsame) hidle₁ hstride₁

/-- Along an input that is not packed, loops move as before. -/
theorem left_of_unpacked (hpack : chosen.packLeft = false)
    (h : packInputs settings kernel chosen (front ++ [m, n, k]) = front' ++ [m', n', k']) :
    m'.strides.left = m.strides.left := by
  have hsame := map_packInputs_right settings kernel chosen (front ++ [m, n, k])
    (fun loop => loop.strides.left) fun _ _ => rfl
  rw [packLeftInput, hpack, if_neg (by simp), h] at hsame
  exact (core_congr _ hsame).2.1

theorem right_of_unpacked (hpack : chosen.packRight = false)
    (h : packInputs settings kernel chosen (front ++ [m, n, k]) = front' ++ [m', n', k']) :
    n'.strides.right = n.strides.right ∧ k'.strides.right = k.strides.right := by
  have hsame := map_packLeftInput settings kernel chosen (front ++ [m, n, k])
    (fun loop => loop.strides.right) fun _ _ => rfl
  rw [packInputs_eq, hpack, if_neg (by simp)] at h
  rw [h] at hsame
  exact (core_congr _ hsame).2.2

end Packed

/-! ## Installed kernel loops -/

/-- What the chosen real kernel has of packed lanes and complex loops. -/
theorem flags_refineKernel (targets : Slots Int) :
    (refineKernel .madd false targets).hasPackedLanes = decide (1 < targets.c) ∧
      (refineKernel .madd false targets).hasComplexLoop = false := by
  unfold refineKernel
  rw [if_neg (by simp)]
  split
  · rename_i hc
    exact ⟨(decide_eq_true hc).symm, rfl⟩
  · rename_i hc
    rw [decide_eq_false hc]
    split
    · exact ⟨rfl, rfl⟩
    · exact ⟨rfl, rfl⟩

namespace KernelStages.Lead

variable {s : KernelStages} {settings : Settings} {loops : List Loop} {kerneled : Kerneled}

/-- The kernel has packed lanes if a lane loop was chosen. -/
theorem hasPackedLanes_eq (h : s.Lead settings .madd loops kerneled) (hreal : s.complex = none) :
    kerneled.kernel.hasPackedLanes = decide (1 < s.chosen.sizes.c) := by
  rw [h.kernel, hreal, Option.isSome_none, (flags_refineKernel _).1, (targetSizes_spec h.aims).1]
  split
  · rfl
  · rename_i hone
    rw [decide_eq_false hone]
    rfl

end KernelStages.Lead

/-- An installed list before and after the inputs were packed, cut in front of M. -/
structure KernelStages.Cut (s : KernelStages) (settings : Settings) (kernel : KernelTag)
    (front : List Loop) (appended : Appended) (m n k : Loop) (front' : List Loop) : Prop where
  spread : Spread s.rest
  sits : s.chosen.Sits s.rest
  aligned : s.chosen.Aligned
  appends : s.Appends front appended
  ends : EndsInLanes kernel s.chosen.sizes.c (front ++ appended.outer)
  cut : packInputs settings kernel s.chosen
    (front ++ appended.outer ++ [appended.m, appended.n, appended.k]) = front' ++ [m, n, k]
  front : front'.map Loop.invariant = (front ++ appended.outer).map Loop.invariant
  m : m.invariant = appended.m.invariant
  n : n.invariant = appended.n.invariant
  k : k.invariant = appended.k.invariant

namespace KernelStages.Cut

variable {s : KernelStages} {settings : Settings} {kernel : KernelTag} {front front' : List Loop}
  {appended : Appended} {m n k : Loop}

/-- M is idle, or split off its candidate with the strides that packing leaves. -/
theorem m_cases (h : s.Cut settings kernel front appended m n k front') :
    m.size = 1 ∨ ∃ f, s.chosen.slots.m = some f ∧ appended.m.strides = f.loop.strides ∧
      m.strides.out = f.loop.strides.out ∧ m.strides.outAux = f.loop.strides.outAux := by
  obtain ⟨hsize, -, hout, haux⟩ : m.size = appended.m.size ∧ m.isPrim = appended.m.isPrim ∧
      m.strides.out = appended.m.strides.out ∧ m.strides.outAux = appended.m.strides.outAux := by
    simpa [Loop.invariant] using h.m
  rcases h.appends.m with hidle | ⟨f, hf, hstrides⟩
  · exact .inl (hsize.trans hidle.1)
  · refine .inr ⟨f, hf, hstrides, ?_, ?_⟩
    · rw [hout, hstrides]
    · rw [haux, hstrides]

/-- The left block is contiguous in M: as it is, or in the packing buffer. -/
theorem left (h : s.Cut settings kernel front appended m n k front') :
    m.size = 1 ∨ Contiguous s.chosen.sizes.c m.strides.left := by
  rcases h.m_cases with hone | ⟨f, hf, hstrides, -, -⟩
  · exact .inl hone
  · right
    cases hpack : s.chosen.packLeft with
    | true =>
        apply contiguous_left hpack h.ends _ h.cut
        rw [hstrides]
        exact h.spread.m f.loop (h.sits.m f hf).1.mem (h.sits.m f hf).2
    | false =>
        rw [left_of_unpacked hpack h.cut, hstrides]
        exact (h.aligned.m f hf).2 hpack

/-- M does not move through the right input. -/
theorem m_right (h : s.Cut settings kernel front appended m n k front') :
    appended.m.strides.right = 0 := by
  rcases h.appends.m with hidle | ⟨f, hf, hstrides⟩
  · rw [hidle.2]
    rfl
  · rw [hstrides]
    exact (h.spread.multiplies f.loop (h.sits.m f hf).1.mem).m (h.sits.m f hf).2

/-- The right block is contiguous in K or in N as it is, or in N in the packing buffer. -/
theorem right (h : s.Cut settings kernel front appended m n k front') :
    (k.size = 1 ∨ Contiguous s.chosen.sizes.c k.strides.right) ∨
      n.size = 1 ∨ Contiguous s.chosen.sizes.c n.strides.right := by
  have hnsize : n.size = appended.n.size := congrArg Prod.fst h.n
  have hksize : k.size = appended.k.size := congrArg Prod.fst h.k
  have hncases : n.size = 1 ∨ ∃ f, s.chosen.slots.n = some f ∧
      appended.n.strides = f.loop.strides := by
    rcases h.appends.n with hidle | hfound
    · exact .inl (hnsize.trans hidle.1)
    · exact .inr hfound
  -- packed, N is handed the innermost strides; unpacked, a contiguous loop was chosen
  cases hpack : s.chosen.packRight with
  | true =>
      right
      rcases hncases with hone | ⟨f, hf, hstrides⟩
      · exact .inl hone
      · right
        apply contiguous_right hpack h.ends h.m_right _ h.cut
        rw [hstrides]
        exact h.spread.n f.loop (h.sits.n f hf).1.mem (h.sits.n f hf).2
  | false =>
      obtain ⟨hn, hk⟩ := right_of_unpacked hpack h.cut
      rcases h.aligned.right hpack with ⟨f, hf, hc⟩ | hnone | ⟨f, hf, hc, hleft, hright, hbr⟩
      · right
        rcases hncases with hone | ⟨f', hf', hstrides⟩
        · exact .inl hone
        · obtain rfl := Option.some.inj (hf.symm.trans hf')
          right
          rw [hn, hstrides]
          exact hc
      · exact .inl (.inl (hksize.trans (h.appends.kNone hnone)))
      · left
        rcases h.appends.k f hf hleft hright hbr with hidle | ⟨f', hf', hstrides⟩
        · exact .inl (hksize.trans hidle.1)
        · obtain rfl := Option.some.inj hf'
          right
          rw [hk, hstrides]
          exact hc

/-- The kernel loops have contiguous directions where the kernel needs them. -/
theorem fits (h : s.Cut settings kernel front appended m n k front') :
    KernelShape.Fits s.chosen.sizes.c m n k := by
  refine ⟨.inl h.left, h.right, ?_, ?_⟩
  · rcases h.m_cases with hone | ⟨f, hf, -, hout, -⟩
    · exact .inl hone
    · exact .inr (hout.trans (h.aligned.m f hf).1)
  · rcases h.m_cases with hone | ⟨f, hf, -, -, haux⟩
    · exact .inl hone
    · right
      have hlanes : 1 ≤ s.chosen.sizes.c := one_le_size_of_foundFor h.spread.size h.sits.c
      have hout := (h.aligned.m f hf).1
      rcases h.spread.outAux f.loop (h.sits.m f hf).1.mem with hzero | hsame
      · omega
      · omega

end KernelStages.Cut

/-! ## The shape of the kernel loops -/

/-- A list that ends in the loops of a real kernel: M, N and K with contiguous directions, and packed
lanes in front of them if the kernel has any. -/
structure RealCore (kernel : KernelTag) (lanes : Int) (front : List Loop) (m n k : Loop) : Prop where
  real : kernel.hasComplexLoop = false
  single : kernel.hasPackedLanes = false → lanes = 1
  ends : EndsInLanes kernel lanes front
  prims : m.isPrim = true ∧ n.isPrim = true ∧ k.isPrim = true
  fits : KernelShape.Fits lanes m n k

namespace RealCore

variable {kernel : KernelTag} {lanes : Int} {front : List Loop} {m n k : Loop}

theorem trailing_eq (h : RealCore kernel lanes front m n k) :
    (kernelLoops (front ++ [m, n, k])).reverse = k :: n :: m :: (kernelLoops front).reverse := by
  obtain ⟨hm, hn, hk⟩ := h.prims
  simp [kernelLoops, hm, hn, hk]

/-- The lanes of the kernel are those in front of M. -/
theorem lanes_eq (h : RealCore kernel lanes front m n k) :
    (if kernel.hasPackedLanes then ((kernelLoops front).reverse.getD 0 .unit).size else 1) =
      lanes := by
  cases hpacked : kernel.hasPackedLanes with
  | false => exact (h.single hpacked).symm
  | true =>
      obtain ⟨init, lane, rfl, hprim, hsize⟩ := h.ends hpacked
      simp [kernelLoops, hprim, hsize]

/-- Kernel loops with contiguous directions that fit their kernel have a shape. -/
theorem exists_shape (h : RealCore kernel lanes front m n k)
    (hcheck : KernelShape.checkAxes kernel (kernelLoops (front ++ [m, n, k])).reverse = .ok ())
    {loops : List Loop}
    (hloops : KernelShape.trailing loops = (kernelLoops (front ++ [m, n, k])).reverse) :
    ∃ shape, KernelShape.ofLoops kernel loops = .ok shape := by
  rw [h.trailing_eq] at hcheck hloops
  have hfits := h.fits
  rw [← h.lanes_eq] at hfits
  obtain ⟨shape, hshape⟩ := hfits.exists_shape h.real
  refine ⟨shape, ?_⟩
  unfold KernelShape.ofLoops
  rw [hloops]
  exact bind_eq_ok.2 ⟨(), hcheck, hshape⟩

end RealCore

namespace KernelStages.Lead

variable {s : KernelStages} {settings : Settings} {loops : List Loop} {kerneled : Kerneled}

/-- The inputs are packed behind the cut in front of M. -/
theorem exists_cut (h : s.Lead settings .madd loops kerneled) (hreal : s.complex = none)
    (hspread : Spread s.rest) (hwhole : s.chosen.LanesWhole) :
    ∃ front appended m n k front', kerneled.loops = front' ++ [m, n, k] ∧
      s.Cut settings kerneled.kernel front appended m n k front' := by
  have hsits := (candidates_spec h.chooses).1
  have haligned := candidates_aligned hspread.size hspread.multiplies hwhole h.chooses
  obtain ⟨front, appended, happends⟩ := h.appends hreal haligned
  have hloops := h.loops
  rw [happends.installed, Appended.loops, ← List.append_assoc] at hloops
  obtain ⟨front', m, n, k, hcut, hfront, hm, hn, hk⟩ := exists_core Loop.invariant
    (map_packInputs Loop.invariant invariant_repack settings kerneled.kernel s.chosen
      (front ++ appended.outer ++ [appended.m, appended.n, appended.k]))
  refine ⟨front, appended, m, n, k, front', hloops.trans hcut,
    ⟨hspread, hsits, haligned, happends, fun hpacked => ?_, hcut, hfront, hm, hn, hk⟩⟩
  rw [h.hasPackedLanes_eq hreal, decide_eq_true_eq] at hpacked
  obtain ⟨lane, hlane, hsize⟩ := happends.lane hpacked
  refine ⟨front ++ (appended.extra ++ appended.br), lane, ?_, ?_, hsize⟩
  · simp [Appended.outer, hlane]
  · exact decide_eq_true (happends.prims lane (by simp [hlane]))

/-- The installed list ends in kernel loops with contiguous directions. -/
theorem realCore (h : s.Lead settings .madd loops kerneled) (hreal : s.complex = none)
    (hspread : Spread s.rest) (hwhole : s.chosen.LanesWhole) :
    ∃ front m n k, kerneled.loops = front ++ [m, n, k] ∧
      RealCore kerneled.kernel s.chosen.sizes.c front m n k := by
  obtain ⟨front, appended, m, n, k, front', hloops, hcut⟩ := h.exists_cut hreal hspread hwhole
  have hprim : ∀ {loop loop' : Loop}, loop.invariant = loop'.invariant → loop'.mode = .prim →
      loop.isPrim = true := by
    intro loop loop' hsame hmode
    have hsame : loop.isPrim = loop'.isPrim := congrArg (fun x => x.2.1) hsame
    rw [hsame]
    exact decide_eq_true hmode
  refine ⟨front', m, n, k, hloops, ?_, fun hpacked => ?_, hcut.ends.of_invariant hcut.front, ?_,
    hcut.fits⟩
  · rw [h.kernel, hreal]
    exact (flags_refineKernel _).2
  · rw [h.hasPackedLanes_eq hreal, decide_eq_false_iff_not] at hpacked
    have hlanes : 1 ≤ s.chosen.sizes.c := one_le_size_of_foundFor hspread.size hcut.sits.c
    omega
  · exact ⟨hprim hcut.m (hcut.appends.prims appended.m (by simp)),
      hprim hcut.n (hcut.appends.prims appended.n (by simp)),
      hprim hcut.k (hcut.appends.prims appended.k (by simp))⟩

end KernelStages.Lead

end LoopNest
