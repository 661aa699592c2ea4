import LoopNest.Proofs.Planning.Passes

/-!
# Planned products

A loop list describes a product if every axis moves through the operands it belongs to only
(`Axis.Multiplies`). Planning keeps such rules on strides (`plan_forall`), because it cuts and joins
loops along whole multiples of their strides. It also keeps the planes: the main kernel of a planned
nest has a complex loop exactly if a complex product was asked for (`plan_hasComplexLoop`).
-/

namespace LoopNest

/-! ## Rules on strides -/

/-- A rule on the strides of an axis that holds of loops that do not move and of multiples. -/
structure StrideRule (rule : Axis → Operands Int → Prop) : Prop where
  zero : ∀ axis, rule axis 0
  scale : ∀ {axis : Axis} {x : Operands Int} {n : Int}, 0 ≤ n → rule axis x → rule axis (x.scale n)

theorem StrideRule.stable {rule : Axis → Operands Int → Prop} (h : StrideRule rule) :
    Stable fun loop => rule loop.axis loop.callerStrides where
  placeholder axis := by
    rw [callerStrides_placeholder]
    exact h.zero _
  split hs hloop := by
    have hinner := hs.inner_pos
    rw [Loop.callerStrides_of_isUnpacked hs.unpacked] at hloop
    rw [Loop.callerStrides_of_isUnpacked hs.outer_unpacked,
      Loop.callerStrides_of_isUnpacked hs.inner_unpacked, hs.outer_axis, hs.inner_axis,
      hs.outer_strides, hs.inner_strides]
    exact ⟨h.scale (by omega) hloop, hloop⟩
  join hs _ hinner := by
    rw [Loop.callerStrides_of_isUnpacked hs.inner_unpacked, hs.inner_axis, hs.inner_strides] at hinner
    rwa [Loop.callerStrides_of_isUnpacked hs.unpacked]
  retag _ _ hloop := hloop
  repack stride hsource hstride hloop := by
    rwa [axis_repack, callerStrides_repack stride hsource hstride]

/-- A rule that holds of the strides of a loop list holds of those of a planned nest, through the
buffers of the caller. -/
theorem plan_forall {rule : Axis → Operands Int → Prop} (hrule : StrideRule rule)
    {settings : Settings} {kernel : KernelTag} {element : ElementType} {loops : List Loop}
    {nest : Nest} (hunpacked : ∀ loop ∈ loops, loop.IsUnpacked)
    (hloops : ∀ loop ∈ loops, rule loop.axis loop.strides)
    (h : Nest.plan settings kernel element loops = .ok nest) :
    ∀ loop ∈ nest.loops, rule loop.axis loop.callerStrides := by
  refine (plan_reshapes hunpacked h).forall_of_stable hrule.stable fun loop hloop => ?_
  rw [Loop.callerStrides_of_isUnpacked (hunpacked loop hloop)]
  exact hloops loop hloop

/-- The strides of an axis of a product: none is negative, M does not move through the right input,
N not through the left one, and the reduction not through the output. -/
structure Axis.Multiplies (axis : Axis) (x : Operands Int) : Prop where
  left : 0 ≤ x.left
  right : 0 ≤ x.right
  outAux : 0 ≤ x.outAux
  out : 0 ≤ x.out
  m : axis = .m → x.right = 0
  n : axis = .n → x.left = 0
  k : axis = .k → x.out = 0 ∧ x.outAux = 0

instance (axis : Axis) (x : Operands Int) : Decidable (axis.Multiplies x) :=
  decidable_of_iff (((0 ≤ x.left ∧ 0 ≤ x.right) ∧ 0 ≤ x.outAux ∧ 0 ≤ x.out) ∧
      (axis = .m → x.right = 0) ∧ (axis = .n → x.left = 0) ∧
        (axis = .k → x.out = 0 ∧ x.outAux = 0))
    ⟨fun ⟨⟨⟨hl, hr⟩, ha, ho⟩, hm, hn, hk⟩ => ⟨hl, hr, ha, ho, hm, hn, hk⟩,
      fun h => ⟨⟨⟨h.left, h.right⟩, h.outAux, h.out⟩, h.m, h.n, h.k⟩⟩

theorem strideRule_multiplies : StrideRule Axis.Multiplies where
  zero axis := ⟨Int.le_refl 0, Int.le_refl 0, Int.le_refl 0, Int.le_refl 0, fun _ => rfl,
    fun _ => rfl, fun _ => ⟨rfl, rfl⟩⟩
  scale hn h :=
    ⟨Int.mul_nonneg h.left hn, Int.mul_nonneg h.right hn, Int.mul_nonneg h.outAux hn,
      Int.mul_nonneg h.out hn,
      fun haxis => by rw [Operands.scale_right, h.m haxis, zero_mul],
      fun haxis => by rw [Operands.scale_left, h.n haxis, zero_mul],
      fun haxis => by
        rw [Operands.scale_out, Operands.scale_outAux, (h.k haxis).1, (h.k haxis).2, zero_mul]
        exact ⟨rfl, rfl⟩⟩

/-! ## The main kernel -/

/-- Loops without iterations are refused. -/
theorem plan_sizes {settings : Settings} {kernel : KernelTag} {element : ElementType}
    {loops : List Loop} {nest : Nest} (h : Nest.plan settings kernel element loops = .ok nest) :
    ∀ loop ∈ loops, 1 ≤ loop.size := by
  obtain ⟨_, _, hstages⟩ := exists_planStages h
  exact hstages.sizes

/-- The loops of a planned nest have iterations, and no source stride is negative. -/
theorem plan_isSound {settings : Settings} {kernel : KernelTag} {element : ElementType}
    {loops : List Loop} {nest : Nest} (hunpacked : ∀ loop ∈ loops, loop.IsUnpacked)
    (h : Nest.plan settings kernel element loops = .ok nest) :
    ∀ loop ∈ nest.loops, loop.IsSound :=
  (plan_reshapes hunpacked h).forall_of_stable stable_isSound fun loop hloop =>
    isSound_of_isPlain ⟨plan_sizes h loop hloop, hunpacked loop hloop⟩

/-- Plans are made for the two plain main kernels only. -/
theorem plan_kernel {settings : Settings} {kernel : KernelTag} {element : ElementType}
    {loops : List Loop} {nest : Nest} (h : Nest.plan settings kernel element loops = .ok nest) :
    kernel = .madd ∨ kernel = .cpxMadd := by
  obtain ⟨_, _, hstages⟩ := exists_planStages h
  obtain ⟨s, hs⟩ := installKernel_eq_ok hstages.install
  exact hs.tag

theorem isSome_of_takeComplex {kernel : KernelTag} {loops rest : List Loop} {complex : Option Loop}
    (h : takeComplex kernel loops = .ok (complex, rest)) :
    complex.isSome = decide (kernel = .cpxMadd) := by
  rcases takeComplex_cases h with ⟨found, -, hkernel, rfl, -⟩ | ⟨hkernel, rfl, -⟩
  · exact (decide_eq_true hkernel).symm
  · exact (decide_eq_false hkernel).symm

/-- What is taken out of the list is a complex loop. -/
theorem axis_of_takeComplex {kernel : KernelTag} {loops rest : List Loop} {complex : Loop}
    (h : takeComplex kernel loops = .ok (some complex, rest)) : complex.axis = .cpx := by
  rcases takeComplex_cases h with ⟨found, hfound, -, hcomplex, -⟩ | ⟨-, hcomplex, -⟩
  · obtain rfl := Option.some.inj hcomplex
    exact (lightest_spec hfound).2
  · cases hcomplex

/-- The main kernel of a planned nest has a complex loop for a complex product only. -/
theorem plan_hasComplexLoop {settings : Settings} {kernel : KernelTag} {element : ElementType}
    {loops : List Loop} {nest : Nest} (h : Nest.plan settings kernel element loops = .ok nest) :
    nest.kernel.hasComplexLoop = decide (kernel = .cpxMadd) := by
  -- filling the slots may change the tag, but not whether it is complex
  obtain ⟨_, _, hstages⟩ := exists_planStages h
  obtain ⟨s, hs⟩ := installKernel_eq_ok hstages.install
  have hsome := isSome_of_takeComplex hs.takes
  rw [hstages.kernel, hs.kernel, refineKernel, hsome]
  rcases hs.tag with rfl | rfl
  · simp only [reduceCtorEq, decide_false, Bool.false_eq_true, if_false]
    split
    · rfl
    · split
      · rfl
      · rfl
  · rw [decide_eq_true rfl, if_pos rfl]
    split
    · rfl
    · rfl

end LoopNest
