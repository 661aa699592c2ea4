import LoopNest.Proofs.Planning.Passes

/-!
# Planning keeps the iteration space

For every axis, the loops of a planned nest reach the same offsets as the loops it was planned from,
each as often (`plan_offsets_perm`). Offsets are taken through the buffers of the caller, so along
a packed loop the source stride counts. It follows that the number of iterations of an axis is the
same.

The statement is an induction over the changes that planning makes; `plan_reshapes` says that there
are no others.
-/

namespace LoopNest

/-- The loops of some axes reach the same offsets before and after planning. -/
theorem plan_offsets_filter {settings : Settings} {kernel : KernelTag} {element : ElementType}
    {loops : List Loop} {nest : Nest} (hunpacked : ∀ loop ∈ loops, loop.IsUnpacked)
    (h : Nest.plan settings kernel element loops = .ok nest) (p : Axis → Bool) :
    (offsets Loop.callerStrides (nest.loops.filter fun loop => p loop.axis)).Perm
      (offsets Loop.strides (loops.filter fun loop => p loop.axis)) := by
  have hstrides : offsets Loop.strides (loops.filter fun loop => p loop.axis) =
      offsets Loop.callerStrides (loops.filter fun loop => p loop.axis) :=
    offsets_congr fun loop hloop =>
      (Loop.callerStrides_of_isUnpacked (hunpacked loop (List.mem_of_mem_filter hloop))).symm
  rw [hstrides]
  exact (plan_reshapes hunpacked h).offsets_filter p fun _ => AddMonoidHom.id (Operands Int)

/-- The offsets of the loops of an axis, in all four streams at once, are the same multiset before
and after planning, and so is the number of iterations. -/
theorem plan_offsets_perm {settings : Settings} {kernel : KernelTag} {element : ElementType}
    {loops : List Loop} {nest : Nest}
    (hunpacked : ∀ loop ∈ loops, loop.sourceLeft = 0 ∧ loop.sourceRight = 0)
    (hplan : Nest.plan settings kernel element loops = .ok nest) (axis : Axis) :
    (offsets Loop.callerStrides (ofAxis nest.loops axis)).Perm
        (offsets Loop.strides (ofAxis loops axis)) ∧
      sizeOfAxis nest.loops axis = sizeOfAxis loops axis := by
  refine ⟨?_, (plan_reshapes hunpacked hplan).sizeOfAxis_eq axis⟩
  exact plan_offsets_filter hunpacked hplan fun a => decide (a = axis)

/-! ## Plans for one thread -/

/-- A single thread is given to the flat index, whatever the balance of the axes is. -/
theorem splitThreads_one (sizeM sizeN : Int) :
    splitThreads 1 sizeM sizeN = .ok ⟨1, 1, 1⟩ := by
  have hbalance : ∃ score, balance sizeM sizeN 1 1 = .ok score := by
    unfold balance fullestShare
    rw [quotient_eq_ok one_ne_zero, quotient_eq_ok one_ne_zero]
    exact ⟨_, rfl⟩
  obtain ⟨score, hscore⟩ := hbalance
  have hbest : ∃ b, improveBalance 1 sizeM sizeN (1, 0.0) 1 = .ok (1, b) := by
    unfold improveBalance
    rw [Nat.cast_one, quotient_eq_ok one_ne_zero]
    by_cases h : (0.0 : Float) < score
    · exact ⟨score, by simp [bind, Except.bind, pure, Except.pure, hscore, h]⟩
    · exact ⟨0.0, by simp [bind, Except.bind, pure, Except.pure, hscore, h]⟩
  obtain ⟨b, hb⟩ := hbest
  have hdivisors : divisors 1 = [1] := by decide +kernel
  simp [splitThreads, hdivisors, hb, quotient, bind, Except.bind, pure, Except.pure]

/-- The loops and the kernel of a plan, before threads are shared out. -/
def Nest.stages (settings : Settings) (kernel : KernelTag) (element : ElementType)
    (loops : List Loop) : Except Error (Blocked × KernelTag) := do
  settings.validate
  checkSizes 0 loops
  let kerneled ← installKernel settings kernel (sortAndFuse (dropUnits loops))
  let blocked ← block settings element (dropUnits kerneled.loops)
  return (blocked, kerneled.kernel)

/-- The plan for a single thread. -/
theorem plan_eq_ok_of_stages {settings : Settings} {kernel main : KernelTag}
    {element : ElementType} {loops : List Loop} {blocked : Blocked}
    (hthreads : settings.resolvedThreads = 1)
    (h : Nest.stages settings kernel element loops = .ok (blocked, main)) :
    Nest.plan settings kernel element loops = .ok ⟨blocked.loops, main, ⟨1, 1, 1⟩⟩ := by
  obtain ⟨⟨⟩, hsettings, h⟩ := bind_eq_ok.1 h
  obtain ⟨⟨⟩, hsizes, h⟩ := bind_eq_ok.1 h
  obtain ⟨kerneled, hkernel, h⟩ := bind_eq_ok.1 h
  obtain ⟨blocked', hblock, h⟩ := bind_eq_ok.1 h
  obtain ⟨rfl, rfl⟩ := Prod.mk.inj (pure_eq_ok.1 h)
  unfold Nest.plan
  rw [hsettings, hsizes, hkernel]
  simp only [bind, Except.bind, hblock, hthreads, splitThreads_one, pure, Except.pure]

/-- Settings for one thread without further packed loops. -/
def Settings.single : Settings := { threads := 1, extraPacking := 1 }

/-- A product of a transposed matrix whose reduction is given as two loops that do not continue
each other. -/
def transposedProduct : List Loop :=
  [⟨.k, .seq, 2, ⟨8, 1, 0, 0⟩, 0, 0⟩, ⟨.m, .seq, 4, ⟨2, 0, 0, 1⟩, 0, 0⟩,
    ⟨.k, .seq, 2, ⟨1, 12, 0, 0⟩, 0, 0⟩, ⟨.n, .seq, 3, ⟨0, 4, 0, 4⟩, 0, 0⟩]

/-- The nest planned for `transposedProduct`: the left input is packed along M and both K loops. -/
def transposedNest : Nest :=
  ⟨[⟨.k, .seq, 2, ⟨8, 12, 0, 0⟩, 1, 0⟩, ⟨.m, .prim, 4, ⟨1, 0, 0, 1⟩, 2, 0⟩,
    ⟨.n, .prim, 3, ⟨0, 4, 0, 4⟩, 0, 0⟩, ⟨.k, .prim, 2, ⟨4, 1, 0, 0⟩, 8, 0⟩], .madd, ⟨1, 1, 1⟩⟩

theorem plan_transposedProduct :
    Nest.plan Settings.single .madd .fp32 transposedProduct = .ok transposedNest :=
  plan_eq_ok_of_stages (by decide)
    (show Nest.stages Settings.single .madd .fp32 transposedProduct =
      .ok (⟨transposedNest.loops, 1, 1⟩, .madd) by decide +kernel)

/-- The K loops of `transposedNest`, packed as they are, reach the offsets of the given ones. -/
theorem plan_offsets_perm_transposedProduct :
    (∀ loop ∈ transposedProduct, loop.sourceLeft = 0 ∧ loop.sourceRight = 0) ∧
      Nest.plan Settings.single .madd .fp32 transposedProduct = .ok transposedNest ∧
      (offsets Loop.callerStrides (ofAxis transposedNest.loops .k)).Perm
        (offsets Loop.strides (ofAxis transposedProduct .k)) ∧
      sizeOfAxis transposedNest.loops .k = sizeOfAxis transposedProduct .k := by
  have hunpacked : ∀ loop ∈ transposedProduct, loop.sourceLeft = 0 ∧ loop.sourceRight = 0 := by
    decide
  exact ⟨hunpacked, plan_transposedProduct,
    plan_offsets_perm hunpacked plan_transposedProduct .k⟩

end LoopNest
