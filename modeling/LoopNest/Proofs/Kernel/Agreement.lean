import LoopNest.Proofs.Kernel.Accesses

/-!
# Kernels on packed blocks

A kernel finds in a packed block what the kernel for unpacked buffers finds in the buffers of the
caller. The two kernels have the same nest, one with the strides of the packing buffers and one with
the strides of the caller's buffers; if the two views of each input agree on the index tuples of the
kernel loops, the kernels make the same updates (`KernelNest.Fills.updates_eq`).
-/

namespace LoopNest

variable {α : Type}

namespace KernelNest

variable {nest : KernelNest} {kernel : List Loop} (base : KernelShape)
  {view view' : Side → Int → α}

/-- A kernel on packed blocks makes the updates of the same kernel on the caller's buffers. -/
theorem Fills.updates_eq [Scalar α] (h : nest.Fills kernel) (hsizes : ∀ loop ∈ nest.loops, 1 ≤ loop.size)
    {method : MainMethod} (hmethod : method = .complex → nest.plane.size = 2)
    (hview : ∀ side, ∀ x ∈ offsets (Loop.sideStrides side) kernel,
      view side x.2 = view' side x.1) :
    MainKernel.updates ⟨method, nest.shape base Loop.strides⟩ (view .left) (view .right) =
      MainKernel.updates ⟨method, nest.shape base Loop.callerStrides⟩ (view' .left)
        (view' .right) := by
  have hsame : (nest.shape base Loop.strides).SameBlocks (nest.shape base Loop.callerStrides) :=
    ⟨rfl, rfl, rfl, rfl, rfl, rfl, rfl⟩
  -- parts of the kernel are read from planes that are there
  have hplane : ∀ part ∈ method.parts, part.plane ∈ upTo nest.plane.size := by
    have hfirst : (0 : Int) ∈ upTo nest.plane.size :=
      mem_upTo.2 ⟨Int.le_refl 0, hsizes nest.plane List.mem_cons_self⟩
    intro part hpart
    cases part with
    | whole => exact hfirst
    | real => exact hfirst
    | imaginary =>
        have hcomplex : method = .complex := by
          cases method <;> simp [MainMethod.parts] at hpart ⊢
        rw [hmethod hcomplex]
        decide
  apply MainKernel.updates_eq hsame
  intro side part hpart p hp s hs
  exact hview side _ (h.address_mem_offsets base hsizes side hp hs (hplane part hpart))

end KernelNest

end LoopNest
