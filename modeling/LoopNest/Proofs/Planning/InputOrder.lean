import LoopNest.Proofs.Planning.IterationSpace
import LoopNest.Proofs.Planning.Outcome
import LoopNest.Proofs.Planning.Product

/-!
# Loops in any order

The loops of a contraction are given in any order. Planning sorts them by axis, then from the
largest to the smallest output stride, then from the largest to the smallest right stride. Only
loops that agree in all three are left in the order in which they were given.

If no two of the loops that are sorted agree in all three (`KeysApart`), the sorted list depends on
the loops alone. Whatever planning searches, splits and moves, it does so after sorting; plans do
not depend on the order of the loops either (`plan_iff_of_perm`).
-/

namespace LoopNest

/-- No two loops agree in axis, output stride and right stride. -/
def KeysApart (loops : List Loop) : Prop :=
  loops.Pairwise fun a b => ¬(a.axis = b.axis ∧ a.strides.out = b.strides.out ∧
    a.strides.right = b.strides.right)

instance (loops : List Loop) : Decidable (KeysApart loops) :=
  inferInstanceAs (Decidable (loops.Pairwise _))

/-- Loops that are apart have one normal form in any order. -/
theorem sortAndFuse_eq_of_perm {loops loops' : List Loop} (hperm : loops.Perm loops')
    (hapart : KeysApart loops) : sortAndFuse loops = sortAndFuse loops' := by
  rw [sortAndFuse, sortAndFuse, sortBy_eq_of_perm isOrder_precedes hperm]
  intro a ha b hb hab hba
  by_contra hne
  have hsymm : Std.Symm fun a b : Loop => ¬(a.axis = b.axis ∧ a.strides.out = b.strides.out ∧
      a.strides.right = b.strides.right) := ⟨fun a b h => by simpa only [eq_comm] using h⟩
  exact hapart.forall ha hb hne (precedes_ties hab hba)

/-- Two loops that move through the left input only agree in all three, and are fused in one order
but not in the other. -/
example :
    sortAndFuse [⟨.i, .seq, 2, ⟨4, 0, 0, 0⟩, 0, 0⟩, ⟨.i, .seq, 4, ⟨1, 0, 0, 0⟩, 0, 0⟩] ≠
      sortAndFuse [⟨.i, .seq, 4, ⟨1, 0, 0, 0⟩, 0, 0⟩, ⟨.i, .seq, 2, ⟨4, 0, 0, 0⟩, 0, 0⟩] := by
  decide

/-- Loops with iterations, in any order, have the same plan or are refused for the same reason. -/
theorem plan_eq_of_perm (settings : Settings) (kernel : KernelTag) (element : ElementType)
    {loops loops' : List Loop} (hperm : loops.Perm loops') (hsized : Sized loops)
    (hapart : KeysApart (dropUnits loops)) :
    Nest.plan settings kernel element loops = Nest.plan settings kernel element loops' := by
  have hkept : (dropUnits loops).Perm (dropUnits loops') := hperm.filter _
  have hnormal := sortAndFuse_eq_of_perm hkept hapart
  unfold Nest.plan
  rw [checkSizes_of_sized hsized, checkSizes_of_sized (hsized.of_perm hperm), hnormal]

/-- Plans do not depend on the order of the loops: two orders of the same loops have a plan both or
neither, and it is the same plan, with the same loops, kernel and threads. -/
theorem plan_iff_of_perm {settings : Settings} {kernel : KernelTag} {element : ElementType}
    {loops loops' : List Loop} (hperm : loops.Perm loops') (hapart : KeysApart (dropUnits loops))
    (nest : Nest) :
    Nest.plan settings kernel element loops = .ok nest ↔
      Nest.plan settings kernel element loops' = .ok nest := by
  constructor
  · intro hplan
    rwa [← plan_eq_of_perm settings kernel element hperm (plan_sizes hplan) hapart]
  · intro hplan
    have hsized : Sized loops := Sized.of_perm hperm.symm (plan_sizes hplan)
    rwa [plan_eq_of_perm settings kernel element hperm hsized hapart]

/-- The plan for `transposedProduct` is that for the same loops from the last to the first. -/
theorem plan_iff_of_perm_transposedProduct :
    KeysApart (dropUnits transposedProduct) ∧
      Nest.plan Settings.single .madd .fp32 transposedProduct.reverse = .ok transposedNest := by
  have hapart : KeysApart (dropUnits transposedProduct) := by decide
  have hperm := transposedProduct.reverse_perm.symm
  exact ⟨hapart, (plan_iff_of_perm hperm hapart transposedNest).1 plan_transposedProduct⟩

end LoopNest
