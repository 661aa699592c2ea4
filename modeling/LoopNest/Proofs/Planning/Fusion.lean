import LoopNest.Guarded
import LoopNest.Planning.Fusion
import LoopNest.Proofs.Checked
import LoopNest.Proofs.Offsets
import LoopNest.Proofs.Ordering

/-!
# The normal form of a loop list

Loops are sorted by axis, then from the largest to the smallest output stride, then from the largest
to the smallest right stride, which is what three stable sorts amount to that end with the axis
(`sortBy_precedes_eq`).

A loop that was fused has the place of its inner loop in this order and continues what its outer
loop continued. Fusing from the outside in therefore never undoes the order, and what a fused loop
could be fused with on its left was refused before. So one pass is enough: the result is in order,
no neighbours can be fused (`isNormal_sortAndFuse`), and the lists that the pass leaves as they are,
its results among them, are the lists of this form (`sortAndFuse_normalizes`).

Fusing can also be said with divisions: the strides of the outer loop are divided by the size of the
inner one. For loops of positive size no divisor is zero, and the quotients are the strides that
fusing takes over from the inner loop (`sortAndFuseChecked_eq_ok`).
-/

namespace LoopNest

/-! ## The order of loops -/

/-- Loops by axis. -/
def byAxis (a b : Loop) : Bool := a.axis.rank ≤ b.axis.rank

/-- Loops from the largest to the smallest output stride. -/
def byOut (a b : Loop) : Bool := b.strides.out ≤ a.strides.out

/-- Loops from the largest to the smallest right stride. -/
def byRight (a b : Loop) : Bool := b.strides.right ≤ a.strides.right

theorem isOrder_byAxis : IsOrder byAxis := .of_key fun loop : Loop => loop.axis.rank

theorem isOrder_byOut : IsOrder byOut :=
  (IsOrder.of_key fun loop : Loop => loop.strides.out).reverse

theorem isOrder_byRight : IsOrder byRight :=
  (IsOrder.of_key fun loop : Loop => loop.strides.right).reverse

theorem precedes_eq : Loop.precedes = lexically byAxis (lexically byOut byRight) := by
  funext a b
  unfold Loop.precedes lexically byAxis byOut byRight
  grind

theorem isOrder_precedes : IsOrder Loop.precedes :=
  precedes_eq ▸ isOrder_byAxis.lexically (isOrder_byOut.lexically isOrder_byRight)

/-- Loops are sorted as by three stable sorts, the last of them by axis. -/
theorem sortBy_precedes_eq (loops : List Loop) :
    sortBy Loop.precedes loops = sortBy byAxis (sortBy byOut (sortBy byRight loops)) := by
  rw [sortBy_sortBy isOrder_byOut isOrder_byRight,
    sortBy_sortBy isOrder_byAxis (isOrder_byOut.lexically isOrder_byRight), precedes_eq]

theorem Axis.rank_injective : Function.Injective Axis.rank := by
  intro a b h
  cases a <;> cases b <;> first | rfl | exact absurd h (by decide)

/-- Two loops have the same place in the order only if they agree in axis, output and right stride.
-/
theorem precedes_ties {a b : Loop} (hab : a.precedes b = true) (hba : b.precedes a = true) :
    a.axis = b.axis ∧ a.strides.out = b.strides.out ∧ a.strides.right = b.strides.right := by
  rw [precedes_eq] at hab hba
  obtain ⟨⟨haxis, haxis'⟩, hab, hba⟩ := IsOrder.ties_lexically hab hba
  obtain ⟨⟨hout, hout'⟩, hright, hright'⟩ := IsOrder.ties_lexically hab hba
  simp only [byAxis, byOut, byRight, decide_eq_true_eq] at haxis haxis' hout hout' hright hright'
  exact ⟨Axis.rank_injective (by omega), by omega, by omega⟩

/-! ## What fusing respects -/

/-- What fusing two loops respects, the normal form respects. -/
theorem forall_fuseFrom {p : Loop → Prop}
    (hp : ∀ outer inner, outer.continues inner = true → p outer → p inner → p (outer.fuse inner))
    {current : Loop} {rest : List Loop} (h : ∀ loop ∈ current :: rest, p loop) :
    ∀ loop ∈ fuseFrom current rest, p loop := by
  induction rest generalizing current with
  | nil => exact h
  | cons next rest ih =>
      rw [List.forall_mem_cons, List.forall_mem_cons] at h
      unfold fuseFrom
      split
      · rename_i hcontinues
        exact ih (List.forall_mem_cons.2 ⟨hp current next hcontinues h.1 h.2.1, h.2.2⟩)
      · exact List.forall_mem_cons.2 ⟨h.1, ih (List.forall_mem_cons.2 h.2)⟩

theorem forall_sortAndFuse {p : Loop → Prop}
    (hp : ∀ outer inner, outer.continues inner = true → p outer → p inner → p (outer.fuse inner))
    {loops : List Loop} (h : ∀ loop ∈ loops, p loop) : ∀ loop ∈ sortAndFuse loops, p loop := by
  have hsorted : ∀ loop ∈ sortBy Loop.precedes loops, p loop := fun loop hloop =>
    h loop ((sortBy_perm Loop.precedes loops).mem_iff.1 hloop)
  unfold sortAndFuse fuseLoops
  split
  · simp
  · rename_i loop rest hcons
    rw [hcons] at hsorted
    exact forall_fuseFrom hp hsorted

/-! ## Normal lists -/

/-- Whether a loop may stand in front of another: the axis comes first or is the same, then the
output stride is larger or the same, then the right stride is at least as large. -/
def Loop.InOrder (a b : Loop) : Prop :=
  a.axis.rank < b.axis.rank ∨ a.axis = b.axis ∧
    (b.strides.out < a.strides.out ∨
      a.strides.out = b.strides.out ∧ b.strides.right ≤ a.strides.right)

/-- A loop goes on, in all four operands, where an inner loop of the same axis ends. -/
structure Loop.IsContiguous (outer inner : Loop) : Prop where
  axis : outer.axis = inner.axis
  left : outer.strides.left = inner.strides.left * inner.size
  right : outer.strides.right = inner.strides.right * inner.size
  outAux : outer.strides.outAux = inner.strides.outAux * inner.size
  out : outer.strides.out = inner.strides.out * inner.size

/-- A list of loops in order without neighbours that could be one loop. -/
structure IsNormal (loops : List Loop) : Prop where
  sorted : loops.Pairwise Loop.InOrder
  apart : loops.IsChain fun outer inner => ¬outer.IsContiguous inner

theorem precedes_iff_inOrder {a b : Loop} : a.precedes b = true ↔ a.InOrder b := by
  have haxis : a.axis.rank = b.axis.rank ↔ a.axis = b.axis := Axis.rank_injective.eq_iff
  unfold Loop.precedes Loop.InOrder
  grind

theorem continues_iff_isContiguous {outer inner : Loop} :
    outer.continues inner = true ↔ outer.IsContiguous inner := by
  rw [Loop.continues, decide_eq_true_iff]
  constructor
  · rintro ⟨haxis, hstrides⟩
    rw [Operands.ext_iff] at hstrides
    obtain ⟨hleft, hright, haux, hout⟩ := hstrides
    exact ⟨haxis, hleft, hright, haux, hout⟩
  · rintro ⟨haxis, hleft, hright, haux, hout⟩
    exact ⟨haxis, Operands.ext hleft hright haux hout⟩

section Fuse

variable {outer inner : Loop} (h : outer.continues inner = true)

include h

/-- A fused loop stands behind what its inner loop stands behind. -/
theorem Loop.precedes_fuse (loop : Loop) :
    loop.precedes (outer.fuse inner) = loop.precedes inner := by
  have haxis : outer.axis = inner.axis := (of_decide_eq_true h).1
  unfold Loop.precedes Loop.fuse
  rw [haxis]

/-- A fused loop stands in front of what its inner loop stands in front of. -/
theorem Loop.fuse_precedes (loop : Loop) :
    (outer.fuse inner).precedes loop = inner.precedes loop := by
  have haxis : outer.axis = inner.axis := (of_decide_eq_true h).1
  unfold Loop.precedes Loop.fuse
  rw [haxis]

/-- What continues a fused loop continues its outer loop. -/
theorem Loop.continues_fuse (loop : Loop) :
    loop.continues (outer.fuse inner) = loop.continues outer := by
  have hstrides : outer.strides = inner.strides.scale inner.size := (of_decide_eq_true h).2
  have hscale : (outer.fuse inner).strides.scale (outer.fuse inner).size =
      outer.strides.scale outer.size := by
    rw [hstrides]
    exact mul_smul outer.size inner.size inner.strides
  unfold Loop.continues
  rw [hscale]
  rfl

end Fuse

/-! ## One pass -/

/-- The first loop after fusing has on its left the neighbours that the first loop had before. -/
theorem exists_head_fuseFrom (current : Loop) (rest : List Loop) :
    ∃ first others, fuseFrom current rest = first :: others ∧
      ∀ loop : Loop, loop.continues first = loop.continues current := by
  induction rest generalizing current with
  | nil => exact ⟨current, [], rfl, fun _ => rfl⟩
  | cons next rest ih =>
      rw [fuseFrom]
      split
      · rename_i hcontinues
        obtain ⟨first, others, heq, hfirst⟩ := ih (current.fuse next)
        refine ⟨first, others, heq, fun loop => ?_⟩
        rw [hfirst, Loop.continues_fuse hcontinues]
      · exact ⟨current, _, rfl, fun _ => rfl⟩

/-- Fusing keeps loops in order. -/
theorem pairwise_fuseFrom {current : Loop} {rest : List Loop}
    (h : (current :: rest).Pairwise fun a b => a.precedes b = true) :
    (fuseFrom current rest).Pairwise fun a b => a.precedes b = true := by
  induction rest generalizing current with
  | nil => exact h
  | cons next rest ih =>
      obtain ⟨hcurrent, hrest⟩ := List.pairwise_cons.1 h
      rw [fuseFrom]
      split
      · rename_i hcontinues
        -- the fused loop takes the place of its inner loop in front of the rest
        apply ih
        obtain ⟨hnext, hrest⟩ := List.pairwise_cons.1 hrest
        refine List.pairwise_cons.2 ⟨fun loop hloop => ?_, hrest⟩
        rw [Loop.fuse_precedes hcontinues]
        exact hnext loop hloop
      · refine List.pairwise_cons.2 ⟨?_, ih hrest⟩
        -- what is fused further in still stands behind `current`
        apply forall_fuseFrom _ hcurrent
        intro outer inner hcontinues _ hinner
        rwa [Loop.precedes_fuse hcontinues]

/-- After fusing no loop continues the one behind it. -/
theorem isChain_fuseFrom (current : Loop) (rest : List Loop) :
    (fuseFrom current rest).IsChain fun outer inner => ¬outer.continues inner = true := by
  induction rest generalizing current with
  | nil => exact .singleton current
  | cons next rest ih =>
      rw [fuseFrom]
      split
      · exact ih _
      · rename_i hcontinues
        -- what stands behind now is continued by the same loops as what stood there before
        obtain ⟨first, others, heq, hfirst⟩ := exists_head_fuseFrom next rest
        have hchain := ih next
        rw [heq] at hchain ⊢
        refine List.isChain_cons_cons.2 ⟨?_, hchain⟩
        rwa [hfirst]

/-- Where no loop continues the one behind it, nothing is fused. -/
theorem fuseLoops_eq_self {loops : List Loop}
    (h : loops.IsChain fun outer inner => ¬outer.continues inner = true) :
    fuseLoops loops = loops := by
  induction h with
  | nil => rfl
  | singleton loop => rfl
  | cons_cons hloop _ ih =>
      rw [fuseLoops, fuseFrom, if_neg hloop]
      exact congrArg _ ih

theorem isNormal_sortAndFuse (loops : List Loop) : IsNormal (sortAndFuse loops) := by
  have hsorted := sortBy_pairwise isOrder_precedes loops
  unfold sortAndFuse fuseLoops
  split
  · exact ⟨.nil, .nil⟩
  · rename_i current rest heq
    rw [heq] at hsorted
    refine ⟨(pairwise_fuseFrom hsorted).imp precedes_iff_inOrder.1, ?_⟩
    refine (isChain_fuseFrom current rest).imp fun outer inner hcontinues hcontiguous => ?_
    exact hcontinues (continues_iff_isContiguous.2 hcontiguous)

theorem IsNormal.sortAndFuse_eq_self {loops : List Loop} (h : IsNormal loops) :
    sortAndFuse loops = loops := by
  have hsorted : sortBy Loop.precedes loops = loops := by
    rw [sortBy_eq_insertionSort]
    exact (h.sorted.imp precedes_iff_inOrder.2).insertionSort_eq
  rw [sortAndFuse, hsorted]
  apply fuseLoops_eq_self
  refine h.apart.imp fun outer inner hcontiguous hcontinues => ?_
  exact hcontiguous (continues_iff_isContiguous.1 hcontinues)

/-- One pass of sorting and fusing is enough. Its result is sorted by axis, falling output stride
and falling right stride, no two neighbours of it are contiguous in all operands, and a second pass
leaves it as it is; so it leaves the lists that have this form already, and no others. -/
theorem sortAndFuse_normalizes (loops : List Loop) :
    IsNormal (sortAndFuse loops) ∧
      sortAndFuse (sortAndFuse loops) = sortAndFuse loops ∧
      (sortAndFuse loops = loops ↔ IsNormal loops) := by
  have hnormal := isNormal_sortAndFuse loops
  refine ⟨hnormal, hnormal.sortAndFuse_eq_self, ?_, IsNormal.sortAndFuse_eq_self⟩
  intro heq
  rwa [heq] at hnormal

/-- Three loops of one axis that continue each other are one loop, although the outermost does not
continue the innermost. -/
example :
    sortAndFuse [⟨.m, .seq, 32, ⟨8, 0, 0, 8⟩, 0, 0⟩, ⟨.m, .seq, 2, ⟨1, 0, 0, 1⟩, 0, 0⟩,
      ⟨.m, .seq, 4, ⟨2, 0, 0, 2⟩, 0, 0⟩] = [⟨.m, .seq, 256, ⟨1, 0, 0, 1⟩, 0, 0⟩] := by
  decide

/-! ## Fusing by division -/

/-- One loop for a loop and the loop `inner` that it continues, with strides divided by the size of
the inner loop. -/
def Loop.fuseChecked (outer inner : Loop) : Except Error Loop := do
  let left ← quotient outer.strides.left inner.size
  let right ← quotient outer.strides.right inner.size
  let out ← quotient outer.strides.out inner.size
  let outAux ← quotient outer.strides.outAux inner.size
  return { outer with size := outer.size * inner.size, strides := ⟨left, right, outAux, out⟩ }

/-- `fuseFrom` with divisions. -/
def fuseFromChecked (current : Loop) : List Loop → Except Error (List Loop)
  | [] => .ok [current]
  | next :: rest =>
      if current.continues next then do
        let fused ← current.fuseChecked next
        fuseFromChecked fused rest
      else do
        let fused ← fuseFromChecked next rest
        return current :: fused

/-- `sortAndFuse` with divisions. -/
def sortAndFuseChecked (loops : List Loop) : Except Error (List Loop) :=
  match sortBy Loop.precedes loops with
  | [] => .ok []
  | loop :: rest => fuseFromChecked loop rest

/-- The strides of a loop that continues another one are multiples of the size of the other, and the
quotients are the strides of the other. -/
theorem Loop.fuseChecked_eq_ok {outer inner : Loop} (h : outer.continues inner = true)
    (hsize : 1 ≤ inner.size) : outer.fuseChecked inner = .ok (outer.fuse inner) := by
  have hquotient : ∀ stride : Int, quotient (stride * inner.size) inner.size = .ok stride := by
    intro stride
    rw [quotient_eq_ok (by omega), Int.mul_tdiv_cancel stride (by omega)]
  obtain ⟨-, hleft, hright, haux, hout⟩ := continues_iff_isContiguous.1 h
  rw [Loop.fuseChecked, hleft, hright, haux, hout]
  simp only [hquotient]
  rfl

theorem fuseFromChecked_eq_ok {current : Loop} {rest : List Loop}
    (hsizes : ∀ loop ∈ rest, 1 ≤ loop.size) :
    fuseFromChecked current rest = .ok (fuseFrom current rest) := by
  -- on the loops further in: only they are divisors, and the loop fused so far never becomes one
  induction rest generalizing current with
  | nil => rfl
  | cons next rest ih =>
      obtain ⟨hnext, hrest⟩ := List.forall_mem_cons.1 hsizes
      rw [fuseFromChecked, fuseFrom]
      split
      · rename_i hcontinues
        exact bind_eq_ok.2 ⟨_, Loop.fuseChecked_eq_ok hcontinues hnext, ih hrest⟩
      · exact bind_eq_ok.2 ⟨_, ih hrest, rfl⟩

/-- Loops of positive size are fused without a division by zero, and dividing gives the same loops. -/
theorem sortAndFuseChecked_eq_ok {loops : List Loop} (hsizes : ∀ loop ∈ loops, 1 ≤ loop.size) :
    sortAndFuseChecked loops = .ok (sortAndFuse loops) := by
  have hsorted : ∀ loop ∈ sortBy Loop.precedes loops, 1 ≤ loop.size := fun loop hloop =>
    hsizes loop ((sortBy_perm Loop.precedes loops).mem_iff.1 hloop)
  unfold sortAndFuseChecked sortAndFuse
  generalize sortBy Loop.precedes loops = sorted at hsorted
  cases sorted with
  | nil => rfl
  | cons loop rest => exact fuseFromChecked_eq_ok (List.forall_mem_cons.1 hsorted).2

end LoopNest
