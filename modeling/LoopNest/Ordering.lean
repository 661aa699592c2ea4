/-!
# Stable sorting

`sortBy precedes` orders a list by insertion. An element is put in front of the first one that it
may precede, so elements that may precede each other keep their order. The result holds the same
elements (`sortBy_perm`).
-/

namespace LoopNest

variable {α : Type}

/-- Puts `x` in front of the first element that it may precede. -/
def insertBy (precedes : α → α → Bool) (x : α) : List α → List α
  | [] => [x]
  | y :: ys => if precedes x y then x :: y :: ys else y :: insertBy precedes x ys

/-- The elements of a list in order; elements that may precede each other keep their order. -/
def sortBy (precedes : α → α → Bool) : List α → List α
  | [] => []
  | x :: xs => insertBy precedes x (sortBy precedes xs)

theorem insertBy_perm (precedes : α → α → Bool) (x : α) (ys : List α) :
    (insertBy precedes x ys).Perm (x :: ys) := by
  induction ys with
  | nil => exact List.Perm.refl _
  | cons y ys ih =>
      unfold insertBy
      split
      · exact List.Perm.refl _
      · exact (List.Perm.cons y ih).trans (List.Perm.swap x y ys)

theorem sortBy_perm (precedes : α → α → Bool) (xs : List α) :
    (sortBy precedes xs).Perm xs := by
  induction xs with
  | nil => exact List.Perm.refl _
  | cons x xs ih => exact (insertBy_perm precedes x _).trans (List.Perm.cons x ih)

end LoopNest
