import LoopNest.Ordering
import Mathlib.Data.List.Sort

/-!
# What stable sorting does

An order says of any two elements which may precede the other, both if they are tied (`IsOrder`). The
sorted list is in order. If no two elements are tied, it depends only on the elements and not on their
order before (`sortBy_eq_of_perm`).

Because tied elements keep their order, to sort by one order and then by another is to sort once, by
the second order and among ties by the first (`sortBy_sortBy`).
-/

namespace LoopNest

variable {α : Type} {p q : α → α → Bool}

/-- Of any two elements one may precede the other, and what precedes is passed on. -/
structure IsOrder (p : α → α → Bool) : Prop where
  total : ∀ a b, p a b = true ∨ p b a = true
  trans : ∀ a b c, p a b = true → p b c = true → p a c = true

/-- The order by `p`, and among elements that `p` ties by `q`. -/
def lexically (p q : α → α → Bool) (a b : α) : Bool := p a b && (!p b a || q a b)

namespace IsOrder

/-- Elements are ordered by a key. -/
theorem of_key {β : Type} [LinearOrder β] (key : α → β) : IsOrder fun a b => key a ≤ key b where
  total a b := by simpa using le_total (key a) (key b)
  trans a b c hab hbc := by
    rw [decide_eq_true_eq] at hab hbc ⊢
    exact le_trans hab hbc

/-- An order read from the end. -/
theorem reverse (hp : IsOrder p) : IsOrder fun a b => p b a where
  total a b := hp.total b a
  trans a b c hab hbc := hp.trans c b a hbc hab

theorem lexically (hp : IsOrder p) (hq : IsOrder q) : IsOrder (lexically p q) where
  total a b := by
    have hpab := hp.total a b
    have hqab := hq.total a b
    unfold LoopNest.lexically
    cases hab : p a b <;> cases hba : p b a <;> simp_all
  trans a b c hab hbc := by
    obtain ⟨hpab, htie⟩ := Bool.and_eq_true_iff.1 hab
    obtain ⟨hpbc, htie'⟩ := Bool.and_eq_true_iff.1 hbc
    refine Bool.and_eq_true_iff.2 ⟨hp.trans a b c hpab hpbc, ?_⟩
    -- a tie of the outer two ties the one in the middle to both
    cases hca : p c a with
    | false => rfl
    | true =>
        rw [hp.trans b c a hpbc hca] at htie
        rw [hp.trans c a b hca hpab] at htie'
        exact hq.trans a b c htie htie'

/-- Elements that a lexical order ties are tied by both orders. -/
theorem ties_lexically {a b : α} (hab : LoopNest.lexically p q a b = true)
    (hba : LoopNest.lexically p q b a = true) :
    (p a b = true ∧ p b a = true) ∧ q a b = true ∧ q b a = true := by
  obtain ⟨hpab, hqab⟩ := Bool.and_eq_true_iff.1 hab
  obtain ⟨hpba, hqba⟩ := Bool.and_eq_true_iff.1 hba
  rw [hpba] at hqab
  rw [hpab] at hqba
  exact ⟨⟨hpab, hpba⟩, hqab, hqba⟩

end IsOrder

/-! ## Sorting once -/

theorem insertBy_eq_orderedInsert (p : α → α → Bool) (x : α) (xs : List α) :
    insertBy p x xs = xs.orderedInsert (fun a b => p a b = true) x := by
  induction xs with
  | nil => rfl
  | cons y ys ih => rw [insertBy, List.orderedInsert_cons, ih]

theorem sortBy_eq_insertionSort (p : α → α → Bool) (xs : List α) :
    sortBy p xs = xs.insertionSort fun a b => p a b = true := by
  induction xs with
  | nil => rfl
  | cons x xs ih => rw [sortBy, ih, insertBy_eq_orderedInsert, List.insertionSort_cons]

/-- The sorted list is in order. -/
theorem sortBy_pairwise (hp : IsOrder p) (xs : List α) :
    (sortBy p xs).Pairwise fun a b => p a b = true := by
  have htotal : Std.Total fun a b => p a b = true := ⟨hp.total⟩
  have htrans : IsTrans α fun a b => p a b = true := ⟨hp.trans⟩
  rw [sortBy_eq_insertionSort]
  exact List.pairwise_insertionSort _ xs

/-- Without ties, lists of the same elements are sorted to the same list. -/
theorem sortBy_eq_of_perm (hp : IsOrder p) {xs ys : List α} (hperm : xs.Perm ys)
    (hties : ∀ a ∈ xs, ∀ b ∈ xs, p a b = true → p b a = true → a = b) :
    sortBy p xs = sortBy p ys := by
  have hleft := sortBy_perm p xs
  have hright := (sortBy_perm p ys).trans hperm.symm
  refine (hleft.trans hright.symm).eq_of_pairwise ?_ (sortBy_pairwise hp xs) (sortBy_pairwise hp ys)
  intro a b ha hb
  exact hties a (hleft.mem_iff.1 ha) b (hright.mem_iff.1 hb)

/-! ## Sorting twice -/

theorem insertBy_congr {x : α} {ys : List α} (h : ∀ y ∈ ys, p x y = q x y) :
    insertBy p x ys = insertBy q x ys := by
  induction ys with
  | nil => rfl
  | cons y ys ih =>
      rw [List.forall_mem_cons] at h
      rw [insertBy, insertBy, h.1, ih h.2]

/-- Two elements can be inserted in either way, if the second order puts the one that looks at both
orders behind the other. -/
theorem insertBy_comm (hp : IsOrder p) {x y : α} (hxy : q x y = false) (zs : List α) :
    insertBy p y (insertBy (lexically p q) x zs) = insertBy (lexically p q) x (insertBy p y zs) := by
  have hfront : lexically p q x y = !p y x := by
    have htotal := hp.total x y
    cases hyx : p y x <;> simp_all [lexically]
  induction zs with
  | nil =>
      simp only [insertBy, hfront]
      cases p y x <;> simp
  | cons z zs ih =>
      have htotal := hp.total y z
      cases hxz : lexically p q x z with
      | true =>
          have hpxz : p x z = true := (Bool.and_eq_true_iff.1 hxz).1
          cases hyz : p y z with
          | true =>
              simp only [insertBy, hxz, hyz, hfront, if_true]
              cases p y x <;> simp
          | false =>
              have hyx : p y x = false := by
                by_contra h
                rw [hp.trans y x z (by simpa using h) hpxz] at hyz
                cases hyz
              simp [insertBy, hxz, hyz, hyx]
      | false =>
          cases hyz : p y z with
          | true =>
              -- `x` stands behind `z`, and so behind `y`
              have hyx : p y x = true := by
                rcases hp.total y x with h | h
                · exact h
                · have hpxz := hp.trans x y z h hyz
                  refine hp.trans y z x hyz ?_
                  by_contra hzx
                  simp [lexically, hpxz, hzx] at hxz
              simp [insertBy, hxz, hyz, hfront, hyx]
          | false => simp [insertBy, hxz, hyz, ih]

theorem sortBy_insertBy (hp : IsOrder p) (hq : IsOrder q) {x : α} {ys : List α}
    (hys : ys.Pairwise fun a b => q a b = true) :
    sortBy p (insertBy q x ys) = insertBy (lexically p q) x (sortBy p ys) := by
  induction ys with
  | nil => rfl
  | cons y ys ih =>
      obtain ⟨hfirst, hrest⟩ := List.pairwise_cons.1 hys
      cases hxy : q x y with
      | true =>
          rw [insertBy, if_pos hxy, sortBy]
          apply insertBy_congr
          intro z hz
          have hxz : q x z = true := by
            rcases List.mem_cons.1 ((sortBy_perm p (y :: ys)).mem_iff.1 hz) with rfl | hmem
            · exact hxy
            · exact hq.trans x y z hxy (hfirst z hmem)
          simp [lexically, hxz]
      | false =>
          rw [insertBy, if_neg (by simp [hxy]), sortBy, sortBy, ih hrest, insertBy_comm hp hxy]

/-- To sort by one order and then by another is to sort once, by the second order and among ties by
the first. -/
theorem sortBy_sortBy (hp : IsOrder p) (hq : IsOrder q) (xs : List α) :
    sortBy p (sortBy q xs) = sortBy (lexically p q) xs := by
  induction xs with
  | nil => rfl
  | cons x xs ih => rw [sortBy, sortBy_insertBy hp hq (sortBy_pairwise hq xs), ih, ← sortBy]

end LoopNest
