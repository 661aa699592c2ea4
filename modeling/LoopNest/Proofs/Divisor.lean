import LoopNest.Divisor
import Mathlib.Tactic

/-!
# The size of a split divides the size of the loop

Whatever order of closeness is used, `nearestDivisorBy` answers with a divisor of the size, because
it starts at the size and moves among the divisors only (`foldl_closer_mem`,
`nearestDivisorBy_spec`).
-/

namespace LoopNest

theorem mem_divisorsFrom {n i d : Nat} {found : List Nat} (hi : 1 ≤ i) (hn : 1 ≤ n)
    (hfound : ∀ d ∈ found, 1 ≤ d ∧ d ∣ n) (hd : d ∈ divisorsFrom n i found) : 1 ≤ d ∧ d ∣ n := by
  induction i, found using divisorsFrom.induct n with
  | case1 i found hle found' ih =>
      rw [divisorsFrom, if_pos hle] at hd
      refine ih (by omega) ?_ hd
      intro d hd
      by_cases hmod : n % i ≠ 0
      · exact hfound d (by simpa [found', hmod] using hd)
      · have hdvd : i ∣ n := Nat.dvd_of_mod_eq_zero (by omega)
        have hquot : 1 ≤ n / i ∧ n / i ∣ n :=
          ⟨Nat.div_pos (Nat.le_of_dvd hn hdvd) hi, Nat.div_dvd_of_dvd hdvd⟩
        -- a square root is its own cofactor and is listed once
        have hcases : d = n / i ∨ d = i ∨ d ∈ found := by
          by_cases hsq : i = n / i
          · have hmem : d = i ∨ d ∈ found := by simpa [found', hmod, ← hsq] using hd
            exact Or.inr hmem
          · simpa [found', hmod, hsq] using hd
        rcases hcases with rfl | rfl | hmem
        · exact hquot
        · exact ⟨hi, hdvd⟩
        · exact hfound d hmem
  | case2 i found hle =>
      rw [divisorsFrom, if_neg hle, List.mem_reverse] at hd
      exact hfound d hd

theorem mem_divisors {n d : Nat} (hn : 1 ≤ n) (hd : d ∈ divisors n) : 1 ≤ d ∧ d ∣ n :=
  mem_divisorsFrom (Nat.le_refl 1) hn (by simp) hd

/-- A search that moves among candidates ends at one of them, or where it started. -/
theorem foldl_closer_mem (closer : Int → Int → Bool) {p : Int → Prop} {ds : List Nat}
    (hds : ∀ d ∈ ds, p (d : Int)) {best : Int} (hbest : p best) :
    p (ds.foldl (fun best (d : Nat) => if closer d best then (d : Int) else best) best) := by
  induction ds generalizing best with
  | nil => exact hbest
  | cons d ds ih =>
      obtain ⟨hd, hds⟩ := List.forall_mem_cons.1 hds
      rw [List.foldl_cons]
      apply ih hds
      split
      · exact hd
      · exact hbest

theorem nearestDivisorBy_spec (closer : Int → Int → Bool) {size : Int} (target : Int)
    (hsize : 1 ≤ size) :
    1 ≤ nearestDivisorBy closer size target ∧ nearestDivisorBy closer size target ∣ size := by
  rw [nearestDivisorBy]
  split
  · rename_i hdivides
    exact ⟨hdivides.1, Int.dvd_of_emod_eq_zero hdivides.2.2⟩
  · have hvisited : ∀ d ∈ divisors size.toNat, 1 ≤ (d : Int) ∧ (d : Int) ∣ size := by
      intro d hd
      obtain ⟨hpos, hdvd⟩ := mem_divisors (by omega) hd
      refine ⟨by omega, ?_⟩
      rw [← Int.toNat_of_nonneg (show 0 ≤ size by omega)]
      exact Int.natCast_dvd_natCast.2 hdvd
    exact foldl_closer_mem closer (p := fun d => 1 ≤ d ∧ d ∣ size) hvisited ⟨hsize, dvd_refl size⟩

theorem splitSize_spec {size : Int} (target : Int) (hsize : 1 ≤ size) :
    1 ≤ splitSize size target ∧ splitSize size target ∣ size :=
  nearestDivisorBy_spec _ target hsize

/-- The size of a split goes into the size of the loop at least once. -/
theorem splitSize_cofactor {size : Int} (target : Int) (hsize : 1 ≤ size) :
    1 ≤ splitSize size target ∧ ∃ q, 1 ≤ q ∧ size = splitSize size target * q ∧
      size.tdiv (splitSize size target) = q := by
  obtain ⟨hpos, q, hq⟩ := splitSize_spec target hsize
  refine ⟨hpos, q, ?_, hq, Int.tdiv_eq_of_eq_mul_right (by omega) hq⟩
  -- with a quotient below one the loop would be empty
  by_contra hlt
  have hle := Int.mul_le_mul_of_nonneg_left (show q ≤ 0 by omega)
    (show 0 ≤ splitSize size target by omega)
  omega

end LoopNest
