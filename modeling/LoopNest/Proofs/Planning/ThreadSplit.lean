import LoopNest.Planning.ThreadSplit
import LoopNest.Proofs.Checked
import LoopNest.Proofs.Divisor
import LoopNest.Settings

/-!
# Sharing out the threads

The number of threads on the axis M is a divisor of the number of threads, and so is the number on the
axis N before both are cut to the tasks there are. Threads can always be shared out
(`exists_splitThreads`): in no direction of the curve are there more threads than tasks, and all
directions together have no more threads than there are (`splitThreads_bounds`).
-/

namespace LoopNest

/-- There is at least one thread. -/
theorem Settings.one_le_resolvedThreads (settings : Settings) : 1 ≤ settings.resolvedThreads := by
  unfold Settings.resolvedThreads
  split
  · exact Nat.le_max_right _ _
  · omega

/-- The number of threads on the axis M is the first one or one of the divisors that were tried. -/
theorem foldlM_improveBalance {threads sizeM sizeN : Int} {ds : List Nat}
    {best result : Int × Float}
    (h : ds.foldlM (improveBalance threads sizeM sizeN) best = .ok result) :
    result.1 = best.1 ∨ ∃ d ∈ ds, result.1 = (d : Int) := by
  induction ds generalizing best with
  | nil =>
      obtain rfl := pure_eq_ok.1 h
      exact .inl rfl
  | cons d ds ih =>
      rw [List.foldlM_cons] at h
      obtain ⟨next, hnext, h⟩ := bind_eq_ok.1 h
      obtain ⟨threadsN, -, hnext⟩ := bind_eq_ok.1 hnext
      obtain ⟨score, -, hnext⟩ := bind_eq_ok.1 hnext
      obtain rfl := pure_eq_ok.1 hnext
      rcases ih h with heq | ⟨d', hd', heq⟩
      · split at heq
        · exact .inr ⟨d, List.mem_cons_self, heq⟩
        · exact .inl heq
      · exact .inr ⟨d', List.mem_cons_of_mem _ hd', heq⟩

theorem quotient_eq_ok_iff {a b c : Int} : quotient a b = .ok c ↔ b ≠ 0 ∧ a.tdiv b = c := by
  rw [quotient, guard_eq_ok, Except.ok.injEq]

/-- A divisor of the number of threads leaves threads for the other axis. -/
theorem exists_cofactor {threads d : Nat} (hthreads : 1 ≤ threads) (hdvd : d ∣ threads) :
    ∃ other : Nat, 1 ≤ other ∧ threads = d * other ∧ (threads : Int).tdiv d = other := by
  obtain ⟨other, rfl⟩ := hdvd
  have hd : 1 ≤ d := Nat.pos_of_mul_pos_right hthreads
  refine ⟨other, Nat.pos_of_mul_pos_left hthreads, rfl, ?_⟩
  rw [Nat.cast_mul]
  exact Int.mul_tdiv_cancel_left _ (by omega)

/-- The number of threads that is found for the axis M divides the number of threads. -/
theorem exists_bestThreads {threads : Nat} (hthreads : 1 ≤ threads) {sizeM sizeN : Int}
    {best : Int × Float}
    (h : (divisors threads).foldlM (improveBalance threads sizeM sizeN) (1, 0.0) = .ok best) :
    ∃ d : Nat, best.1 = d ∧ 1 ≤ d ∧ d ∣ threads := by
  rcases foldlM_improveBalance h with heq | ⟨d, hd, heq⟩
  · exact ⟨1, heq, Nat.le_refl 1, one_dvd _⟩
  · exact ⟨d, heq, mem_divisors hthreads hd⟩

/-- Threads are shared out so that the curve has no more threads than tasks in either direction, and
no more threads altogether than there are. -/
theorem splitThreads_bounds {threads : Nat} (hthreads : 1 ≤ threads) {sizeM sizeN : Int}
    (hsizeM : 1 ≤ sizeM) (hsizeN : 1 ≤ sizeN) {grid : ThreadGrid}
    (h : splitThreads threads sizeM sizeN = .ok grid) :
    (1 ≤ grid.m ∧ (grid.m : Int) ≤ sizeM) ∧ (1 ≤ grid.n ∧ (grid.n : Int) ≤ sizeN) ∧
      1 ≤ grid.omp ∧ grid.m * grid.n * grid.omp ≤ threads := by
  obtain ⟨⟨best, score⟩, hbest, h⟩ := bind_eq_ok.1 h
  obtain ⟨quotN, hquotN, h⟩ := bind_eq_ok.1 h
  obtain ⟨quotOmp, hquotOmp, h⟩ := bind_eq_ok.1 h
  obtain rfl := pure_eq_ok.1 h
  obtain ⟨-, rfl⟩ := quotient_eq_ok_iff.1 hquotN
  obtain ⟨-, rfl⟩ := quotient_eq_ok_iff.1 hquotOmp
  obtain ⟨b, rfl, hb, hdvd⟩ := exists_bestThreads hthreads hbest
  obtain ⟨other, hother, hproduct, hquot⟩ := exists_cofactor hthreads hdvd
  rw [hquot]
  -- all numbers from here on are natural
  obtain ⟨m, hm⟩ : ∃ m : Nat, max (min (b : Int) sizeM) 1 = m :=
    ⟨(max (min (b : Int) sizeM) 1).toNat, by omega⟩
  obtain ⟨n, hn⟩ : ∃ n : Nat, max (min (other : Int) sizeN) 1 = n :=
    ⟨(max (min (other : Int) sizeN) 1).toNat, by omega⟩
  have hmn : m * n ≤ threads := hproduct ▸ Nat.mul_le_mul (by omega) (by omega)
  have hmnpos : 1 ≤ m * n := Nat.mul_pos (by omega) (by omega)
  have homp : 1 ≤ threads / (m * n) := Nat.div_pos hmn hmnpos
  have htdiv : (threads : Int).tdiv ((m : Int) * n) = (threads / (m * n) : Nat) := by
    rw [← Nat.cast_mul, ← Int.ofNat_tdiv]
  dsimp only
  rw [hm, hn, htdiv, Int.toNat_natCast, Int.toNat_natCast]
  have hmax : (max ((threads / (m * n) : Nat) : Int) 1).toNat = threads / (m * n) := by omega
  rw [hmax]
  exact ⟨by omega, by omega, homp, Nat.mul_div_le _ _⟩

/-- Every divisor of the number of threads can be tried, since neither it nor its cofactor is zero. -/
theorem exists_improveBalance {threads d : Nat} (hthreads : 1 ≤ threads) (hdvd : d ∣ threads)
    (sizeM sizeN : Int) (best : Int × Float) :
    ∃ next, improveBalance threads sizeM sizeN best d = .ok next := by
  obtain ⟨other, hother, hproduct, hquot⟩ := exists_cofactor hthreads hdvd
  have hd : (d : Int) ≠ 0 := by
    have hpos : 0 < d := Nat.pos_of_dvd_of_pos hdvd hthreads
    omega
  have hother : (other : Int) ≠ 0 := by omega
  have hthreadsN : quotient threads d = .ok (other : Int) := hquot ▸ quotient_eq_ok hd
  have hscore : ∃ score, balance sizeM sizeN d other = .ok score :=
    ⟨_, bind_eq_ok.2 ⟨_, quotient_eq_ok hd, bind_eq_ok.2 ⟨_, quotient_eq_ok hother, rfl⟩⟩⟩
  obtain ⟨score, hscore⟩ := hscore
  exact ⟨_, bind_eq_ok.2 ⟨other, hthreadsN, bind_eq_ok.2 ⟨score, hscore, rfl⟩⟩⟩

theorem exists_foldlM_improveBalance {threads : Nat} (hthreads : 1 ≤ threads) (sizeM sizeN : Int)
    {ds : List Nat} (hds : ∀ d ∈ ds, d ∣ threads) (best : Int × Float) :
    ∃ result, ds.foldlM (improveBalance threads sizeM sizeN) best = .ok result := by
  induction ds generalizing best with
  | nil => exact ⟨best, rfl⟩
  | cons d ds ih =>
      obtain ⟨hdvd, hds⟩ := List.forall_mem_cons.1 hds
      obtain ⟨next, hnext⟩ := exists_improveBalance hthreads hdvd sizeM sizeN best
      obtain ⟨result, hresult⟩ := ih hds next
      exact ⟨result, List.foldlM_cons.trans (bind_eq_ok.2 ⟨next, hnext, hresult⟩)⟩

/-- Threads can always be shared out. -/
theorem exists_splitThreads {threads : Nat} (hthreads : 1 ≤ threads) (sizeM sizeN : Int) :
    ∃ grid, splitThreads threads sizeM sizeN = .ok grid := by
  obtain ⟨⟨best, score⟩, hbest⟩ := exists_foldlM_improveBalance hthreads sizeM sizeN
    (fun d hd => (mem_divisors hthreads hd).2) (1, 0.0)
  obtain ⟨b, rfl, hb, -⟩ := exists_bestThreads hthreads hbest
  have hbest' : (b : Int) ≠ 0 := by omega
  have hcurve : max (min (b : Int) sizeM) 1 * max (min ((threads : Int).tdiv b) sizeN) 1 ≠ 0 :=
    mul_ne_zero (by omega) (by omega)
  exact ⟨_, bind_eq_ok.2 ⟨_, hbest, bind_eq_ok.2 ⟨_, quotient_eq_ok hbest',
    bind_eq_ok.2 ⟨_, quotient_eq_ok hcurve, rfl⟩⟩⟩⟩

end LoopNest
