import LoopNest.Proofs.Divisor
import Mathlib.Analysis.SpecialFunctions.Log.Basic

/-!
# The nearest divisor

Closeness to a wanted size is measured on a logarithmic scale (`ratioDistance`). If the comparison
of distances is exact, `nearestDivisorBy` answers with the one divisor that is closer than all
others (`nearestDivisorBy_nearest`).

Three facts make this up. The search visits every divisor, because of two cofactors one is at most
the square root (`mem_divisors_iff`). A search that moves on for strictly closer candidates ends at
a distance that none of them undercuts (`foldl_closer_le`). And two divisors can only be equally
close on either side of the target, when their product is its square; the target then divides the
size itself (`dvd_of_mul_eq_sq`) and is closer than both.

The shortcut for a target that divides the size does not change the answer for any order of closeness
that puts the target in front of all other divisors (`IsNearest`), as exact distances do
(`isNearest_of_exact`).
-/

namespace LoopNest

/-! ## Every divisor is visited -/

/-- What was found stays found. -/
theorem mem_divisorsFrom_of_mem {n i d : Nat} {found : List Nat} (hd : d ∈ found) :
    d ∈ divisorsFrom n i found := by
  induction i, found using divisorsFrom.induct n with
  | case1 i found hle found' ih =>
      rw [divisorsFrom, if_pos hle]
      apply ih
      simp only [found']
      split_ifs <;> simp [hd]
  | case2 i found hgt =>
      rw [divisorsFrom, if_neg hgt]
      exact List.mem_reverse.2 hd

/-- A divisor up to the square root is found together with its cofactor. -/
theorem mem_divisorsFrom_of_dvd {n i d : Nat} {found : List Nat} (hid : i ≤ d) (hsq : d * d ≤ n)
    (hdvd : d ∣ n) : d ∈ divisorsFrom n i found ∧ n / d ∈ divisorsFrom n i found := by
  induction i, found using divisorsFrom.induct n with
  | case1 i found hle found' ih =>
      rw [divisorsFrom, if_pos hle]
      rcases Nat.eq_or_lt_of_le hid with rfl | hlt
      · have hpair : i ∈ found' ∧ n / i ∈ found' := by
          have hmod : n % i = 0 := Nat.mod_eq_zero_of_dvd hdvd
          by_cases hroot : i = n / i
          · simp [found', hmod, ← hroot]
          · simp [found', hmod, hroot]
        exact ⟨mem_divisorsFrom_of_mem hpair.1, mem_divisorsFrom_of_mem hpair.2⟩
      · exact ih hlt
  | case2 i found hgt =>
      -- the search is past the square root, and `d` is not
      have hle : i * i ≤ d * d := Nat.mul_le_mul hid hid
      omega

/-- The divisors visited are all divisors. -/
theorem mem_divisors_iff {n d : Nat} (hn : 1 ≤ n) : d ∈ divisors n ↔ d ∣ n := by
  constructor
  · exact fun hd => (mem_divisors hn hd).2
  · intro hdvd
    have hpos : 1 ≤ d := Nat.pos_of_dvd_of_pos hdvd hn
    by_cases hsq : d * d ≤ n
    · exact (mem_divisorsFrom_of_dvd hpos hsq hdvd).1
    · -- the cofactor is below the square root, and its cofactor is `d`
      obtain ⟨q, rfl⟩ := hdvd
      have hq : 1 ≤ q := Nat.pos_of_mul_pos_left hn
      have hlt : q < d := lt_of_mul_lt_mul_left (not_le.1 hsq) (Nat.zero_le d)
      have hmem := (mem_divisorsFrom_of_dvd hq (Nat.mul_le_mul_right q hlt.le)
        (Dvd.intro_left d rfl) : q ∈ divisorsFrom (d * q) 1 [] ∧ _).2
      rwa [Nat.mul_div_cancel d hq] at hmem

/-! ## Searching -/

/-- A divisor of a size, among the sizes that a loop can have. -/
def IsDivisor (size d : Int) : Prop := 1 ≤ d ∧ d ∣ size

/-- The search for the nearest divisor by itself: from the size on through all divisors. -/
def searchDivisor (closer : Int → Int → Bool) (size : Int) : Int :=
  (divisors size.toNat).foldl (fun best (d : Nat) => if closer d best then (d : Int) else best) size

theorem isDivisor_iff_mem {size : Int} (hsize : 1 ≤ size) {d : Int} :
    IsDivisor size d ↔ ∃ n ∈ divisors size.toNat, (n : Int) = d := by
  have hcast : (size.toNat : Int) = size := Int.toNat_of_nonneg (by omega)
  constructor
  · rintro ⟨hpos, hdvd⟩
    obtain ⟨n, rfl⟩ := Int.eq_ofNat_of_zero_le (show 0 ≤ d by omega)
    refine ⟨n, (mem_divisors_iff (by omega)).2 ?_, rfl⟩
    rw [← hcast] at hdvd
    exact Int.natCast_dvd_natCast.1 hdvd
  · rintro ⟨n, hn, rfl⟩
    obtain ⟨hpos, hdvd⟩ := mem_divisors (by omega) hn
    refine ⟨by omega, ?_⟩
    rw [← hcast]
    exact Int.natCast_dvd_natCast.2 hdvd

section Search

variable {β : Type} [LinearOrder β] {distance : Int → β} {closer : Int → Int → Bool}

/-- A search that moves on for strictly closer candidates ends at a distance that none of them
undercuts. The comparison need be right for what is compared only. -/
theorem foldl_closer_le {p : Int → Prop}
    (hexact : ∀ d e, p d → p e → (closer d e = true ↔ distance d < distance e))
    {ds : List Nat} (hds : ∀ d ∈ ds, p (d : Int)) {best : Int} (hbest : p best) {result : Int}
    (hresult : ds.foldl (fun best (d : Nat) => if closer d best then (d : Int) else best) best =
      result) :
    distance result ≤ distance best ∧ ∀ d ∈ ds, distance result ≤ distance (d : Int) := by
  induction ds generalizing best with
  | nil =>
      obtain rfl : best = result := hresult
      exact ⟨le_rfl, by simp⟩
  | cons d ds ih =>
      obtain ⟨hd, hds⟩ := List.forall_mem_cons.1 hds
      rw [List.foldl_cons] at hresult
      have hcompare := hexact d best hd hbest
      by_cases hcloser : closer d best = true
      · rw [if_pos hcloser] at hresult
        obtain ⟨hle, hall⟩ := ih hds hd hresult
        have hlt := hcompare.1 hcloser
        exact ⟨hle.trans hlt.le, List.forall_mem_cons.2 ⟨hle, hall⟩⟩
      · rw [if_neg hcloser] at hresult
        obtain ⟨hle, hall⟩ := ih hds hbest hresult
        have hfar : distance best ≤ distance (d : Int) := not_lt.1 (hcompare.not.1 hcloser)
        exact ⟨hle, List.forall_mem_cons.2 ⟨hle.trans hfar, hall⟩⟩

/-- The search ends at a divisor, and no divisor is closer. -/
theorem searchDivisor_least {size : Int} (hsize : 1 ≤ size)
    (hexact : ∀ d e, IsDivisor size d → IsDivisor size e →
      (closer d e = true ↔ distance d < distance e)) :
    IsDivisor size (searchDivisor closer size) ∧
      ∀ d, IsDivisor size d → distance (searchDivisor closer size) ≤ distance d := by
  have hstart : IsDivisor size size := ⟨hsize, dvd_refl size⟩
  have hvisited : ∀ n ∈ divisors size.toNat, IsDivisor size (n : Int) := fun n hn =>
    (isDivisor_iff_mem hsize).2 ⟨n, hn, rfl⟩
  refine ⟨foldl_closer_mem closer hvisited hstart, fun d hd => ?_⟩
  obtain ⟨n, hn, rfl⟩ := (isDivisor_iff_mem hsize).1 hd
  exact (foldl_closer_le hexact hvisited hstart rfl).2 n hn

end Search

section Shortcut

/-- The target is in front of the divisors of a size: none of them is closer, and every other one is
farther. -/
def IsNearest (closer : Int → Int → Bool) (size target : Int) : Prop :=
  ∀ d, IsDivisor size d → closer d target = false ∧ (d ≠ target → closer target d = true)

variable {closer : Int → Int → Bool} {size target : Int}

/-- A search stays at a target that is in front. -/
theorem IsNearest.foldl_eq_target (h : IsNearest closer size target) {ds : List Nat}
    (hds : ∀ d ∈ ds, IsDivisor size (d : Int)) :
    ds.foldl (fun best (d : Nat) => if closer d best then (d : Int) else best) target = target := by
  induction ds with
  | nil => rfl
  | cons d ds ih =>
      obtain ⟨hd, hds⟩ := List.forall_mem_cons.1 hds
      rw [List.foldl_cons, (h d hd).1]
      exact ih hds

/-- A search that comes by a target that is in front ends at it. -/
theorem IsNearest.searchDivisor_eq (h : IsNearest closer size target) (hsize : 1 ≤ size)
    (htarget : IsDivisor size target) : searchDivisor closer size = target := by
  have hvisited : ∀ n ∈ divisors size.toNat, IsDivisor size (n : Int) := fun n hn =>
    (isDivisor_iff_mem hsize).2 ⟨n, hn, rfl⟩
  obtain ⟨n, hn, rfl⟩ := (isDivisor_iff_mem hsize).1 htarget
  obtain ⟨before, after, hsplit⟩ := List.append_of_mem hn
  rw [hsplit, List.forall_mem_append, List.forall_mem_cons] at hvisited
  obtain ⟨hbefore, -, hafter⟩ := hvisited
  rw [searchDivisor, hsplit, List.foldl_append, List.foldl_cons]
  -- whatever was picked before the target, the target is picked next
  have hbest := foldl_closer_mem closer (p := IsDivisor size) hbefore ⟨hsize, dvd_refl size⟩
  generalize before.foldl _ size = best at hbest ⊢
  have hnext : (if closer n best then (n : Int) else best) = n := by
    by_cases heq : best = n
    · rw [heq, ite_self]
    · rw [if_pos ((h best hbest).2 heq)]
  rw [hnext]
  exact h.foldl_eq_target hafter

/-- The shortcut for a target that divides the size gives what the search would find. -/
theorem nearestDivisorBy_eq_searchDivisor
    (hnearest : IsDivisor size target → IsNearest closer size target) :
    nearestDivisorBy closer size target = searchDivisor closer size := by
  rw [nearestDivisorBy]
  split
  · rename_i hshortcut
    obtain ⟨htarget, hsize, hmod⟩ := hshortcut
    have hdivides : IsDivisor size target := ⟨htarget, Int.dvd_of_emod_eq_zero hmod⟩
    exact ((hnearest hdivides).searchDivisor_eq hsize hdivides).symm
  · rfl

end Shortcut

/-! ## Distances on a logarithmic scale -/

/-- The exact distance of `d` from `target` on a logarithmic scale. -/
noncomputable def ratioDistance (target d : Int) : ℝ := |Real.log ((d : ℝ) / target)|

theorem ratioDistance_self {target : Int} (htarget : 1 ≤ target) :
    ratioDistance target target = 0 := by
  have hne : (target : ℝ) ≠ 0 := by exact_mod_cast (show target ≠ 0 by omega)
  rw [ratioDistance, div_self hne, Real.log_one, abs_zero]

/-- Two sizes are equally close if they are the same, or if the target is their geometric mean. -/
theorem ratioDistance_eq_iff {target d e : Int} (htarget : 1 ≤ target) (hd : 1 ≤ d) (he : 1 ≤ e) :
    ratioDistance target d = ratioDistance target e ↔ d = e ∨ d * e = target ^ 2 := by
  have htarget' : (0 : ℝ) < target := by exact_mod_cast htarget
  have hd' : (0 : ℝ) < d := by exact_mod_cast hd
  have he' : (0 : ℝ) < e := by exact_mod_cast he
  have hdt := div_pos hd' htarget'
  have het := div_pos he' htarget'
  rw [ratioDistance, ratioDistance, abs_eq_abs, ← Real.log_inv, Real.log_injOn_pos.eq_iff hdt het,
    Real.log_injOn_pos.eq_iff hdt (inv_pos.2 het), inv_div]
  apply or_congr
  · rw [div_left_inj' htarget'.ne', Int.cast_inj]
  · rw [div_eq_div_iff htarget'.ne' he'.ne', ← sq]
    exact_mod_cast Iff.rfl

/-- If two divisors lie on either side of the target in the same ratio, the target is a divisor. -/
theorem dvd_of_mul_eq_sq {size target d e : Int} (hd : d ∣ size) (he : e ∣ size)
    (heq : d * e = target ^ 2) : target ∣ size := by
  have hsquare : target ^ 2 ∣ size ^ 2 := by
    rw [← heq, sq]
    exact mul_dvd_mul hd he
  exact (Int.pow_dvd_pow_iff two_ne_zero).1 hsquare

section Nearest

variable {closer : Int → Int → Bool} {size target : Int} (hsize : 1 ≤ size) (htarget : 1 ≤ target)
  (hexact : ∀ d e, IsDivisor size d → IsDivisor size e →
    (closer d e = true ↔ ratioDistance target d < ratioDistance target e))

include hexact

/-- A distance of zero is not undercut, and no other size has it. -/
theorem isNearest_of_exact (hdivisor : IsDivisor size target) : IsNearest closer size target := by
  have hself := ratioDistance_self hdivisor.1
  intro d hd
  have hnonneg : 0 ≤ ratioDistance target d := abs_nonneg _
  constructor
  · rw [← Bool.not_eq_true, hexact d target hd hdivisor, hself, not_lt]
    exact hnonneg
  · intro hne
    rw [hexact target d hdivisor hd, hself]
    refine lt_of_le_of_ne hnonneg fun hzero => hne ?_
    rcases (ratioDistance_eq_iff hdivisor.1 hd.1 hdivisor.1).1 (hzero.symm.trans hself.symm) with
      heq | hproduct
    · exact heq
    · rw [sq] at hproduct
      exact mul_right_cancel₀ (by have := hdivisor.1; omega) hproduct

include hsize htarget

/-- No other divisor is as close as the one that is found. -/
theorem searchDivisor_lt {d : Int} (hd : IsDivisor size d) (hne : d ≠ searchDivisor closer size) :
    ratioDistance target (searchDivisor closer size) < ratioDistance target d := by
  obtain ⟨hdivisor, hleast⟩ := searchDivisor_least hsize hexact
  apply lt_of_le_of_ne (hleast d hd)
  intro htie
  rcases (ratioDistance_eq_iff htarget hdivisor.1 hd.1).1 htie with heq | hproduct
  · exact hne heq.symm
  · -- the target would be a divisor, hence found, and a distance of zero is not shared
    have hdivides : IsDivisor size target :=
      ⟨htarget, dvd_of_mul_eq_sq hdivisor.2 hd.2 hproduct⟩
    have hfound := (isNearest_of_exact hexact hdivides).searchDivisor_eq hsize hdivides
    rw [hfound] at hproduct hne
    rw [sq] at hproduct
    exact hne (mul_left_cancel₀ (by omega) hproduct)

/-- With exact distances, the divisor picked for a target is closer to it than every other divisor
of the size, so no divisor is closer and none is as close; it is the target if that divides the
size. It is what the search through all divisors finds. -/
theorem nearestDivisorBy_nearest :
    IsDivisor size (nearestDivisorBy closer size target) ∧
      (∀ d, IsDivisor size d → d ≠ nearestDivisorBy closer size target →
        ratioDistance target (nearestDivisorBy closer size target) < ratioDistance target d) ∧
      (target ∣ size → nearestDivisorBy closer size target = target) ∧
      nearestDivisorBy closer size target = searchDivisor closer size := by
  rw [nearestDivisorBy_eq_searchDivisor (isNearest_of_exact hexact)]
  refine ⟨(searchDivisor_least hsize hexact).1, fun d hd hne => ?_, fun hdvd => ?_, rfl⟩
  · exact searchDivisor_lt hsize htarget hexact hd hne
  · exact (isNearest_of_exact hexact ⟨htarget, hdvd⟩).searchDivisor_eq hsize ⟨htarget, hdvd⟩

end Nearest

/-! ## Comparing distances in integers -/

/-- Whether `d` is closer to `target` than `e` on a logarithmic scale: the larger of `d` and
`target` over the smaller is the smaller ratio. -/
def nearerTo (target d e : Int) : Bool :=
  max d target * min e target < max e target * min d target

theorem ratioDistance_eq_log {target d : Int} (htarget : 1 ≤ target) (hd : 1 ≤ d) :
    ratioDistance target d = Real.log ((max d target : Int) / (min d target : Int)) := by
  have htarget' : (0 : ℝ) < target := by exact_mod_cast htarget
  have hd' : (0 : ℝ) < d := by exact_mod_cast hd
  rw [ratioDistance]
  rcases le_total d target with hle | hle
  · have hle' : (d : ℝ) ≤ target := by exact_mod_cast hle
    rw [max_eq_right hle, min_eq_left hle, abs_of_nonpos, ← Real.log_inv, inv_div]
    exact Real.log_nonpos (div_pos hd' htarget').le ((div_le_one htarget').2 hle')
  · have hle' : (target : ℝ) ≤ d := by exact_mod_cast hle
    rw [max_eq_left hle, min_eq_right hle, abs_of_nonneg]
    exact Real.log_nonneg ((one_le_div htarget').2 hle')

/-- Exact distances can be compared in integers. -/
theorem nearerTo_eq_true_iff {target d e : Int} (htarget : 1 ≤ target) (hd : 1 ≤ d) (he : 1 ≤ e) :
    nearerTo target d e = true ↔ ratioDistance target d < ratioDistance target e := by
  have hpos : ∀ {x : Int}, 1 ≤ x →
      (0 : ℝ) < (max x target : Int) ∧ (0 : ℝ) < (min x target : Int) := by
    intro x hx
    constructor
    · exact_mod_cast lt_max_of_lt_left (show 0 < x by omega)
    · exact_mod_cast lt_min (show 0 < x by omega) (show 0 < target by omega)
  obtain ⟨hmaxD, hminD⟩ := hpos hd
  obtain ⟨hmaxE, hminE⟩ := hpos he
  rw [nearerTo, decide_eq_true_iff, ratioDistance_eq_log htarget hd,
    ratioDistance_eq_log htarget he,
    Real.log_lt_log_iff (div_pos hmaxD hminD) (div_pos hmaxE hminE), div_lt_div_iff₀ hminD hminE]
  exact_mod_cast Iff.rfl

/-- Four and six are as far from five in steps, but six to five is the smaller ratio. -/
theorem nearestDivisorBy_nearest_twelve_five :
    nearestDivisorBy (nearerTo 5) 12 5 = 6 ∧
      ∀ d, IsDivisor 12 d → d ≠ 6 → ratioDistance 5 6 < ratioDistance 5 d := by
  have hvalue : nearestDivisorBy (nearerTo 5) 12 5 = 6 := by decide +kernel
  have hexact : ∀ d e, IsDivisor 12 d → IsDivisor 12 e →
      (nearerTo 5 d e = true ↔ ratioDistance 5 d < ratioDistance 5 e) := fun d e hd he =>
    nearerTo_eq_true_iff (by decide) hd.1 he.1
  obtain ⟨-, hnearest, -⟩ := nearestDivisorBy_nearest (by decide) (by decide) hexact
  rw [hvalue] at hnearest
  exact ⟨hvalue, hnearest⟩

end LoopNest
