import LoopNest.Parallel.Share
import LoopNest.Proofs.Checked
import LoopNest.Proofs.Offsets

/-!
# Threads share out the tasks

The shares of an axis are consecutive intervals that together hold every task once
(`Share.flatMap_cuts`). A thread has one interval on each of the three shared axes; over all threads
every combination of shares occurs once, so a sum of one part for each axis, taken over all threads,
is the sum of the whole axes (`sumset_threads_perm`).
-/

namespace LoopNest

/-- The tasks of an interval in order. -/
def Interval.numbers (interval : Interval) : List Int :=
  (upTo interval.length).map fun i => interval.start + i

namespace Share

/-- The number at which an axis is cut in front of share `id`. -/
def cut (threads : Nat) (total : Int) (id : Nat) : Int := (id * total).tdiv threads

/-- The share at position `id`. -/
def between (threads : Nat) (total : Int) (id : Nat) : Interval :=
  ⟨cut threads total id, cut threads total (id + 1)⟩

theorem onAxis_eq_ok {thread id threads : Nat} {total : Int} {axis : ThreadAxis}
    {interval : Interval} (h : onAxis thread id threads total axis = .ok interval) :
    interval = between threads total id ∧ interval.start < interval.stop := by
  unfold onAxis at h
  dsimp only at h
  split at h
  · rename_i hlt
    obtain rfl := Except.ok.inj h
    exact ⟨by simp [between, cut], hlt⟩
  · cases h

theorem cut_mono {threads : Nat} (hthreads : 1 ≤ threads) {total : Int} (htotal : 0 ≤ total)
    {a b : Nat} (h : a ≤ b) : cut threads total a ≤ cut threads total b := by
  have hmul : (a : Int) * total ≤ b * total :=
    Int.mul_le_mul_of_nonneg_right (by exact_mod_cast h) htotal
  rw [cut, cut, Int.tdiv_eq_ediv_of_nonneg (Int.mul_nonneg (Int.natCast_nonneg a) htotal),
    Int.tdiv_eq_ediv_of_nonneg (Int.mul_nonneg (Int.natCast_nonneg b) htotal)]
  exact Int.ediv_le_ediv (by exact_mod_cast hthreads) hmul

theorem cut_zero (threads : Nat) (total : Int) : cut threads total 0 = 0 := by simp [cut]

theorem cut_self {threads : Nat} (h : 1 ≤ threads) (total : Int) :
    cut threads total threads = total :=
  Int.mul_tdiv_cancel_left total (by omega)

theorem length_between {threads : Nat} (hthreads : 1 ≤ threads) {total : Int} (htotal : 0 ≤ total)
    (id : Nat) : 0 ≤ (between threads total id).length :=
  Int.sub_nonneg_of_le (cut_mono hthreads htotal (Nat.le_succ id))

/-- Consecutive intervals hold the numbers up to the last cut. -/
theorem flatMap_between {threads : Nat} (hthreads : 1 ≤ threads) {total : Int}
    (htotal : 0 ≤ total) (count : Nat) :
    ((List.range count).flatMap fun id => (between threads total id).numbers) =
      upTo (cut threads total count) := by
  induction count with
  | zero => simp [cut_zero, upTo_zero]
  | succ count ih =>
      have hstart : 0 ≤ cut threads total count := by
        simpa [cut_zero] using cut_mono hthreads htotal (Nat.zero_le count)
      have hlength := length_between hthreads htotal count
      have hsum : cut threads total (count + 1) =
          cut threads total count + (between threads total count).length := by
        simp [between, Interval.length]
      rw [List.range_succ, List.flatMap_append, ih, hsum, upTo_add hstart hlength]
      simp [Interval.numbers, between]

/-- Together the shares of an axis hold every task once. -/
theorem flatMap_cuts {threads : Nat} (h : 1 ≤ threads) {total : Int} (htotal : 0 ≤ total) :
    ((List.range threads).flatMap fun id => (between threads total id).numbers) = upTo total := by
  rw [flatMap_between h htotal, cut_self h]

/-- A position in a share is a task of the axis. -/
theorem mem_between {threads : Nat} (hthreads : 1 ≤ threads) {total : Int} (htotal : 0 ≤ total)
    {id : Nat} (hid : id < threads) {i : Int}
    (hi : 0 ≤ i ∧ i < (between threads total id).length) :
    0 ≤ (between threads total id).start + i ∧ (between threads total id).start + i < total := by
  have hstart : 0 ≤ cut threads total id := by
    simpa [cut_zero] using cut_mono hthreads htotal (Nat.zero_le id)
  have hstop : cut threads total (id + 1) ≤ total := by
    simpa [cut_self hthreads] using cut_mono hthreads htotal (Nat.succ_le_of_lt hid)
  simp only [between, Interval.length] at hi ⊢
  omega

end Share

/-- The position of a thread on the OMP axis. -/
theorem ThreadGrid.div_div_lt {grid : ThreadGrid} {thread : Nat} (h : thread < grid.total) :
    thread / grid.m / grid.n < grid.omp := by
  rw [Nat.div_div_eq_div_mul]
  refine Nat.div_lt_of_lt_mul (h.trans_eq ?_)
  rw [ThreadGrid.total]
  ring

namespace Layout

/-- The share of a thread. -/
def shareOf (layout : Layout) (thread : Nat) : Share where
  m := Share.between layout.threads.m layout.mTasks (thread % layout.threads.m)
  n := Share.between layout.threads.n layout.nTasks (thread / layout.threads.m % layout.threads.n)
  omp := Share.between layout.threads.omp layout.ompTasks
    (thread / layout.threads.m / layout.threads.n)

theorem share_eq_ok {layout : Layout} {thread : Nat} {share : Share}
    (h : layout.share thread = .ok share) :
    share = layout.shareOf thread ∧ 0 < share.m.length ∧ 0 < share.n.length ∧
      0 < share.omp.length := by
  obtain ⟨m, hm, h⟩ := bind_eq_ok.1 h
  obtain ⟨n, hn, h⟩ := bind_eq_ok.1 h
  obtain ⟨omp, homp, h⟩ := bind_eq_ok.1 h
  obtain rfl := pure_eq_ok.1 h
  obtain ⟨rfl, hm⟩ := Share.onAxis_eq_ok hm
  obtain ⟨rfl, hn⟩ := Share.onAxis_eq_ok hn
  obtain ⟨rfl, homp⟩ := Share.onAxis_eq_ok homp
  exact ⟨rfl, Int.sub_pos_of_lt hm, Int.sub_pos_of_lt hn, Int.sub_pos_of_lt homp⟩

end Layout

/-! ## Combinations of shares -/

theorem range_mul (a b : Nat) :
    List.range (a * b) = (List.range a).flatMap fun i => (List.range b).map fun j => i * b + j := by
  induction a with
  | zero => simp
  | succ a ih =>
      rw [Nat.succ_mul, List.range_add, ih, List.range_succ, List.flatMap_append,
        List.flatMap_singleton]

/-- A thread number is a combination of a position on every axis. -/
theorem flatMap_threads {β : Type} (grid : ThreadGrid) (f : Nat → Nat → Nat → List β) :
    ((List.range grid.total).flatMap fun t =>
        f (t % grid.m) (t / grid.m % grid.n) (t / grid.m / grid.n)) =
      (List.range grid.omp).flatMap fun c => (List.range grid.n).flatMap fun b =>
        (List.range grid.m).flatMap fun a => f a b c := by
  have htotal : grid.total = grid.omp * grid.n * grid.m := by
    rw [ThreadGrid.total]
    ring
  rw [htotal, range_mul, range_mul, List.flatMap_assoc, List.flatMap_assoc]
  refine List.flatMap_congr fun c _ => ?_
  rw [List.flatMap_map]
  refine List.flatMap_congr fun b hb => ?_
  rw [List.flatMap_map]
  refine List.flatMap_congr fun a ha => ?_
  have ha : a < grid.m := List.mem_range.1 ha
  have hb : b < grid.n := List.mem_range.1 hb
  -- the three digits of the thread number
  have hmod : ((c * grid.n + b) * grid.m + a) % grid.m = a := by
    rw [Nat.add_comm, Nat.add_mul_mod_self_right, Nat.mod_eq_of_lt ha]
  have hdiv : ((c * grid.n + b) * grid.m + a) / grid.m = c * grid.n + b := by
    rw [Nat.add_comm, Nat.add_mul_div_right _ _ (by omega), Nat.div_eq_of_lt ha, Nat.zero_add]
  have hmod' : (c * grid.n + b) % grid.n = b := by
    rw [Nat.add_comm, Nat.add_mul_mod_self_right, Nat.mod_eq_of_lt hb]
  have hdiv' : (c * grid.n + b) / grid.n = c := by
    rw [Nat.add_comm, Nat.add_mul_div_right _ _ (by omega), Nat.div_eq_of_lt hb, Nat.zero_add]
  rw [hmod, hdiv, hmod', hdiv']

section Sumset

variable {A : Type} [AddCommGroup A]

theorem sumset_flatMap_left {ι : Type} (is : List ι) (f : ι → List A) (ys : List A) :
    sumset (is.flatMap f) ys = is.flatMap fun i => sumset (f i) ys := by
  rw [sumset, List.flatMap_assoc]
  rfl

theorem sumset_flatMap_right {ι : Type} (xs : List A) (is : List ι) (f : ι → List A) :
    (is.flatMap fun i => sumset xs (f i)).Perm (sumset xs (is.flatMap f)) := by
  refine List.Perm.trans ?_ (sumset_comm _ _)
  rw [sumset_flatMap_left]
  exact List.Perm.flatMap_left is fun i _ => sumset_comm _ _

/-- A sum with one part for each axis of the thread grid, taken over all threads, is the sum of the
whole axes. -/
theorem sumset_threads_perm (grid : ThreadGrid) (outer inner : List A) (omp m n : Nat → List A) :
    ((List.range grid.total).flatMap fun t =>
        sumset outer (sumset (omp (t / grid.m / grid.n))
          (sumset (sumset (m (t % grid.m)) (n (t / grid.m % grid.n))) inner))).Perm
      (sumset outer (sumset ((List.range grid.omp).flatMap omp)
        (sumset (sumset ((List.range grid.m).flatMap m) ((List.range grid.n).flatMap n))
          inner))) := by
  rw [flatMap_threads grid fun a b c => sumset outer (sumset (omp c)
    (sumset (sumset (m a) (n b)) inner))]
  -- one axis at a time, from the inside
  have hcollect : ∀ (ys : List A) (is : List Nat) (f : Nat → List A),
      (is.flatMap fun i => sumset outer (sumset ys (sumset (f i) inner))).Perm
        (sumset outer (sumset ys (sumset (is.flatMap f) inner))) := by
    intro ys is f
    refine (sumset_flatMap_right _ _ _).trans (sumset_perm (List.Perm.refl _) ?_)
    refine (sumset_flatMap_right _ _ _).trans (sumset_perm (List.Perm.refl _) ?_)
    rw [sumset_flatMap_left]
  have hbox : ∀ c, ((List.range grid.n).flatMap fun b => (List.range grid.m).flatMap fun a =>
      sumset outer (sumset (omp c) (sumset (sumset (m a) (n b)) inner))).Perm
      (sumset outer (sumset (omp c) (sumset (sumset ((List.range grid.m).flatMap m)
        ((List.range grid.n).flatMap n)) inner))) := by
    intro c
    refine (List.Perm.flatMap_left _ fun b _ => hcollect _ _ fun a => sumset (m a) (n b)).trans ?_
    simp only [← sumset_flatMap_left]
    refine (hcollect _ _ fun b => sumset _ (n b)).trans ?_
    exact sumset_perm (List.Perm.refl _) (sumset_perm (List.Perm.refl _)
      (sumset_perm_left (sumset_flatMap_right _ _ _) _))
  refine (List.Perm.flatMap_left _ fun c _ => hbox c).trans ?_
  refine (sumset_flatMap_right _ _ _).trans (sumset_perm (List.Perm.refl _) ?_)
  rw [sumset_flatMap_left (List.range grid.omp)]

end Sumset

end LoopNest
