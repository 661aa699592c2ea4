import LoopNest.Proofs.Scratch

/-!
# Scratch memory honours its reservations

Scratch memory is used step by step: memory is reserved, allocated, handed out and overwritten, in
any order (`PoolStep`). A step that is refused leaves the memory as it was. `ScratchPool.Changes`
says all that a step can do, and every invariant below is read off it.

Reservations only grow, so a pool knows the largest size and the largest number of threads among
them (`ScratchPool.reserved_after`). Allocation settles a pool: its buffers hold what is reserved,
with a cache line to spare (`ScratchPool.settled_allocate`). A settled pool hands out one slice of
the reserved size per thread, on a cache line inside the buffer of the thread, wherever the buffers
lie (`ScratchPool.slices_of_settled`), and it stays settled until a reservation grows, so that
allocating in between changes nothing (`ScratchPool.settled_after`).

Both are put together in `ScratchPool.honours_reservations`. That no two slices overlap depends on
where the buffers come to lie; it holds if no allocation puts two buffers over each other.
-/

namespace LoopNest

variable {α : Type}

/-! ## Steps -/

/-- One use of scratch memory. -/
inductive PoolStep (α : Type) where
  /-- Reserves bytes for each of a number of threads. -/
  | reserve (size threads : Nat)
  /-- Allocates what is reserved; the buffer of thread `i` comes to lie at `place i`. -/
  | allocate (place : Nat → Nat)
  /-- Hands out the slices of all threads. -/
  | lend
  /-- Overwrites the slice of one thread; cell `i` gets the value `contents i`. -/
  | fill (thread : Nat) (contents : Nat → α)

namespace PoolStep

/-- Bytes that a step reserves for each thread. -/
def bytes : PoolStep α → Nat
  | reserve size _ => size
  | _ => 0

/-- Number of threads for which a step reserves memory. -/
def threads : PoolStep α → Nat
  | reserve _ threads => threads
  | _ => 0

end PoolStep

namespace ScratchPool

/-- The pool after every cell of the slice of one thread got a new value. -/
def overwrite (pool : ScratchPool α) (thread : Nat) (contents : Nat → α) :
    Except Error (ScratchPool α) := do
  match (← pool.slices)[thread]? with
  | some slice =>
      return pool.write thread (Array.ofFn fun i : Fin slice.cells.size => contents i)
  | none => .error (.undefined .indexInRange)

/-- To fill a slice is to overwrite its cells with one value. -/
theorem fill_eq_overwrite (pool : ScratchPool α) (thread : Nat) (x : α) :
    pool.fill thread x = pool.overwrite thread fun _ => x := by
  have hcells : ∀ size, Array.replicate size x = Array.ofFn fun _ : Fin size => x := fun size =>
    Array.ext (by simp) (by simp)
  refine bind_congr fun slices => ?_
  cases slices[thread]? with
  | none => rfl
  | some slice =>
      show Except.ok (pool.write thread (Array.replicate slice.cells.size x)) = _
      rw [hcells]
      rfl

/-- The pool after a step that is not refused. -/
def use (blank : α) (pool : ScratchPool α) : PoolStep α → Except Error (ScratchPool α)
  | .reserve size threads => .ok (pool.reserve size threads)
  | .allocate place => .ok (pool.allocate place blank)
  | .lend => pool.slices.map fun _ => pool
  | .fill thread contents => pool.overwrite thread contents

/-- The pool after a series of steps. A step that is refused leaves it as it was. -/
def after (blank : α) (pool : ScratchPool α) (steps : List (PoolStep α)) : ScratchPool α :=
  steps.foldl (fun pool step => (pool.use blank step).toOption.getD pool) pool

/-- All that a step can do: only allocating replaces buffers, and only reserving changes what is
reserved. -/
inductive Changes (blank : α) (pool : ScratchPool α) : PoolStep α → ScratchPool α → Prop where
  | reserve (size threads : Nat) :
      Changes blank pool (.reserve size threads) (pool.reserve size threads)
  | allocate (place : Nat → Nat) : Changes blank pool (.allocate place) (pool.allocate place blank)
  | lend : Changes blank pool .lend pool
  | fill {next : ScratchPool α} (thread : Nat) (contents : Nat → α)
      (h : next.outline = pool.outline) : Changes blank pool (.fill thread contents) next

/-- Overwriting a slice keeps the outline of a pool. -/
theorem outline_overwrite {pool next : ScratchPool α} {thread : Nat} {contents : Nat → α}
    (h : pool.overwrite thread contents = .ok next) : next.outline = pool.outline := by
  obtain ⟨slices, hslices, h⟩ := bind_eq_ok.1 h
  split at h
  · rename_i slice hslice
    obtain rfl := pure_eq_ok.1 h
    -- the slice that is overwritten is as long as that of the pool without contents
    have houtline : pool.outline.slices = .ok (slices.map ScratchSlice.outline) := by
      rw [slices_outline, hslices]
      rfl
    have hlent : (slices.map ScratchSlice.outline)[thread]? = some slice.outline := by
      rw [List.getElem?_map, hslice]
      rfl
    apply outline_write houtline hlent
    rw [Array.size_ofFn, ScratchSlice.outline, Array.size_map]
  · cases h

theorem changes_use (blank : α) (pool : ScratchPool α) (step : PoolStep α) :
    pool.Changes blank step ((pool.use blank step).toOption.getD pool) := by
  cases step with
  | reserve size threads => exact .reserve size threads
  | allocate place => exact .allocate place
  | lend =>
      -- handing out slices leaves the pool, also where it is refused
      have hkept : (pool.use blank .lend).toOption.getD pool = pool := by
        rw [use]
        cases pool.slices with
        | error e => rfl
        | ok slices => rfl
      rw [hkept]
      exact .lend
  | fill thread contents =>
      apply Changes.fill
      cases h : pool.overwrite thread contents with
      | error e =>
          rw [use, h]
          rfl
      | ok next =>
          rw [use, h]
          exact outline_overwrite h

theorem after_concat (blank : α) (pool : ScratchPool α) (steps : List (PoolStep α))
    (step : PoolStep α) :
    (pool.after blank steps).Changes blank step (pool.after blank (steps ++ [step])) := by
  rw [after, after, List.foldl_append]
  exact changes_use blank _ step

theorem after_allocate (blank : α) (pool : ScratchPool α) (steps : List (PoolStep α))
    (place : Nat → Nat) :
    pool.after blank (steps ++ [.allocate place]) =
      (pool.after blank steps).allocate place blank := by
  rw [after, after, List.foldl_append]
  rfl

end ScratchPool

/-! ## What is reserved -/

/-- The largest amount that one of the steps reserves. -/
def mostReserved (amount : PoolStep α → Nat) (steps : List (PoolStep α)) : Nat :=
  steps.foldr (fun step most => max (amount step) most) 0

theorem mostReserved_append (amount : PoolStep α → Nat) (xs ys : List (PoolStep α)) :
    mostReserved amount (xs ++ ys) = max (mostReserved amount xs) (mostReserved amount ys) := by
  induction xs with
  | nil => exact (Nat.zero_max _).symm
  | cons x xs ih =>
      show max (amount x) (mostReserved amount (xs ++ ys)) = _
      rw [ih, ← max_assoc]
      rfl

theorem mostReserved_concat (amount : PoolStep α → Nat) (xs : List (PoolStep α))
    (x : PoolStep α) :
    mostReserved amount (xs ++ [x]) = max (mostReserved amount xs) (amount x) := by
  rw [mostReserved_append]
  exact congrArg _ (Nat.max_zero _)

namespace ScratchPool

/-- A step changes what is reserved by its own reservation, and never the size of a cell. -/
theorem Changes.reserved {blank : α} {pool next : ScratchPool α} {step : PoolStep α}
    (h : pool.Changes blank step next) :
    next.unit = pool.unit ∧ next.size = max pool.size step.bytes ∧
      next.threads = max pool.threads step.threads := by
  cases h with
  | reserve size threads => exact ⟨rfl, rfl, rfl⟩
  | allocate place =>
      obtain ⟨hsize, hthreads⟩ := pool.size_allocate place blank
      exact ⟨pool.unit_allocate place blank, hsize.trans (Nat.max_zero _).symm,
        hthreads.trans (Nat.max_zero _).symm⟩
  | lend => exact ⟨rfl, (Nat.max_zero _).symm, (Nat.max_zero _).symm⟩
  | fill thread contents houtline =>
      have hunit := congrArg ScratchPool.unit houtline
      have hsize := congrArg ScratchPool.size houtline
      have hthreads := congrArg ScratchPool.threads houtline
      exact ⟨hunit, hsize.trans (Nat.max_zero _).symm, hthreads.trans (Nat.max_zero _).symm⟩

/-- A new pool of bytes. -/
def fresh : ScratchPool α := { unit := 1 }

/-- A pool has reserved the most that any step reserved. -/
theorem reserved_after (blank : α) (steps : List (PoolStep α)) :
    (fresh.after blank steps).unit = 1 ∧
      (fresh.after blank steps).size = mostReserved PoolStep.bytes steps ∧
      (fresh.after blank steps).threads = mostReserved PoolStep.threads steps := by
  induction steps using List.reverseRecOn with
  | nil => exact ⟨rfl, rfl, rfl⟩
  | append_singleton steps step ih =>
      obtain ⟨hunit, hsize, hthreads⟩ := ih
      obtain ⟨hunit', hsize', hthreads'⟩ := (after_concat blank fresh steps step).reserved
      rw [mostReserved_concat, mostReserved_concat, hunit', hsize', hthreads', hunit, hsize,
        hthreads]
      exact ⟨rfl, rfl, rfl⟩

/-! ## Settled memory -/

/-- There is memory for what is reserved, or no byte is reserved. -/
def Settled (pool : ScratchPool α) : Prop := (pool.isAllocated || pool.size = 0) = true

theorem isAllocated_outline (pool : ScratchPool α) :
    pool.outline.isAllocated = pool.isAllocated := by
  simp [isAllocated, outline, ScratchBuffer.outline, Function.comp_def]

theorem settled_outline {pool : ScratchPool α} : pool.outline.Settled ↔ pool.Settled := by
  rw [Settled, Settled, isAllocated_outline]
  rfl

/-- Allocating changes nothing about settled memory. -/
theorem Settled.allocate_eq_self {pool : ScratchPool α} (h : pool.Settled) (place : Nat → Nat)
    (blank : α) : pool.allocate place blank = pool := if_pos h

/-- Allocation settles memory. -/
theorem settled_allocate {pool : ScratchPool α} (hunit : pool.unit = 1) (place : Nat → Nat)
    (blank : α) : (pool.allocate place blank).Settled := by
  by_cases h : pool.Settled
  · rwa [h.allocate_eq_self]
  · have hmade : pool.allocate place blank = _ := if_neg h
    rw [hmade]
    apply Bool.or_eq_true_iff.2
    left
    simp [isAllocated, hunit]

/-- A step that reserves no more than is reserved keeps memory settled. -/
theorem Changes.settled {blank : α} {pool next : ScratchPool α} {step : PoolStep α}
    (h : pool.Changes blank step next) (hbytes : step.bytes ≤ pool.size)
    (hthreads : step.threads ≤ pool.threads) (hsettled : pool.Settled) : next.Settled := by
  cases h with
  | reserve size threads =>
      have hkept : pool.reserve size threads = pool := reserve_eq_self hbytes hthreads
      rwa [hkept]
  | allocate place => rwa [hsettled.allocate_eq_self]
  | lend => exact hsettled
  | fill thread contents houtline => rwa [← settled_outline, houtline, settled_outline]

/-- Memory stays settled after an allocation until a reservation grows. -/
theorem settled_after (blank : α) (before later : List (PoolStep α)) (place : Nat → Nat)
    (hbytes : mostReserved PoolStep.bytes (before ++ .allocate place :: later) =
      mostReserved PoolStep.bytes before)
    (hthreads : mostReserved PoolStep.threads (before ++ .allocate place :: later) =
      mostReserved PoolStep.threads before) :
    (fresh.after blank (before ++ .allocate place :: later)).Settled := by
  induction later using List.reverseRecOn with
  | nil =>
      rw [after_allocate]
      exact settled_allocate (reserved_after blank before).1 place blank
  | append_singleton later step ih =>
      rw [← List.cons_append, ← List.append_assoc] at hbytes hthreads ⊢
      rw [mostReserved_concat] at hbytes hthreads
      -- nothing had grown before the last step either
      have hgrows : ∀ amount : PoolStep α → Nat, mostReserved amount before ≤
          mostReserved amount (before ++ .allocate place :: later) := by
        intro amount
        rw [mostReserved_append]
        exact le_max_left _ _
      have hbefore := hgrows PoolStep.bytes
      have hbefore' := hgrows PoolStep.threads
      obtain ⟨-, hsize, hcount⟩ := reserved_after blank (before ++ .allocate place :: later)
      apply (after_concat blank fresh _ step).settled
      · omega
      · omega
      · exact ih (by omega) (by omega)

/-! ## Slices of settled memory -/

/-- The slice of a buffer of bytes. -/
def lent (pool : ScratchPool α) (buffer : ScratchBuffer α) : ScratchSlice α :=
  ⟨buffer.address + buffer.gap, pool.size, buffer.cells.extract buffer.gap (buffer.gap + pool.size)⟩

/-- A slice starts on a cache line, wherever its buffer lies. -/
theorem dvd_address_lent (pool : ScratchPool α) (buffer : ScratchBuffer α) :
    64 ∣ (pool.lent buffer).address := by
  show 64 ∣ buffer.address + (64 - buffer.address % 64) % 64
  omega

/-- The buffers of settled memory reach behind their slices. -/
theorem Settled.gap_add_size_le {pool : ScratchPool α} (h : pool.Settled) (hunit : pool.unit = 1)
    (hsize : pool.size ≠ 0) : pool.buffers.length = pool.threads ∧
      ∀ buffer ∈ pool.buffers, buffer.gap + pool.size ≤ buffer.cells.size := by
  rcases Bool.or_eq_true_iff.1 h with hallocated | hzero
  · obtain ⟨hlength, hlong⟩ := Bool.and_eq_true_iff.1 hallocated
    refine ⟨of_decide_eq_true hlength, fun buffer hbuffer => ?_⟩
    have hspare := of_decide_eq_true (List.all_eq_true.1 hlong buffer hbuffer)
    have hgap := gap_lt buffer
    rw [hunit, Nat.mul_one] at hspare
    omega
  · exact absurd (of_decide_eq_true hzero) hsize

/-- Settled memory hands out the slice of every buffer. -/
theorem Settled.slices_eq {pool : ScratchPool α} (h : pool.Settled) (hunit : pool.unit = 1)
    (hsize : pool.size ≠ 0) : pool.slices = .ok (pool.buffers.map pool.lent) := by
  obtain ⟨hlength, hlong⟩ := h.gap_add_size_le hunit hsize
  rw [slices]
  split
  · rename_i hempty
    -- bytes are reserved, but for no thread
    rw [or_iff_right hsize] at hempty
    rw [hempty, List.length_nil] at hlength
    rw [hempty, ← hlength]
    rfl
  · rw [mapM_eq_ok, List.forall₂_map_right_iff, List.forall₂_same]
    intro buffer hbuffer
    rw [sliceOf, hunit, Nat.div_one, Nat.div_one]
    exact if_pos (hlong buffer hbuffer)

/-- No two buffers lie over each other. -/
def Apart (pool : ScratchPool α) : Prop :=
  pool.buffers.Pairwise fun a b => a.address + a.cells.size * pool.unit ≤ b.address ∨
    b.address + b.cells.size * pool.unit ≤ a.address

theorem apart_outline {pool : ScratchPool α} : pool.outline.Apart ↔ pool.Apart := by
  simp [Apart, outline, ScratchBuffer.outline, List.pairwise_map]

end ScratchPool

/-- Two slices do not overlap. -/
def ScratchSlice.Disjoint (a b : ScratchSlice α) : Prop :=
  a.address + a.bytes ≤ b.address ∨ b.address + b.bytes ≤ a.address

namespace ScratchPool

/-- Settled memory hands out one slice of the reserved size per thread, on a cache line. The slices
do not overlap if the buffers do not. -/
theorem slices_of_settled {pool : ScratchPool α} (h : pool.Settled) (hunit : pool.unit = 1) :
    ∃ slices, pool.slices = .ok slices ∧ slices.length = pool.threads ∧
      (∀ slice ∈ slices, slice.bytes = pool.size ∧ slice.cells.size = pool.size ∧
        (0 < pool.size → 64 ∣ slice.address)) ∧
      (pool.Apart → slices.Pairwise ScratchSlice.Disjoint) := by
  by_cases hsize : pool.size = 0
  · -- without bytes every thread gets an empty slice, whatever buffers there are
    refine ⟨List.replicate pool.threads ⟨0, 0, #[]⟩, ?_, List.length_replicate, ?_, fun _ => ?_⟩
    · rw [slices, if_pos (.inl hsize)]
    · intro slice hslice
      obtain rfl := List.eq_of_mem_replicate hslice
      exact ⟨hsize.symm, hsize.symm, fun hpos => absurd hsize hpos.ne'⟩
    · exact List.pairwise_replicate.2 (.inr (.inl (Nat.le_refl 0)))
  · obtain ⟨hlength, hlong⟩ := h.gap_add_size_le hunit hsize
    refine ⟨_, h.slices_eq hunit hsize, by rw [List.length_map, hlength], ?_, fun hapart => ?_⟩
    · intro slice hslice
      obtain ⟨buffer, hbuffer, rfl⟩ := List.mem_map.1 hslice
      have hfits := hlong buffer hbuffer
      refine ⟨rfl, ?_, fun _ => pool.dvd_address_lent buffer⟩
      rw [lent, Array.size_extract, Nat.min_eq_left hfits, Nat.add_sub_cancel_left]
    · -- a slice ends where its buffer ends, at the latest
      refine List.pairwise_map.2 (hapart.imp_of_mem fun {a b} ha hb hab => ?_)
      have hfitsA := hlong a ha
      have hfitsB := hlong b hb
      rw [hunit, Nat.mul_one, Nat.mul_one] at hab
      show a.address + a.gap + pool.size ≤ b.address + b.gap ∨
        b.address + b.gap + pool.size ≤ a.address + a.gap
      omega

/-! ## Where buffers lie -/

/-- A placement of buffers that never puts one of them over another. -/
def PlacesApart (place : Nat → Nat) (threads bytes : Nat) : Prop :=
  ∀ i j, i < threads → j < threads → i ≠ j →
    place i + bytes ≤ place j ∨ place j + bytes ≤ place i

/-- Every allocation among the steps puts the buffers for what is reserved by then apart, each with
a cache line to spare. -/
def AllocatesApart (steps : List (PoolStep α)) : Prop :=
  ∀ before place later, steps = before ++ .allocate place :: later →
    PlacesApart place (mostReserved PoolStep.threads before)
      (mostReserved PoolStep.bytes before + cacheLine)

theorem apart_allocate {pool : ScratchPool α} (hunit : pool.unit = 1) {place : Nat → Nat}
    (hplace : PlacesApart place pool.threads (pool.size + cacheLine)) (blank : α)
    (hapart : pool.Apart) : (pool.allocate place blank).Apart := by
  rw [allocate]
  split
  · exact hapart
  · refine List.pairwise_map.2 (List.nodup_range.pairwise_of_forall_ne fun i hi j hj hne => ?_)
    dsimp only
    rw [Array.size_replicate, hunit, Nat.div_one, Nat.mul_one]
    exact hplace i j (List.mem_range.1 hi) (List.mem_range.1 hj) hne

/-- Buffers that are put apart stay apart. -/
theorem apart_after (blank : α) {steps : List (PoolStep α)} (h : AllocatesApart steps) :
    (fresh.after blank steps).Apart := by
  induction steps using List.reverseRecOn with
  | nil => exact List.Pairwise.nil
  | append_singleton steps step ih =>
      -- an allocation among the first steps is one among all steps
      have hsteps : AllocatesApart steps := by
        rintro before place later rfl
        exact h before place (later ++ [step]) (by simp)
      have hapart := ih hsteps
      obtain ⟨hunit, hsize, hthreads⟩ := reserved_after blank steps
      have hstep := after_concat blank fresh steps step
      generalize fresh.after blank (steps ++ [step]) = next at hstep ⊢
      cases hstep with
      | reserve size threads => exact hapart
      | allocate place =>
          apply apart_allocate hunit _ blank hapart
          rw [hsize, hthreads]
          exact h steps place [] rfl
      | lend => exact hapart
      | fill thread contents houtline => rwa [← apart_outline, houtline, apart_outline]

/-! ## Reservations are honoured -/

/-- Whatever was done with scratch memory before, right after an allocation it hands out one slice
per thread, each as long as the largest size reserved so far and on a cache line, and no two of them
overlap where buffers do not. An allocation since which no reservation grew has nothing to do for
the next one, which leaves the memory with all contents as it is. -/
theorem honours_reservations (blank : α) (history : List (PoolStep α)) (place : Nat → Nat) :
    (∃ slices, (fresh.after blank (history ++ [.allocate place])).slices = .ok slices ∧
      slices.length = mostReserved PoolStep.threads history ∧
      (∀ slice ∈ slices, slice.bytes = mostReserved PoolStep.bytes history ∧
        slice.cells.size = mostReserved PoolStep.bytes history ∧
        (0 < mostReserved PoolStep.bytes history → 64 ∣ slice.address)) ∧
      (AllocatesApart (history ++ [.allocate place]) → slices.Pairwise ScratchSlice.Disjoint)) ∧
    ∀ before earlier later, history = before ++ .allocate earlier :: later →
      mostReserved PoolStep.bytes history = mostReserved PoolStep.bytes before →
      mostReserved PoolStep.threads history = mostReserved PoolStep.threads before →
      fresh.after blank (history ++ [.allocate place]) = fresh.after blank history := by
  constructor
  · obtain ⟨hunit, hsize, hthreads⟩ := reserved_after blank history
    obtain ⟨hkeptSize, hkeptThreads⟩ := (fresh.after blank history).size_allocate place blank
    have hsettled := settled_allocate hunit place blank
    have hbytes := ((fresh.after blank history).unit_allocate place blank).trans hunit
    obtain ⟨slices, hslices, hlength, hall, hapart⟩ := slices_of_settled hsettled hbytes
    rw [hkeptSize, hsize] at hall
    rw [after_allocate]
    refine ⟨slices, hslices, by rw [hlength, hkeptThreads, hthreads], hall, fun hplaces => ?_⟩
    apply hapart
    rw [← after_allocate]
    exact apart_after blank hplaces
  · rintro before earlier later rfl hbytes hthreads
    have hsettled := settled_after blank before later earlier hbytes hthreads
    rw [after_allocate]
    exact hsettled.allocate_eq_self place blank

/-- Buffers in pages of their own, none of them on a cache line. -/
def inPages (thread : Nat) : Nat := 4096 * thread + 16

/-- Memory that is allocated and written, and then asked for less than it has. -/
def smallerRequest : List (PoolStep UInt8) :=
  [.reserve 100 3, .allocate inPages, .fill 1 fun cell => cell.toUInt8, .reserve 40 2]

theorem allocatesApart_smallerRequest :
    AllocatesApart (smallerRequest ++ [.allocate inPages]) := by
  intro before place later hsteps
  have hmem : .allocate place ∈ smallerRequest ++ [.allocate inPages] := by
    rw [hsteps]
    exact List.mem_append_right _ List.mem_cons_self
  obtain rfl : place = inPages := by simpa [smallerRequest] using hmem
  have hbytes : mostReserved PoolStep.bytes before ≤ 100 := by
    have hall : mostReserved PoolStep.bytes (smallerRequest ++ [.allocate inPages]) = 100 := rfl
    rw [hsteps, mostReserved_append] at hall
    omega
  intro i j _ _ hne
  unfold inPages cacheLine
  omega

/-- Three threads keep their slices of 100 bytes, and what was written to them, when less is
reserved for fewer threads. -/
theorem honours_reservations_smallerRequest :
    (∃ slices, (fresh.after 0 (smallerRequest ++ [.allocate inPages])).slices = .ok slices ∧
      slices.length = 3 ∧ (∀ slice ∈ slices, slice.cells.size = 100 ∧ 64 ∣ slice.address) ∧
      slices.Pairwise ScratchSlice.Disjoint) ∧
    fresh.after 0 (smallerRequest ++ [.allocate inPages]) = fresh.after 0 smallerRequest := by
  obtain ⟨⟨slices, hslices, hlength, hall, hapart⟩, hkept⟩ :=
    honours_reservations 0 smallerRequest inPages
  refine ⟨⟨slices, hslices, hlength, fun slice hslice => ?_, ?_⟩, ?_⟩
  · obtain ⟨-, hcells, haligned⟩ := hall slice hslice
    exact ⟨hcells, haligned (by decide)⟩
  · exact hapart allocatesApart_smallerRequest
  · exact hkept [.reserve 100 3] inPages _ rfl rfl rfl

end ScratchPool

end LoopNest
