import LoopNest.Scratch
import LoopNest.Proofs.Checked

/-!
# What scratch memory holds

All slices of a pool have one length (`ScratchPool.sliceBytes`) and at least the cells that fit into
it. A manager that was checked hands out no longer ones, so every slice has what is required of it
(`ScratchManager.required_le_sliceBytes`). Allocating keeps the size of a cell, and writing keeps
the length of the slices too.

A check fails if fewer slices are handed out than there are threads, or if one of those for the
threads is too short (`ScratchManager.FallsShort`); it says how many there are and how long the
shortest of them is (`ScratchManager.check_eq_threadMemory_iff`).

The outline of scratch memory is what it is apart from its contents. What is handed out and what a
check says depends on the outline only, and writing a slice keeps it (`ScratchPool.outline_write`).

Allocated memory can always be handed out (`ScratchPool.exists_slices_of_allocate`). A new manager has
what is provided (`ScratchManager.check_provide`), and providing it twice is as good as once
(`ScratchManager.pool_provide_provide`).
-/

namespace LoopNest

variable {α : Type}

namespace ScratchPool

/-- Bytes of each slice of a pool. -/
def sliceBytes (pool : ScratchPool α) : Nat :=
  if pool.size = 0 ∨ pool.buffers = [] then 0 else pool.size

/-- Allocating does not change the size of a cell. -/
theorem unit_allocate (pool : ScratchPool α) (place : Nat → Nat) (blank : α) :
    (pool.allocate place blank).unit = pool.unit := by
  rw [allocate]
  split
  · rfl
  · rfl

/-- A pool hands out slices of one length, with at least as many cells. -/
theorem size_of_mem_slices {pool : ScratchPool α} {slices : List (ScratchSlice α)}
    (h : pool.slices = .ok slices) {slice : ScratchSlice α} (hslice : slice ∈ slices) :
    slice.bytes = pool.sliceBytes ∧ pool.sliceBytes / pool.unit ≤ slice.cells.size := by
  unfold ScratchPool.slices at h
  unfold sliceBytes
  split at h
  · rename_i hempty
    obtain rfl := Except.ok.inj h
    obtain rfl := List.eq_of_mem_replicate hslice
    rw [if_pos hempty]
    exact ⟨rfl, by simp⟩
  · rename_i hfull
    rw [if_neg hfull]
    obtain ⟨buffer, -, hbuffer⟩ := exists_left_of_forall₂ (mapM_eq_ok.1 h) hslice
    unfold sliceOf at hbuffer
    dsimp only at hbuffer
    split at hbuffer
    · rename_i hstop
      obtain rfl := Except.ok.inj hbuffer
      refine ⟨rfl, ?_⟩
      rw [Array.size_extract, Nat.min_eq_left hstop]
      have := @Nat.div_add_div_le_add_div buffer.gap pool.size pool.unit
      omega
    · exact absurd hbuffer (by simp)

/-- Writing changes neither the size of a cell nor the length of the slices. -/
theorem foldl_write {β : Type} (slice : β → Nat × Array α) (pool : ScratchPool α) (bs : List β) :
    (bs.foldl (fun pool b => pool.write (slice b).1 (slice b).2) pool).unit = pool.unit ∧
      (bs.foldl (fun pool b => pool.write (slice b).1 (slice b).2) pool).sliceBytes =
        pool.sliceBytes := by
  induction bs generalizing pool with
  | nil => exact ⟨rfl, rfl⟩
  | cons b bs ih =>
      have hkept : (pool.write (slice b).1 (slice b).2).sliceBytes = pool.sliceBytes := by
        simp [sliceBytes, write]
      exact ⟨(ih _).1, (ih _).2.trans hkept⟩

end ScratchPool

/-! ## Outlines -/

/-- A buffer without its contents. -/
def ScratchBuffer.outline (buffer : ScratchBuffer α) : ScratchBuffer Unit :=
  ⟨buffer.address, buffer.cells.map fun _ => ()⟩

/-- A slice that starts where another one does, on the same memory, and is no longer. -/
structure ScratchSlice.StartsAs (slice origin : ScratchSlice α) : Prop where
  address : slice.address = origin.address
  cells : slice.cells = origin.cells
  bytes : slice.bytes ≤ origin.bytes

theorem ScratchSlice.StartsAs.refl (slice : ScratchSlice α) : slice.StartsAs slice :=
  ⟨rfl, rfl, Nat.le_refl _⟩

/-- A slice without its contents. -/
def ScratchSlice.outline (slice : ScratchSlice α) : ScratchSlice Unit :=
  ⟨slice.address, slice.bytes, slice.cells.map fun _ => ()⟩

namespace ScratchPool

/-- A pool without the contents of its buffers. -/
def outline (pool : ScratchPool α) : ScratchPool Unit :=
  ⟨pool.unit, pool.size, pool.threads, pool.buffers.map ScratchBuffer.outline⟩

variable (pool : ScratchPool α)

theorem sliceOf_outline (buffer : ScratchBuffer α) :
    pool.outline.sliceOf buffer.outline = (pool.sliceOf buffer).map ScratchSlice.outline := by
  have hsize : buffer.outline.cells.size = buffer.cells.size := Array.size_map
  unfold sliceOf
  dsimp only
  rw [hsize, show pool.outline.unit = pool.unit from rfl, show pool.outline.size = pool.size from rfl,
    show buffer.outline.gap = buffer.gap from rfl]
  split
  · simp only [Except.map, ScratchSlice.outline, ScratchBuffer.outline, Array.map_extract]
  · rfl

/-- The slices without their contents are those of the pool without its contents. -/
theorem slices_outline :
    pool.outline.slices = pool.slices.map (List.map ScratchSlice.outline) := by
  unfold slices
  have hempty : (pool.outline.size = 0 ∨ pool.outline.buffers = []) ↔
      (pool.size = 0 ∨ pool.buffers = []) := or_congr_right List.map_eq_nil_iff
  by_cases h : pool.size = 0 ∨ pool.buffers = []
  · rw [if_pos h, if_pos (hempty.2 h)]
    simp [Except.map, outline, ScratchSlice.outline]
  · rw [if_neg h, if_neg (hempty.not.2 h), outline]
    dsimp only
    rw [List.mapM_map]
    exact mapM_map pool.sliceOf_outline _

/-- Writing into a buffer keeps its size if what is written fits. -/
theorem outline_fillSlice {buffer : ScratchBuffer α} {contents : Array α}
    (h : contents.size = 0 ∨ buffer.gap / pool.unit + contents.size ≤ buffer.cells.size) :
    (pool.fillSlice buffer contents).outline = buffer.outline := by
  have hsize : (pool.fillSlice buffer contents).cells.size = buffer.cells.size := by
    unfold fillSlice
    generalize buffer.gap / pool.unit = start at h ⊢
    simp only [Array.size_append, Array.size_extract]
    omega
  have hcells : (pool.fillSlice buffer contents).cells.map (fun _ => ()) =
      buffer.cells.map fun _ => () := Array.ext (by simp [hsize]) fun _ _ _ => rfl
  exact congrArg (ScratchBuffer.mk buffer.address) hcells

variable {pool}

/-- The slice of a thread lies within the buffer of the thread. -/
theorem slice_fits {slices : List (ScratchSlice α)} (h : pool.slices = .ok slices) {thread : Nat}
    {slice : ScratchSlice α} (hslice : slices[thread]? = some slice) {buffer : ScratchBuffer α}
    (hbuffer : pool.buffers[thread]? = some buffer) :
    slice.cells.size = 0 ∨ buffer.gap / pool.unit + slice.cells.size ≤ buffer.cells.size := by
  unfold ScratchPool.slices at h
  split at h
  · obtain rfl := Except.ok.inj h
    obtain rfl := List.eq_of_mem_replicate (List.mem_of_getElem? hslice)
    exact .inl rfl
  · obtain ⟨hthread, rfl⟩ := List.getElem?_eq_some_iff.1 hslice
    obtain ⟨hlt, rfl⟩ := List.getElem?_eq_some_iff.1 hbuffer
    have hof : pool.sliceOf pool.buffers[thread] = .ok slices[thread] :=
      (List.forall₂_iff_get.1 (mapM_eq_ok.1 h)).2 thread hlt hthread
    unfold sliceOf at hof
    dsimp only at hof
    split at hof
    · rename_i hstop
      rw [← Except.ok.inj hof, Array.size_extract, Nat.min_eq_left hstop]
      have := Nat.div_le_div_right (c := pool.unit)
        (Nat.le_add_right pool.buffers[thread].gap pool.size)
      omega
    · exact absurd hof (by simp)

/-- Writing as many cells as the slice of a thread has keeps the outline of a pool. -/
theorem outline_write {slices : List (ScratchSlice Unit)} (h : pool.outline.slices = .ok slices)
    {thread : Nat} {slice : ScratchSlice Unit} (hslice : slices[thread]? = some slice)
    {contents : Array α} (hsize : contents.size = slice.cells.size) :
    (pool.write thread contents).outline = pool.outline := by
  have hbuffers : (pool.buffers.modify thread fun buffer => pool.fillSlice buffer contents).map
      ScratchBuffer.outline = pool.buffers.map ScratchBuffer.outline := by
    refine List.ext_getElem? fun i => ?_
    rw [List.getElem?_map, List.getElem?_map, List.getElem?_modify]
    cases hbuffer : pool.buffers[i]? with
    | none => rfl
    | some buffer =>
        refine congrArg some ?_
        dsimp only
        split
        · rename_i hthread
          subst hthread
          have houtline : pool.outline.buffers[thread]? = some buffer.outline := by
            rw [outline, List.getElem?_map, hbuffer]
            rfl
          have hfits := slice_fits h hslice houtline
          rw [← hsize, ScratchBuffer.outline, Array.size_map] at hfits
          exact pool.outline_fillSlice hfits
        · rfl
  exact congrArg (ScratchPool.mk pool.unit pool.size pool.threads) hbuffers

/-- Writing to several threads keeps the outline of a pool. -/
theorem outline_foldl_write {β : Type} {slices : List (ScratchSlice Unit)} {contents : β → Array α}
    {ps : List (β × Nat)} (h : pool.outline.slices = .ok slices)
    (hps : ∀ p ∈ ps, ∃ slice, slices[p.2]? = some slice ∧ (contents p.1).size = slice.cells.size) :
    (ps.foldl (fun pool p => pool.write p.2 (contents p.1)) pool).outline = pool.outline := by
  induction ps generalizing pool with
  | nil => rfl
  | cons p ps ih =>
      obtain ⟨⟨slice, hslice, hsize⟩, hps⟩ := List.forall_mem_cons.1 hps
      have hwrite := outline_write h hslice hsize
      exact (ih (by rwa [hwrite]) hps).trans hwrite

end ScratchPool

namespace ScratchManager

/-- A manager without the contents of its pool. -/
def outline (manager : ScratchManager α) : ScratchManager Unit :=
  ⟨manager.pool.outline, manager.limits, manager.reservations⟩

/-- The slices handed out, without their contents, are those of the outline. -/
theorem slices_outline (manager : ScratchManager α) :
    manager.outline.slices = manager.slices.map (List.map ScratchSlice.outline) := by
  unfold slices
  rw [show manager.outline.pool = manager.pool.outline from rfl, ScratchPool.slices_outline,
    show manager.outline.limits = manager.limits from rfl]
  cases manager.pool.slices with
  | error e => rfl
  | ok slices =>
      cases manager.limits with
      | none => rfl
      | some limits =>
          refine congrArg Except.ok ?_
          rw [← List.map_take, List.map_map, List.map_map]
          rfl

/-- What is handed out does not depend on the contents of the memory. -/
theorem handedOut_outline (manager : ScratchManager α) :
    manager.outline.handedOut = manager.handedOut := by
  unfold handedOut
  rw [slices_outline]
  cases manager.slices with
  | error e => rfl
  | ok slices =>
      refine congrArg Except.ok ?_
      rw [List.map_map]
      rfl

/-- Neither does what is found missing. -/
theorem check_outline (manager : ScratchManager α) (threads required : Nat) :
    manager.outline.check threads required = manager.check threads required := by
  rw [check, check, handedOut_outline]

variable {manager : ScratchManager α}

/-- Reserving and allocating memory does not change the size of a cell. -/
theorem unit_provide (manager : ScratchManager α) (size threads : Nat) (blank : α) :
    (manager.provide size threads blank).pool.unit = manager.pool.unit :=
  ScratchPool.unit_allocate (manager.pool.reserve size threads) _ blank

/-- The slices that are handed out are slices of the pool from the first one on, each of them from
its start on. -/
theorem slices_eq_ok {slices : List (ScratchSlice α)} (h : manager.slices = .ok slices) :
    ∃ whole, manager.pool.slices = .ok whole ∧
      ∀ {thread : Nat} {slice : ScratchSlice α}, slices[thread]? = some slice →
        ∃ origin, whole[thread]? = some origin ∧ slice.StartsAs origin := by
  obtain ⟨whole, hwhole, h⟩ := bind_eq_ok.1 h
  refine ⟨whole, hwhole, fun {thread slice} hslice => ?_⟩
  split at h
  · -- the manager is bounded
    rename_i limits _
    obtain rfl := pure_eq_ok.1 h
    rw [List.getElem?_map, Option.map_eq_some_iff] at hslice
    obtain ⟨origin, horigin, rfl⟩ := hslice
    rw [List.getElem?_take] at horigin
    split at horigin
    · exact ⟨origin, horigin, rfl, rfl, Nat.min_le_right _ _⟩
    · cases horigin
  · obtain rfl := pure_eq_ok.1 h
    exact ⟨slice, hslice, .refl slice⟩

/-- A slice that is handed out is a slice of the pool, from its start on. -/
theorem exists_of_mem_slices {slices : List (ScratchSlice α)} (h : manager.slices = .ok slices)
    {slice : ScratchSlice α} (hslice : slice ∈ slices) :
    ∃ whole, manager.pool.slices = .ok whole ∧ ∃ origin ∈ whole, slice.StartsAs origin := by
  obtain ⟨whole, hwhole, hstarts⟩ := slices_eq_ok h
  obtain ⟨thread, hthread⟩ := List.getElem?_of_mem hslice
  obtain ⟨origin, horigin, hstart⟩ := hstarts hthread
  exact ⟨whole, hwhole, origin, List.mem_of_getElem? horigin, hstart⟩

/-- Managers of one pool hand out the same memory, whatever their bounds. -/
theorem cells_eq_of_pool_eq {manager' : ScratchManager α} (hpool : manager'.pool = manager.pool)
    {slices slices' : List (ScratchSlice α)} (h : manager.slices = .ok slices)
    (h' : manager'.slices = .ok slices') {thread : Nat} {slice slice' : ScratchSlice α}
    (hslice : slices[thread]? = some slice) (hslice' : slices'[thread]? = some slice') :
    slice'.cells = slice.cells := by
  obtain ⟨whole, hwhole, hstarts⟩ := slices_eq_ok h
  obtain ⟨whole', hwhole', hstarts'⟩ := slices_eq_ok h'
  rw [hpool] at hwhole'
  obtain rfl := Except.ok.inj (hwhole.symm.trans hwhole')
  obtain ⟨origin, horigin, hstart⟩ := hstarts hslice
  obtain ⟨origin', horigin', hstart'⟩ := hstarts' hslice'
  obtain rfl := Option.some.inj (horigin.symm.trans horigin')
  exact hstart'.cells.trans hstart.cells.symm

/-- No slice that is handed out is longer than those of the pool. -/
theorem bytes_le_sliceBytes {slices : List (ScratchSlice α)} (h : manager.slices = .ok slices)
    {slice : ScratchSlice α} (hslice : slice ∈ slices) :
    slice.bytes ≤ manager.pool.sliceBytes := by
  obtain ⟨whole, hwhole, origin, horigin, hstart⟩ := exists_of_mem_slices h hslice
  exact hstart.bytes.trans (ScratchPool.size_of_mem_slices hwhole horigin).1.le

theorem handedOut_eq_ok {lengths : List Nat} (h : manager.handedOut = .ok lengths) :
    ∃ slices, manager.slices = .ok slices ∧ lengths = slices.map ScratchSlice.bytes := by
  obtain ⟨slices, hslices, h⟩ := bind_eq_ok.1 h
  exact ⟨slices, hslices, (pure_eq_ok.1 h).symm⟩

/-- Fewer slices are handed out than there are threads, or one of those for the threads is too
short. -/
def FallsShort (lengths : List Nat) (threads required : Nat) : Prop :=
  lengths.length < threads ∨ ∃ length ∈ lengths.take threads, length < required

/-- The length of the shortest of the slices for the threads. -/
def shortestOf (lengths : List Nat) (threads : Nat) : Nat := ((lengths.take threads).min?).getD 0

/-- What is handed out falls short: there are `slices` slices, and the shortest of those for the
threads has `shortest` bytes. -/
def Lacks (manager : ScratchManager α) (threads slices required shortest : Nat) : Prop :=
  ∃ lengths, manager.handedOut = .ok lengths ∧ FallsShort lengths threads required ∧
    slices = lengths.length ∧ shortest = shortestOf lengths threads

/-- The shortest slice decides. -/
theorem fallsShort_iff {lengths : List Nat} {threads required : Nat} (hthreads : 1 ≤ threads) :
    FallsShort lengths threads required ↔
      lengths.length < threads ∨ shortestOf lengths threads < required := by
  by_cases henough : lengths.length < threads
  · exact ⟨fun _ => .inl henough, fun _ => .inl henough⟩
  · have hne : lengths.take threads ≠ [] := by
      intro hnil
      rcases List.take_eq_nil_iff.1 hnil with hzero | hnil
      · omega
      · rw [hnil] at henough
        exact henough hthreads
    obtain ⟨least, hleast⟩ : ∃ least, (lengths.take threads).min? = some least := by
      apply Option.isSome_iff_exists.1
      rw [Option.isSome_iff_ne_none]
      intro hnone
      exact hne (List.min?_eq_none_iff.1 hnone)
    obtain ⟨hmem, hle⟩ := List.min?_eq_some_iff.1 hleast
    rw [FallsShort, shortestOf, hleast, Option.getD_some]
    apply or_congr_right
    constructor
    · rintro ⟨length, hlength, hshort⟩
      exact lt_of_le_of_lt (hle length hlength) hshort
    · intro hshort
      exact ⟨least, hmem, hshort⟩

section Check

variable {lengths : List Nat} (hlengths : manager.handedOut = .ok lengths) {threads required : Nat}
  (hthreads : 1 ≤ threads)

include hlengths

theorem check_eq_ite :
    manager.check threads required =
      if lengths.length < threads ∨ shortestOf lengths threads < required then
        .error (.threadMemory threads lengths.length required (shortestOf lengths threads))
      else .ok () := by
  rw [check, hlengths]
  rfl

/-- Where memory can be handed out, a check is refused for lack of it only. -/
theorem check_eq_error {e : Error} (h : manager.check threads required = .error e) :
    ∃ slices shortest, e = .threadMemory threads slices required shortest := by
  rw [check_eq_ite hlengths] at h
  split at h
  · exact ⟨_, _, (Except.error.inj h).symm⟩
  · cases h

include hthreads

/-- A check is passed if nothing falls short. -/
theorem check_eq_ok_iff :
    manager.check threads required = .ok () ↔ ¬FallsShort lengths threads required := by
  rw [check_eq_ite hlengths, fallsShort_iff hthreads, guard_eq_ok, and_iff_left rfl]

/-- A check says what falls short. -/
theorem check_eq_threadMemory_iff {threads' slices required' shortest : Nat} :
    manager.check threads required = .error (.threadMemory threads' slices required' shortest) ↔
      threads' = threads ∧ required' = required ∧
        manager.Lacks threads slices required shortest := by
  rw [check_eq_ite hlengths]
  split
  · rename_i hshort
    constructor
    · intro heq
      obtain ⟨rfl, rfl, rfl, rfl⟩ := Error.threadMemory.inj (Except.error.inj heq)
      exact ⟨rfl, rfl, lengths, hlengths, (fallsShort_iff hthreads).2 hshort, rfl, rfl⟩
    · rintro ⟨rfl, rfl, lengths', hlengths', -, rfl, rfl⟩
      obtain rfl := Except.ok.inj (hlengths.symm.trans hlengths')
      rfl
  · rename_i henough
    constructor
    · intro heq
      cases heq
    · rintro ⟨-, -, lengths', hlengths', hshort, -⟩
      obtain rfl := Except.ok.inj (hlengths.symm.trans hlengths')
      exact absurd ((fallsShort_iff hthreads).1 hshort) henough

end Check

/-- If a manager has what is required of it, so have the slices of its pool. -/
theorem required_le_sliceBytes {threads required : Nat}
    (hcheck : manager.check threads required = .ok ()) (hthreads : 1 ≤ threads) :
    required ≤ manager.pool.sliceBytes := by
  obtain ⟨lengths, hlengths, -⟩ := bind_eq_ok.1 hcheck
  obtain ⟨slices, hslices, rfl⟩ := handedOut_eq_ok hlengths
  rw [check_eq_ok_iff hlengths hthreads, FallsShort, not_or, not_lt] at hcheck
  obtain ⟨henough, hlong⟩ := hcheck
  -- the slice of the first thread will do
  have hfirst : 0 < (slices.map ScratchSlice.bytes).length := by omega
  have hmem : (slices.map ScratchSlice.bytes)[0] ∈ (slices.map ScratchSlice.bytes).take threads := by
    rw [List.mem_take_iff_getElem]
    exact ⟨0, by omega, rfl⟩
  by_contra hshort
  obtain ⟨slice, hslice, hbytes⟩ := List.mem_map.1 (List.mem_of_mem_take hmem)
  have := bytes_le_sliceBytes hslices hslice
  exact hlong ⟨_, hmem, by omega⟩

end ScratchManager

/-! ## New memory -/

namespace ScratchPool

/-- Buffers on cache lines hold slices of the size that was reserved. -/
theorem slices_replicate {unit size threads : Nat} {cells : Array α}
    (hcells : size / unit ≤ cells.size) (hsize : size ≠ 0) (hthreads : threads ≠ 0) :
    (slices ⟨unit, size, threads, List.replicate threads ⟨0, cells⟩⟩).map
      (List.map ScratchSlice.bytes) = .ok (List.replicate threads size) := by
  have hgap : (⟨0, cells⟩ : ScratchBuffer α).gap = 0 := by simp [ScratchBuffer.gap, cacheLine]
  have hslice : ∃ slice, sliceOf ⟨unit, size, threads, List.replicate threads ⟨0, cells⟩⟩ ⟨0, cells⟩ =
      .ok slice ∧ slice.bytes = size := by
    unfold sliceOf
    dsimp only
    rw [hgap, Nat.zero_add, if_pos hcells]
    exact ⟨_, rfl, rfl⟩
  obtain ⟨slice, hslice, hbytes⟩ := hslice
  have hall : (List.replicate threads ⟨0, cells⟩).mapM
      (sliceOf ⟨unit, size, threads, List.replicate threads ⟨0, cells⟩⟩) =
        .ok (List.replicate threads slice) := by
    rw [mapM_eq_ok, List.forall₂_iff_get]
    simp [hslice]
  rw [slices, if_neg (by simp [hsize, hthreads])]
  dsimp only
  rw [hall]
  simp [Except.map, hbytes]

/-- A new pool hands out what is reserved and allocated. -/
theorem slices_allocate (unit size threads : Nat) (blank : α) :
    ((({ unit := unit } : ScratchPool α).reserve size threads).allocate (fun _ => 0) blank).slices.map
      (List.map ScratchSlice.bytes) = .ok (List.replicate threads size) := by
  rw [reserve, Nat.zero_max, Nat.zero_max, allocate]
  split
  · rename_i hempty
    rw [slices, if_pos (.inr rfl)]
    simp only [isAllocated, Bool.or_eq_true, Bool.and_eq_true, decide_eq_true_eq] at hempty
    rcases hempty with ⟨hthreads, -⟩ | rfl
    · rw [← hthreads]
      rfl
    · simp [Except.map]
  · rename_i hallocates
    have hsize : size ≠ 0 := fun hzero => hallocates (by simp [hzero])
    have hthreads : threads ≠ 0 := fun hzero => hallocates (by simp [isAllocated, hzero])
    dsimp only
    rw [List.map_const', List.length_range]
    refine slices_replicate ?_ hsize hthreads
    rw [Array.size_replicate]
    exact Nat.div_le_div_right (Nat.le_add_right _ _)

end ScratchPool

/-! ## Memory after allocation -/

namespace ScratchPool

theorem gap_lt (buffer : ScratchBuffer α) : buffer.gap < cacheLine :=
  Nat.mod_lt _ (by decide)

/-- Buffers that reach behind their slices have slices. -/
theorem exists_slices {pool : ScratchPool α} (hfits : ∀ buffer ∈ pool.buffers,
    (buffer.gap + pool.size) / pool.unit ≤ buffer.cells.size) :
    ∃ slices, pool.slices = .ok slices := by
  rw [slices]
  split
  · exact ⟨_, rfl⟩
  · apply exists_mapM_iff.2
    intro buffer hbuffer
    rw [sliceOf]
    rw [if_pos (hfits buffer hbuffer)]
    exact ⟨_, rfl⟩

/-- After allocation there are slices, whatever was allocated before. -/
theorem exists_slices_of_allocate (pool : ScratchPool α) (place : Nat → Nat) (blank : α) :
    ∃ slices, (pool.allocate place blank).slices = .ok slices := by
  rw [allocate]
  -- memory that is kept was long enough; memory that is made is made to measure
  split
  · rename_i hkept
    rcases Bool.or_eq_true_iff.1 hkept with hallocated | hempty
    · apply exists_slices
      intro buffer hbuffer
      have hlong : pool.size + cacheLine ≤ buffer.cells.size * pool.unit := by
        have hall := (Bool.and_eq_true_iff.1 hallocated).2
        exact of_decide_eq_true (List.all_eq_true.1 hall buffer hbuffer)
      have hgap := gap_lt buffer
      apply Nat.div_le_of_le_mul
      rw [mul_comm]
      omega
    · rw [slices, if_pos (.inl (of_decide_eq_true hempty))]
      exact ⟨_, rfl⟩
  · apply exists_slices
    intro buffer hbuffer
    obtain ⟨thread, -, rfl⟩ := List.mem_map.1 hbuffer
    have hgap := gap_lt (⟨place thread, Array.replicate ((pool.size + cacheLine) / pool.unit) blank⟩)
    dsimp only
    rw [Array.size_replicate]
    apply Nat.div_le_div_right
    omega

theorem size_allocate (pool : ScratchPool α) (place : Nat → Nat) (blank : α) :
    (pool.allocate place blank).size = pool.size ∧
      (pool.allocate place blank).threads = pool.threads := by
  rw [allocate]
  split
  · exact ⟨rfl, rfl⟩
  · exact ⟨rfl, rfl⟩

/-- Allocating a second time changes nothing: buffers that are not kept are made anew as they
were. -/
theorem allocate_allocate (pool : ScratchPool α) (place : Nat → Nat) (blank : α) :
    (pool.allocate place blank).allocate place blank = pool.allocate place blank := by
  by_cases hkeeps : (pool.isAllocated || pool.size = 0) = true
  · have hkept : pool.allocate place blank = pool := if_pos hkeeps
    rw [hkept, hkept]
  · have hmade : pool.allocate place blank = _ := if_neg hkeeps
    rw [hmade, allocate]
    split
    · rfl
    · rfl

/-- Reserving what is reserved already changes nothing. -/
theorem reserve_eq_self {pool : ScratchPool α} {size threads : Nat} (hsize : size ≤ pool.size)
    (hthreads : threads ≤ pool.threads) : pool.reserve size threads = pool := by
  rw [reserve, max_eq_left hsize, max_eq_left hthreads]

end ScratchPool

namespace ScratchManager

/-- Providing the same memory a second time leaves the pool as it is. -/
theorem pool_provide_provide (manager : ScratchManager α) (size threads : Nat) (blank : α) :
    ((manager.provide size threads blank).provide size threads blank).pool =
      (manager.provide size threads blank).pool := by
  obtain ⟨hsize, hthreads⟩ :=
    (manager.pool.reserve size threads).size_allocate (fun _ => 0) blank
  have hreserved : (manager.provide size threads blank).pool.reserve size threads =
      (manager.provide size threads blank).pool :=
    ScratchPool.reserve_eq_self (hsize ▸ le_max_right _ _) (hthreads ▸ le_max_right _ _)
  rw [provide, hreserved]
  exact ScratchPool.allocate_allocate _ _ _

/-- What the pool has is handed out, up to the bounds. -/
theorem exists_slices {manager : ScratchManager α}
    (h : ∃ slices, manager.pool.slices = .ok slices) :
    ∃ slices, manager.slices = .ok slices := by
  obtain ⟨slices, hslices⟩ := h
  rw [ScratchManager.slices, hslices]
  cases manager.limits with
  | none => exact ⟨_, rfl⟩
  | some limits => exact ⟨_, rfl⟩

theorem exists_handedOut {manager : ScratchManager α}
    (h : ∃ slices, manager.pool.slices = .ok slices) :
    ∃ lengths, manager.handedOut = .ok lengths := by
  obtain ⟨slices, hslices⟩ := exists_slices h
  rw [handedOut, hslices]
  exact ⟨_, rfl⟩

/-- Memory that was provided can be handed out. -/
theorem exists_handedOut_provide (manager : ScratchManager α) (size threads : Nat) (blank : α) :
    ∃ lengths, (manager.provide size threads blank).handedOut = .ok lengths :=
  exists_handedOut (ScratchPool.exists_slices_of_allocate _ _ _)

/-- A new manager passes the check for what it provides. -/
theorem check_provide (unit size : Nat) {threads : Nat} (hthreads : 1 ≤ threads) (blank : α) :
    (({ pool := { unit := unit } } : ScratchManager α).provide size threads blank).check threads
      size = .ok () := by
  have hslices := ScratchPool.slices_allocate unit size threads blank
  have hhanded : (({ pool := { unit := unit } } : ScratchManager α).provide size threads
      blank).handedOut = .ok (List.replicate threads size) := by
    rw [← hslices, handedOut, ScratchManager.slices, provide]
    dsimp only
    cases ((({ unit := unit } : ScratchPool α).reserve size threads).allocate (fun _ => 0)
      blank).slices <;> rfl
  rw [check_eq_ok_iff hhanded hthreads]
  rintro (hfew | ⟨length, hlength, hshort⟩)
  · rw [List.length_replicate] at hfew
    omega
  · obtain rfl := List.eq_of_mem_replicate (List.mem_of_mem_take hlength)
    omega

end ScratchManager

end LoopNest
