import LoopNest.Proofs.Launch.Brackets

/-!
# Touch kernels bracket the reduction

If K loops do not move the output and no two index tuples of the other loops meet in it, every
output tile belongs to one thread, and the kernel calls on it are one call of the first touch
kernel, one main-kernel call for each index tuple of the K loops outside the kernel, and one call of
the last touch kernel, in this order.

The tiles of a thread are the offsets of its share (`Program.tilesOf`); those of all threads are the
offsets of the loops outside the kernel and the reduction (`Program.flatMap_tilesOf_perm`), so two
threads have no tile in common. The main statement is `touchBracketed_launchCalls`.
-/

namespace LoopNest

variable {α : Type}

namespace Program

variable {program : Program} {before omp sfc after kernel : List Loop}

/-- The tiles of a thread. -/
def tilesOf (program : Program) (stride : Loop → Operands Int) (before after : List Loop)
    (thread : Nat) : List (Operands Int) :=
  program.shareOffsets (program.layout.shareOf thread)
    (offsets stride (before.filter fun loop => !loop.isReduction))
    (offsets stride (after.filter fun loop => !loop.isReduction))

/-- The steps of the reduction that a thread goes through on each of its tiles. -/
def stepsOf (program : Program) (stride : Loop → Operands Int) (before after : List Loop) :
    List (Operands Int) :=
  sumset (offsets stride (before.filter Loop.isReduction))
    (sumset [0] (sumset ((upTo program.layout.kTasks).map (program.axisOffset .k))
      (offsets stride (after.filter Loop.isReduction))))

variable {stride : Loop → Operands Int}

/-- The SFC loops outside the reduction. -/
theorem filter_sfc_perm (hbuilt : program.IsBuilt)
    (hcut : Layout.Cut program.layout.loops before omp sfc after kernel) :
    (sfc.filter fun loop => !loop.isReduction).Perm
        (program.layout.loops.filter (Loop.isSfcOn .m) ++
          program.layout.loops.filter (Loop.isSfcOn .n)) ∧
      (sfc.filter Loop.isReduction).Perm (program.layout.loops.filter (Loop.isSfcOn .k)) := by
  have haxis : ∀ (axis : Axis) (p : Loop → Bool) (b : Bool),
      (∀ loop : Loop, loop.axis = axis → p loop = b) →
        (program.layout.loops.filter (Loop.isSfcOn axis)).filter p =
          if b then program.layout.loops.filter (Loop.isSfcOn axis) else [] := by
    intro axis p b hp
    have hall : ∀ loop ∈ program.layout.loops.filter (Loop.isSfcOn axis), p loop = b := by
      intro loop hloop
      have := (Bool.and_eq_true_iff.1 (List.mem_filter.1 hloop).2).2
      exact hp loop (of_decide_eq_true this)
    cases b with
    | true => exact List.filter_eq_self.2 hall
    | false => exact List.filter_eq_nil_iff.2 fun loop hloop => by rw [hall loop hloop]; simp
  have hperm := hbuilt.sound.filter_isSfc_perm
  rw [hcut.filter_sfc] at hperm
  constructor
  · refine (hperm.filter _).trans (List.Perm.of_eq ?_)
    rw [List.filter_append, List.filter_append,
      haxis .m _ true fun loop h => by simp [Loop.isReduction, h],
      haxis .n _ true fun loop h => by simp [Loop.isReduction, h],
      haxis .k _ false fun loop h => by simp [Loop.isReduction, h]]
    simp
  · refine (hperm.filter _).trans (List.Perm.of_eq ?_)
    rw [List.filter_append, List.filter_append,
      haxis .m _ false fun loop h => by simp [Loop.isReduction, h],
      haxis .n _ false fun loop h => by simp [Loop.isReduction, h],
      haxis .k _ true fun loop h => by simp [Loop.isReduction, h]]
    simp

/-- OMP loops do not belong to the reduction. -/
theorem isReduction_of_omp (hbuilt : program.IsBuilt)
    (hcut : Layout.Cut program.layout.loops before omp sfc after kernel) {loop : Loop}
    (hloop : loop ∈ omp) : loop.isReduction = false := by
  rw [← hcut.filter_omp] at hloop
  obtain ⟨hloop, homp⟩ := List.mem_filter.1 hloop
  exact decide_eq_false (hbuilt.sound.ompAxis loop hloop homp)

/-- The shares of all threads have the tiles of the loops `moves` outside the kernel, if these are
all OMP loops and all SFC loops of M and N. -/
theorem flatMap_shareOffsets_filter (hbuilt : program.IsBuilt) (hkeeps : program.KeepsParallel stride)
    (hcut : Layout.Cut program.layout.loops before omp sfc after kernel) {moves : Loop → Bool}
    (homp : ∀ loop ∈ omp, moves loop = true)
    (hsfc : (sfc.filter moves).Perm (program.layout.loops.filter (Loop.isSfcOn .m) ++
      program.layout.loops.filter (Loop.isSfcOn .n))) :
    ((List.range program.layout.threads.total).flatMap fun thread =>
      program.shareOffsets (program.layout.shareOf thread) (offsets stride (before.filter moves))
        (offsets stride (after.filter moves))).Perm
      (offsets stride ((outerLoops program.layout.loops).filter moves)) := by
  have hcurve := offsets_perm Loop.strides hsfc
  rw [← hkeeps.offsets_sfc hcut fun loop hloop => List.mem_of_mem_filter hloop,
    offsets_append] at hcurve
  refine (flatMap_shareOffsets hbuilt _ _).trans ?_
  rw [hcut.outerLoops_eq, List.filter_append, List.filter_append, List.filter_append,
    List.filter_eq_self.2 homp, offsets_append, offsets_append, offsets_append,
    hkeeps.offsets_omp hcut, hcut.filter_omp]
  exact sumset_perm (List.Perm.refl _) (sumset_perm (List.Perm.refl _)
    (sumset_perm_left hcurve.symm _))

/-- The tiles of all threads are those of the loops outside the kernel and the reduction. -/
theorem flatMap_tilesOf_perm (hbuilt : program.IsBuilt) (hkeeps : program.KeepsParallel stride)
    (hcut : Layout.Cut program.layout.loops before omp sfc after kernel) :
    ((List.range program.layout.threads.total).flatMap
      (program.tilesOf stride before after)).Perm
      (offsets stride ((outerLoops program.layout.loops).filter fun loop =>
        !loop.isReduction)) := by
  apply flatMap_shareOffsets_filter hbuilt hkeeps hcut
  · intro loop hloop
    rw [isReduction_of_omp hbuilt hcut hloop]
    rfl
  · exact (filter_sfc_perm hbuilt hcut).1

/-- The steps of the reduction are those of the K loops outside the kernel. -/
theorem stepsOf_perm (hbuilt : program.IsBuilt) (hkeeps : program.KeepsParallel stride)
    (hcut : Layout.Cut program.layout.loops before omp sfc after kernel) :
    (program.stepsOf stride before after).Perm
      (offsets stride ((outerLoops program.layout.loops).filter Loop.isReduction)) := by
  have homp : omp.filter Loop.isReduction = [] :=
    List.filter_eq_nil_iff.2 fun loop hloop => by
      rw [isReduction_of_omp hbuilt hcut hloop]
      simp
  have hsfc := offsets_perm Loop.strides (filter_sfc_perm hbuilt hcut).2
  rw [← hkeeps.offsets_sfc hcut fun loop hloop => List.mem_of_mem_filter hloop,
    ← map_axisOffset hbuilt] at hsfc
  rw [stepsOf, zero_sumset, hcut.outerLoops_eq, List.filter_append, List.filter_append,
    List.filter_append, homp, List.nil_append, offsets_append, offsets_append]
  exact sumset_perm (List.Perm.refl _) (sumset_perm_left hsfc.symm _)

/-- The schedules of all threads bracket the tiles of the threads, and no tile belongs to two
threads. -/
theorem brackets_launchVisits (hbuilt : program.IsBuilt) (hkeeps : program.KeepsParallel stride)
    (hcut : Layout.Cut program.layout.loops before omp sfc after kernel)
    (hk : ∀ loop ∈ program.layout.loops, loop.isReduction = true →
      loop.strides.out = 0 ∧ (stride loop).out = 0)
    (hout : ((offsets stride ((outerLoops program.layout.loops).filter fun loop =>
      !loop.isReduction)).map Operands.out).Nodup) {thread : Nat}
    (hthread : thread < program.layout.threads.total) :
    Brackets (program.threadVisits stride before after (program.layout.shareOf thread))
        (program.tilesOf stride before after thread) (program.stepsOf stride before after) ∧
      ∀ other < program.layout.threads.total, other ≠ thread →
        ∀ t ∈ program.tilesOf stride before after thread,
          ∀ u ∈ program.tilesOf stride before after other, u.out ≠ t.out := by
  rw [← ((flatMap_tilesOf_perm hbuilt hkeeps hcut).map _).nodup_iff, List.map_flatMap,
    List.nodup_flatMap] at hout
  obtain ⟨hown, hothers⟩ := hout
  have hthreads := List.mem_range.2 hthread
  obtain ⟨work, hdoes⟩ := hbuilt.exists_does hthread
  have hmem : ∀ loop ∈ before ++ after, loop ∈ program.layout.loops := fun loop hloop => by
    rw [hcut.append]
    rcases List.mem_append.1 hloop with h | h <;> simp [h]
  refine ⟨brackets_threadVisits hbuilt hdoes.m_pos hdoes.n_pos hdoes.omp_pos
    (fun loop hloop => hbuilt.sizes loop (hmem loop hloop)) (fun loop hloop h => (hk loop hloop h).1)
    (fun loop hloop h => (hk loop (hmem loop hloop) h).2) (hown thread hthreads), ?_⟩
  intro other hother hne t ht u hu heq
  have : Std.Symm (Function.onFun List.Disjoint fun thread =>
      (program.tilesOf stride before after thread).map Operands.out) := ⟨fun _ _ h => h.symm⟩
  refine hothers.forall (List.mem_range.2 hother) hthreads hne (List.mem_map_of_mem hu) ?_
  rw [heq]
  exact List.mem_map_of_mem ht

/-- Of lists that are joined, one may be all there is. -/
theorem flatMap_eq_of_only {ι β : Type} {f : ι → List β} {is : List ι} (hnodup : is.Nodup) {i : ι}
    (hi : i ∈ is) (honly : ∀ j ∈ is, j ≠ i → f j = []) : is.flatMap f = f i := by
  induction is with
  | nil => exact absurd hi List.not_mem_nil
  | cons j rest ih =>
      obtain ⟨hj, hrest⟩ := List.nodup_cons.1 hnodup
      rw [List.forall_mem_cons] at honly
      rw [List.flatMap_cons]
      rcases List.mem_cons.1 hi with rfl | hi
      · have hnil : rest.flatMap f = [] := List.flatMap_eq_nil_iff.2 fun k hk =>
          honly.2 k hk fun h => hj (h ▸ hk)
        rw [hnil, List.append_nil]
      · rw [honly.1 fun h => hj (h ▸ hi), List.nil_append, ih hrest hi honly.2]

/-- Where lists of visits reach tiles that do not meet, all visits of a tile are in one list. -/
theorem onTile_flatMap {ι : Type} {f : ι → List Visit} {tiles : ι → List (Operands Int)}
    {is : List ι} (hnodup : is.Nodup)
    (htile : ∀ i ∈ is, ∀ v ∈ f i, ∃ t ∈ tiles i, v.offset.out = t.out)
    (hout : ((is.flatMap tiles).map Operands.out).Nodup) {i : ι} (hi : i ∈ is) {t : Operands Int}
    (ht : t ∈ tiles i) : onTile (is.flatMap f) t.out = onTile (f i) t.out := by
  rw [List.map_flatMap, List.nodup_flatMap] at hout
  have : Std.Symm (Function.onFun List.Disjoint fun i => (tiles i).map Operands.out) :=
    ⟨fun _ _ h => h.symm⟩
  rw [onTile, List.filter_flatMap]
  refine flatMap_eq_of_only hnodup hi fun j hj hne => ?_
  rw [List.filter_eq_nil_iff]
  intro v hv heq
  obtain ⟨u, hu, hvu⟩ := htile j hj v hv
  refine hout.2.forall hj hi hne (List.mem_map_of_mem hu) ?_
  rw [← hvu, of_decide_eq_true heq]
  exact List.mem_map_of_mem ht

/-- The visits of a tile are those of its thread. -/
theorem onTile_launchVisits (hbuilt : program.IsBuilt) (hkeeps : program.KeepsParallel stride)
    (hcut : Layout.Cut program.layout.loops before omp sfc after kernel)
    (hk : ∀ loop ∈ program.layout.loops, loop.isReduction = true →
      loop.strides.out = 0 ∧ (stride loop).out = 0)
    (hout : ((offsets stride ((outerLoops program.layout.loops).filter fun loop =>
      !loop.isReduction)).map Operands.out).Nodup) {t : Operands Int}
    (ht : t ∈ offsets stride ((outerLoops program.layout.loops).filter fun loop =>
      !loop.isReduction)) :
    ∃ thread < program.layout.threads.total,
      t ∈ program.tilesOf stride before after thread ∧
        onTile (program.launchVisits stride before after) t.out =
          onTile (program.threadVisits stride before after (program.layout.shareOf thread))
            t.out := by
  have hbrackets : ∀ thread < program.layout.threads.total, _ := fun thread hthread =>
    brackets_launchVisits hbuilt hkeeps hcut hk hout hthread
  have htiles := flatMap_tilesOf_perm hbuilt hkeeps hcut
  obtain ⟨thread, hthread, ht⟩ := List.mem_flatMap.1 (htiles.mem_iff.2 ht)
  refine ⟨thread, List.mem_range.1 hthread, ht, ?_⟩
  apply onTile_flatMap List.nodup_range _ ((htiles.map _).nodup_iff.2 hout) hthread ht
  intro other hother
  exact (hbrackets other (List.mem_range.1 hother)).1.tile

/-- The schedules of all threads, one after the other, bracket the tiles. -/
theorem brackets_launchVisits_append (hbuilt : program.IsBuilt)
    (hkeeps : program.KeepsParallel stride)
    (hcut : Layout.Cut program.layout.loops before omp sfc after kernel)
    (hk : ∀ loop ∈ program.layout.loops, loop.isReduction = true →
      loop.strides.out = 0 ∧ (stride loop).out = 0)
    (hout : ((offsets stride ((outerLoops program.layout.loops).filter fun loop =>
      !loop.isReduction)).map Operands.out).Nodup) :
    Brackets (program.launchVisits stride before after)
      (offsets stride ((outerLoops program.layout.loops).filter fun loop => !loop.isReduction))
      (offsets stride ((outerLoops program.layout.loops).filter Loop.isReduction)) := by
  have htiles := flatMap_tilesOf_perm hbuilt hkeeps hcut
  have hsteps := stepsOf_perm hbuilt hkeeps hcut
  have hbrackets : ∀ thread < program.layout.threads.total, _ := fun thread hthread =>
    brackets_launchVisits hbuilt hkeeps hcut hk hout hthread
  refine ⟨fun v hv => ?_, fun t ht => ?_, fun t ht => ?_⟩
  · obtain ⟨thread, hmem, hv⟩ := List.mem_flatMap.1 hv
    obtain ⟨t, ht, hvt⟩ := (hbrackets thread (List.mem_range.1 hmem)).1.tile v hv
    exact ⟨t, htiles.mem_iff.1 (List.mem_flatMap.2 ⟨thread, hmem, ht⟩), hvt⟩
  · obtain ⟨thread, hlt, ht, honly⟩ := onTile_launchVisits hbuilt hkeeps hcut hk hout ht
    rw [honly, (hbrackets thread hlt).1.flags t ht, hsteps.length_eq]
  · obtain ⟨thread, hlt, ht, honly⟩ := onTile_launchVisits hbuilt hkeeps hcut hk hout ht
    rw [honly]
    exact ((hbrackets thread hlt).1.offsets t ht).trans (hsteps.map _)

end Program

open Program

/-! ## Kernel calls of a tile -/

/-- The output address of a kernel call. -/
def Sight.out : Sight → Int
  | .touch _ _ out => out
  | .main _ _ out => out

/-- A call of a touch kernel at an offset from the start of the buffers. -/
def touchSight (which : Touch) (base offset : Operands Int) : Sight :=
  .touch which (base.outAux + offset.outAux) (base.out + offset.out)

section Tile

variable {program : Program} {packed : Side → Bool} {base : Operands Int}

/-- The kernel calls of a visit, if there are both touch kernels. -/
theorem visitSights_eq (hfirst : program.kernels.first.isSome = true)
    (hlast : program.kernels.last.isSome = true) (v : Visit) :
    program.visitSights packed base v =
      (if v.first then [touchSight .first base v.offset] else []) ++
        (mainSight packed base v.offset ::
          if v.last then [touchSight .last base v.offset] else []) := by
  obtain ⟨offset, first, last⟩ := v
  cases first <;> cases last <;>
    simp [Program.visitSights, Program.kernelCalls, sights, hfirst, hlast] <;> rfl

theorem out_of_mem_visitSights {v : Visit} {s : Sight}
    (hs : s ∈ program.visitSights packed base v) : s.out = base.out + v.offset.out := by
  obtain ⟨call, hcall, hsight⟩ := List.mem_filterMap.1 hs
  obtain ⟨offset, first, last⟩ := v
  simp only [Program.kernelCalls, List.mem_append] at hcall
  rcases hcall with (hcall | hcall) | hcall
  · split at hcall
    · obtain rfl := List.mem_singleton.1 hcall
      obtain rfl := Option.some.inj hsight
      rfl
    · simp at hcall
  · obtain rfl := List.mem_singleton.1 hcall
    obtain rfl := Option.some.inj hsight
    rfl
  · split at hcall
    · obtain rfl := List.mem_singleton.1 hcall
      obtain rfl := Option.some.inj hsight
      rfl
    · simp at hcall

/-- The kernel calls on a tile are those of its visits. -/
theorem filter_out_sights (vs : List Visit) (out : Int) :
    (vs.flatMap (program.visitSights packed base)).filter (fun s => s.out = base.out + out) =
      (onTile vs out).flatMap (program.visitSights packed base) := by
  induction vs with
  | nil => rfl
  | cons v rest ih =>
      have hsame : ∀ s ∈ program.visitSights packed base v,
          decide (s.out = base.out + out) = decide (v.offset.out = out) := fun s hs => by
        rw [out_of_mem_visitSights hs, decide_eq_decide]
        omega
      rw [List.flatMap_cons, List.filter_append, ih, List.filter_congr hsame, onTile, onTile,
        List.filter_cons]
      by_cases hv : v.offset.out = out
      · simp [hv]
      · simp [hv]

theorem touchSight_congr (which : Touch) {offset tile : Operands Int}
    (h : offset.out = tile.out ∧ offset.outAux = tile.outAux) :
    touchSight which base offset = touchSight which base tile := by
  rw [touchSight, touchSight, h.1, h.2]

/-- The kernel calls of the visits of a tile after the first one. -/
theorem flatMap_visitSights_tail (hfirst : program.kernels.first.isSome = true)
    (hlast : program.kernels.last.isSome = true) {tile : Operands Int} {vs : List Visit}
    (htile : ∀ v ∈ vs, v.offset.out = tile.out ∧ v.offset.outAux = tile.outAux) {count : Nat}
    (hflags : vs.map Visit.flags =
      (List.range count).map fun i => (false, decide (i + 1 = count))) :
    vs.flatMap (program.visitSights packed base) =
      vs.map (fun v => mainSight packed base v.offset) ++
        if count = 0 then [] else [touchSight .last base tile] := by
  -- the flags of the tail are false but for the last
  induction vs generalizing count with
  | nil =>
      have hcount : count = 0 := by simpa [eq_comm] using congrArg List.length hflags
      rw [if_pos hcount]
      rfl
  | cons v rest ih =>
      obtain ⟨count, rfl⟩ : ∃ rest, count = rest + 1 :=
        Nat.exists_eq_succ_of_ne_zero (by rintro rfl; simp at hflags)
      rw [List.range_succ_eq_map, List.map_cons, List.map_cons, List.map_map, List.cons.injEq,
        Visit.flags, Prod.mk.injEq] at hflags
      obtain ⟨⟨hv, hv'⟩, hrest⟩ := hflags
      rw [List.forall_mem_cons] at htile
      have hcalls := ih htile.2 (hrest.trans (List.map_congr_left fun i _ => by simp))
      rw [List.flatMap_cons, hcalls, visitSights_eq hfirst hlast, hv, hv',
        touchSight_congr .last htile.1, List.map_cons]
      cases rest with
      | nil =>
          have hzero : count = 0 := by simpa [eq_comm] using congrArg List.length hrest
          simp [hzero]
      | cons w rest =>
          have hpos : count ≠ 0 := by rintro rfl; simp at hrest
          simp [hpos, eq_comm]

variable (packed base) in
/-- The kernel calls of a run of visits of one tile. -/
theorem flatMap_visitSights_run (hfirst : program.kernels.first.isSome = true)
    (hlast : program.kernels.last.isSome = true) {tile : Operands Int} {vs : List Visit}
    (htile : ∀ v ∈ vs, v.offset.out = tile.out ∧ v.offset.outAux = tile.outAux) {count : Nat}
    (hcount : 1 ≤ count) (hflags : vs.map Visit.flags = bracketFlags count) :
    vs.flatMap (program.visitSights packed base) =
      touchSight .first base tile :: (vs.map (fun v => mainSight packed base v.offset) ++
        [touchSight .last base tile]) := by
  obtain ⟨count, rfl⟩ : ∃ rest, count = rest + 1 := ⟨count - 1, by omega⟩
  rw [bracketFlags, List.range_succ_eq_map, List.map_cons, List.map_map] at hflags
  -- only the first visit opens, and the tail closes the run
  cases vs with
  | nil => simp at hflags
  | cons v rest =>
      rw [List.map_cons, List.cons.injEq, Visit.flags, Prod.mk.injEq] at hflags
      obtain ⟨⟨hv, hv'⟩, hrest⟩ := hflags
      rw [List.forall_mem_cons] at htile
      have hcalls : rest.flatMap (program.visitSights packed base) = _ :=
        flatMap_visitSights_tail hfirst hlast htile.2
          (hrest.trans (List.map_congr_left fun i _ => by simp))
      rw [List.flatMap_cons, hcalls, visitSights_eq hfirst hlast, hv, hv',
        touchSight_congr .first htile.1, touchSight_congr .last htile.1, List.map_cons]
      by_cases hzero : count = 0
      · have hnil : rest = [] := by simpa [hzero] using hrest
        simp [hzero, hnil]
      · simp [hzero]

variable {vs : List Visit} {tiles steps : List (Operands Int)}

/-- The kernel calls of bracketed visits are made on their tiles. -/
theorem Brackets.exists_tile_of_mem_sights (h : Brackets vs tiles steps) {s : Sight}
    (hs : s ∈ vs.flatMap (program.visitSights packed base)) :
    ∃ t ∈ tiles, s.out = base.out + t.out := by
  obtain ⟨v, hv, hs⟩ := List.mem_flatMap.1 hs
  obtain ⟨t, ht, hvt⟩ := h.tile v hv
  exact ⟨t, ht, by rw [out_of_mem_visitSights hs, hvt]⟩

/-- The kernel calls of bracketed visits on one of their tiles. -/
theorem Brackets.filter_sights (h : Brackets vs tiles steps) (hsteps : 1 ≤ steps.length)
    (hstill : ∀ r ∈ steps, r.out = 0 ∧ r.outAux = 0)
    (hfirst : program.kernels.first.isSome = true) (hlast : program.kernels.last.isSome = true)
    {tile : Operands Int} (ht : tile ∈ tiles) :
    (vs.flatMap (program.visitSights packed base)).filter (fun s => s.out = base.out + tile.out) =
      touchSight .first base tile ::
        ((onTile vs tile.out).map (fun v => mainSight packed base v.offset) ++
          [touchSight .last base tile]) := by
  rw [filter_out_sights]
  exact flatMap_visitSights_run packed base hfirst hlast (fun v hv => h.stays hstill ht hv) hsteps
    (h.flags tile ht)

end Tile

/-- A list of results that belong to different indices, cut at one of them. -/
theorem exists_cut_of_forall₂ {ι β : Type} {R : ι → β → Prop} {is : List ι} {bs : List β}
    (h : List.Forall₂ R is bs) (hnodup : is.Nodup) {i : ι} (hi : i ∈ is) :
    ∃ earlier b later, bs = earlier ++ b :: later ∧ R i b ∧
      ∀ c ∈ earlier ++ later, ∃ j ∈ is, j ≠ i ∧ R j c := by
  induction h with
  | nil => simp at hi
  | @cons k b ks bs hkb hrest ih =>
      obtain ⟨hk, hks⟩ := List.nodup_cons.1 hnodup
      rcases List.mem_cons.1 hi with rfl | hi
      · refine ⟨[], b, bs, rfl, hkb, fun c hc => ?_⟩
        obtain ⟨j, hj, hjc⟩ := exists_left_of_forall₂ hrest hc
        exact ⟨j, List.mem_cons_of_mem _ hj, fun h => hk (h ▸ hj), hjc⟩
      · obtain ⟨earlier, c, later, rfl, hic, hothers⟩ := ih hks hi
        refine ⟨b :: earlier, c, later, rfl, hic, fun d hd => ?_⟩
        rcases List.mem_cons.1 hd with rfl | hd
        · exact ⟨k, List.mem_cons_self, fun h => hk (h ▸ hi), hkb⟩
        · obtain ⟨j, hj, hne, hjd⟩ := hothers d hd
          exact ⟨j, List.mem_cons_of_mem _ hj, hne, hjd⟩

/-- Number of index tuples of the loops of an axis. -/
theorem length_offsets_eq_sizeOfAxis (stride : Loop → Operands Int) {loops : List Loop}
    (hsize : ∀ loop ∈ loops, 1 ≤ loop.size) (axis : Axis) :
    ((offsets stride (loops.filter fun loop => loop.axis = axis)).length : Int) =
      sizeOfAxis loops axis := by
  have hlist : ∀ {run : List Loop}, (∀ loop ∈ run, 1 ≤ loop.size) →
      (((run.map fun loop => loop.size.toNat).prod : Nat) : Int) = (run.map Loop.size).prod := by
    intro run hrun
    induction run with
    | nil => rfl
    | cons loop run ih =>
        rw [List.forall_mem_cons] at hrun
        rw [List.map_cons, List.prod_cons, List.map_cons, List.prod_cons, ← ih hrun.2,
          Nat.cast_mul, Int.toNat_of_nonneg (by omega)]
  rw [length_offsets, sizeOfAxis, ← List.prod_eq_foldl]
  exact hlist fun loop hloop => hsize loop (List.mem_of_mem_filter hloop)

/-- A configured touch kernel is made. -/
theorem KernelTags.isSome_of_make {tags : KernelTags} {provider : Provider} {loops : List Loop}
    {kernels : KernelSet} (h : tags.make provider loops = .ok kernels) :
    (tags.first ≠ .undefined → kernels.first.isSome = true) ∧
      (tags.last ≠ .undefined → kernels.last.isSome = true) := by
  have hmake : ∀ {shape : KernelShape} {tag : KernelTag} {kernel : Option TouchKernel},
      makeTouch provider shape tag = .ok kernel → tag ≠ .undefined → kernel.isSome = true := by
    intro shape tag kernel hkernel htag
    rcases makeTouch_eq_ok hkernel with ⟨hundefined, -⟩ | ⟨made, -, rfl⟩
    · exact absurd hundefined htag
    · rfl
  obtain ⟨-, -, hfirst, hlast⟩ := make_eq_ok h
  exact ⟨hmake hfirst, hmake hlast⟩

/-- Outer loops do not meet in the output if all loops do not. -/
theorem nodup_outerLoops {stride : Loop → Operands Int} {stays : Loop → Bool} {loops : List Loop}
    (hkernel : KernelLast loops) (hsize : ∀ loop ∈ loops, 1 ≤ loop.size)
    (hout : ((offsets stride (loops.filter fun loop => !stays loop)).map
      Operands.out).Nodup) :
    ((offsets stride ((outerLoops loops).filter fun loop => !stays loop)).map
      Operands.out).Nodup := by
  rw [hkernel.offsets_filter] at hout
  refine nodup_of_nodup_sumset_left hout (offsets_filter_ne_nil stride (fun loop hloop => ?_) _)
  exact hsize loop (List.mem_of_mem_filter hloop)

/-- Kernel loops do not meet in the output if all loops do not. -/
theorem nodup_kernelLoops {stride : Loop → Operands Int} {stays : Loop → Bool} {loops : List Loop}
    (hkernel : KernelLast loops) (hsize : ∀ loop ∈ loops, 1 ≤ loop.size)
    (hout : ((offsets stride (loops.filter fun loop => !stays loop)).map
      Operands.out).Nodup) :
    ((offsets stride ((kernelLoops loops).filter fun loop => !stays loop)).map
      Operands.out).Nodup := by
  rw [hkernel.offsets_filter] at hout
  refine nodup_of_nodup_sumset_right hout (offsets_filter_ne_nil stride (fun loop hloop => ?_) _)
  exact hsize loop (List.mem_of_mem_filter hloop)

/-- The reduction has at least one step, and no step moves through the output if no loop of the
reduction does. -/
theorem reduction_stays {stride : Loop → Operands Int} {loops : List Loop}
    (hsize : ∀ loop ∈ loops, 1 ≤ loop.size)
    (hk : ∀ loop ∈ loops, loop.isReduction = true →
      (stride loop).out = 0 ∧ (stride loop).outAux = 0) :
    1 ≤ (offsets stride ((outerLoops loops).filter Loop.isReduction)).length ∧
      ∀ r ∈ offsets stride ((outerLoops loops).filter Loop.isReduction),
        r.out = 0 ∧ r.outAux = 0 := by
  have hmem : ∀ loop ∈ (outerLoops loops).filter Loop.isReduction,
      loop ∈ loops ∧ loop.isReduction = true := by
    intro loop hloop
    obtain ⟨hloop, hreduction⟩ := List.mem_filter.1 hloop
    exact ⟨List.mem_of_mem_filter hloop, hreduction⟩
  have hstays : ∀ loop ∈ (outerLoops loops).filter Loop.isReduction,
      (stride loop).out = 0 ∧ (stride loop).outAux = 0 := fun loop hloop =>
    hk loop (hmem loop hloop).1 (hmem loop hloop).2
  refine ⟨List.length_pos_of_mem (zero_mem_offsets stride fun loop hloop =>
    hsize loop (hmem loop hloop).1), fun r hr => ⟨?_, ?_⟩⟩
  · exact eq_zero_of_mem_offsets stride Operands.outHom (fun loop hloop => (hstays loop hloop).1) hr
  · exact eq_zero_of_mem_offsets stride Operands.outAuxHom (fun loop hloop => (hstays loop hloop).2)
      hr

/-- The calls of the threads of a launch, seen tile by tile: every kernel call is made on a tile,
and all calls on one tile are made by one thread, which calls the first touch kernel, then the main
kernel `count` times, then the last touch kernel. -/
structure TouchBracketed (packed : Side → Bool) (base : Operands Int)
    (tiles : List (Operands Int)) (count : Int) (lists : List (List Call)) : Prop where
  onTile : ∀ calls ∈ lists, ∀ s ∈ sights packed calls, ∃ tile ∈ tiles, s.out = base.out + tile.out
  bracket : ∀ tile ∈ tiles, ∃ earlier calls later mains, lists = earlier ++ calls :: later ∧
    (∀ other ∈ earlier ++ later, ∀ s ∈ sights packed other, s.out ≠ base.out + tile.out) ∧
    (sights packed calls).filter (fun s => s.out = base.out + tile.out) =
      touchSight .first base tile :: (mains ++ [touchSight .last base tile]) ∧
    (∀ s ∈ mains, s.isMain = true) ∧ (mains.length : Int) = count

/-- Threads that show the kernel calls of their schedules bracket the tiles. -/
theorem touchBracketed_of_sights {program : Program} (hbuilt : program.IsBuilt)
    {before omp sfc after kernel : List Loop}
    (hcut : Layout.Cut program.layout.loops before omp sfc after kernel)
    (hk : ∀ loop ∈ program.layout.loops, loop.isReduction = true →
      loop.strides.out = 0 ∧ loop.strides.outAux = 0)
    (hout : ((offsets Loop.strides ((outerLoops program.layout.loops).filter fun loop =>
      !loop.isReduction)).map Operands.out).Nodup)
    (hfirst : program.kernels.first.isSome = true) (hlast : program.kernels.last.isSome = true)
    {packed : Side → Bool} {base : Operands Int} {lists : List (List Call)}
    (hsights : List.Forall₂
      (fun thread calls => sights packed calls =
        (program.threadVisits Loop.strides before after (program.layout.shareOf thread)).flatMap
          (program.visitSights packed base))
      (List.range program.layout.threads.total) lists) :
    TouchBracketed packed base
      (offsets Loop.strides ((outerLoops program.layout.loops).filter fun loop =>
        !loop.isReduction))
      (sizeOfAxis (outerLoops program.layout.loops) .k) lists := by
  have hkeeps : program.KeepsParallel Loop.strides := fun _ _ _ => rfl
  have htiles := flatMap_tilesOf_perm hbuilt hkeeps hcut
  have hsteps := stepsOf_perm hbuilt hkeeps hcut
  obtain ⟨hpos, hstill⟩ := reduction_stays hbuilt.sizes hk
  rw [← hsteps.length_eq] at hpos
  simp only [← hsteps.mem_iff] at hstill
  have hbrackets : ∀ thread < program.layout.threads.total, _ := fun thread hthread =>
    brackets_launchVisits hbuilt hkeeps hcut (fun loop hloop h => ⟨(hk loop hloop h).1,
      (hk loop hloop h).1⟩) hout hthread
  have hvisit : ∀ {calls : List Call} {thread : Nat}, sights packed calls =
      (program.threadVisits Loop.strides before after (program.layout.shareOf thread)).flatMap
        (program.visitSights packed base) → thread < program.layout.threads.total →
      ∀ s ∈ sights packed calls, ∃ t ∈ program.tilesOf Loop.strides before after thread,
        s.out = base.out + t.out := by
    intro calls thread hcalls hthread s hs
    rw [hcalls] at hs
    exact (hbrackets thread hthread).1.exists_tile_of_mem_sights hs
  refine ⟨fun calls hcalls s hs => ?_, fun tile htile => ?_⟩
  · obtain ⟨thread, hthread, hthreadCalls⟩ := exists_left_of_forall₂ hsights hcalls
    obtain ⟨t, ht, hst⟩ := hvisit hthreadCalls (List.mem_range.1 hthread) s hs
    exact ⟨t, htiles.mem_iff.1 (List.mem_flatMap.2 ⟨thread, hthread, ht⟩), hst⟩
  · -- the thread of the tile makes all calls on it
    obtain ⟨thread, hthread, ht⟩ := List.mem_flatMap.1 (htiles.mem_iff.2 htile)
    obtain ⟨hbracket, hothers⟩ := hbrackets thread (List.mem_range.1 hthread)
    obtain ⟨earlier, calls, later, hlists, hcalls, hrest⟩ :=
      exists_cut_of_forall₂ hsights List.nodup_range hthread
    refine ⟨earlier, calls, later, (LoopNest.onTile (program.threadVisits Loop.strides before after
      (program.layout.shareOf thread)) tile.out).map fun v => mainSight packed base v.offset,
      hlists, fun other hother s hs heq => ?_, ?_, ?_, ?_⟩
    · obtain ⟨j, hj, hne, hjs⟩ := hrest other hother
      obtain ⟨u, hu, hsu⟩ := hvisit hjs (List.mem_range.1 hj) s hs
      exact hothers j (List.mem_range.1 hj) hne tile ht u hu (by omega)
    · rw [hcalls]
      exact hbracket.filter_sights hpos hstill hfirst hlast ht
    · intro s hs
      obtain ⟨v, -, rfl⟩ := List.mem_map.1 hs
      rfl
    · rw [List.length_map, hbracket.length_onTile ht, hsteps.length_eq]
      exact length_offsets_eq_sizeOfAxis _ (fun loop hloop =>
        hbuilt.sizes loop (List.mem_of_mem_filter hloop)) .k

/-- In every launch with two touch kernels, the touch kernels bracket the reduction on every output
tile. -/
theorem touchBracketed_launchCalls [Scalar α] (contraction : Contraction α)
    (hnew : contraction.program = none) (hkernel : KernelLast contraction.loops)
    (hk : ∀ loop ∈ contraction.loops, loop.isReduction = true →
      loop.strides.out = 0 ∧ loop.strides.outAux = 0)
    (hout : ((offsets Loop.strides (contraction.loops.filter fun loop =>
      !loop.isReduction)).map Operands.out).Nodup)
    (hfirst : contraction.tags.first ≠ .undefined) (hlast : contraction.tags.last ≠ .undefined)
    (requests : List (Request α)) {program : Program}
    (hcompiled : (requests.foldl Contraction.serve contraction).program = some program)
    (base : Operands Int) :
    TouchBracketed (packedIn contraction.loops) base
      (offsets Loop.strides ((outerLoops contraction.loops).filter fun loop =>
        !loop.isReduction))
      (sizeOfAxis (outerLoops contraction.loops) .k)
      (program.launchCalls (requests.foldl Contraction.serve contraction).states base) := by
  obtain ⟨hready, hsame⟩ := Contraction.isReady_foldl_serve
    (fun program hprogram => absurd (hnew.symm.trans hprogram) (by simp)) requests
  have hready := hready program hcompiled
  have hloops : program.layout.loops = contraction.loops := hready.loops.trans hsame.loops
  -- requests keep the tags and the loops, so the kernels are still those made from them
  have hmakes : contraction.tags.make contraction.provider contraction.loops =
      .ok program.kernels := by
    obtain ⟨⟨⟩, -, h⟩ := bind_eq_ok.1 hready.kernels
    obtain ⟨⟨⟩, -, h⟩ := bind_eq_ok.1 h
    obtain ⟨⟨⟩, -, h⟩ := bind_eq_ok.1 h
    rwa [hsame.tags, hsame.provider, hsame.loops] at h
  obtain ⟨hmadeFirst, hmadeLast⟩ := KernelTags.isSome_of_make hmakes
  rw [← hloops] at hkernel hk hout ⊢
  obtain ⟨before, omp, sfc, after, kernel, hcut⟩ := hready.built.sound.exists_cut hkernel
  have hsights := hready.sights_launchCalls hcut base
  rw [hsame.loops, ← hloops] at hsights
  exact touchBracketed_of_sights hready.built hcut hk
    (nodup_outerLoops hkernel hready.built.sizes hout) (hmadeFirst hfirst) (hmadeLast hlast) hsights

/-- In the second launch of the batched matrix product, which reduces on the curve and outside of
it, the touch kernels bracket the reduction. -/
theorem touchBracketed_launchCalls_batchedProduct :
    ∃ program, ([.compile, .contract batchedBuffers].foldl Contraction.serve
        batchedProduct).program = some program ∧
      TouchBracketed (packedIn batchedProduct.loops) 0
        (offsets Loop.strides ((outerLoops batchedProduct.loops).filter fun loop =>
          !loop.isReduction))
        (sizeOfAxis (outerLoops batchedProduct.loops) .k)
        (program.launchCalls ([.compile, .contract batchedBuffers].foldl Contraction.serve
          batchedProduct).states 0) := by
  obtain ⟨program, hprogram⟩ := Option.isSome_iff_exists.1
    (show ([.compile, .contract batchedBuffers].foldl Contraction.serve
      batchedProduct).program.isSome = true by decide +kernel)
  exact ⟨program, hprogram, touchBracketed_launchCalls batchedProduct rfl (by decide +kernel)
    (by decide +kernel) (by decide +kernel) (by decide) (by decide) _ hprogram 0⟩

end LoopNest
