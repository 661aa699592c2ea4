import LoopNest.Proofs.Launch.History

/-!
# A launch is the plain loop nest

All threads together visit every index tuple of the loops outside the kernel exactly once. The parts
of a schedule are compared with the loops that they stand for: sequential visits with sequential
loops (`map_offset_sequentialVisits`), flat intervals with the OMP loops and walks through boxes
with the SFC loops (`Program.map_offset_boxVisits`). The shares of the threads are then put together
axis by axis.

The main statements are `Program.map_offset_launchVisits`, on offsets, and
`mainSights_launchCalls`, on the main-kernel calls of any launch in the life of a
contraction.
-/

namespace LoopNest

variable {α : Type}

/-- Sequential visits move by the offsets of their loops. -/
theorem map_offset_sequentialVisits (stride : Loop → Operands Int) (loops : List Loop) :
    (sequentialVisits stride loops).map Visit.offset = offsets stride loops := by
  induction loops with
  | nil => rfl
  | cons loop rest ih =>
      rw [sequentialVisits, map_offset_nest, ih, offsets, loopVisits, Program.sequentialSteps,
        List.map_map, List.map_map]
      rfl

theorem map_fst_numberedBy {α β : Type} [DecidableEq β] (key : α → β) (seen : List β)
    (xs : List α) : (numberedBy key seen xs).map Prod.fst = xs := by
  induction xs generalizing seen with
  | nil => rfl
  | cons x rest ih => rw [numberedBy, List.map_cons, ih]

/-- Every SFC loop is an M, an N or a K loop. -/
theorem Layout.Sound.filter_isSfc_perm {layout : Layout} (hsound : layout.Sound) :
    (layout.loops.filter Loop.isSfc).Perm
      (layout.loops.filter (Loop.isSfcOn .m) ++ (layout.loops.filter (Loop.isSfcOn .n) ++
        layout.loops.filter (Loop.isSfcOn .k))) := by
  have haxis : ∀ axis, layout.loops.filter (Loop.isSfcOn axis) =
      (layout.loops.filter Loop.isSfc).filter fun loop => loop.axis = axis := by
    intro axis
    rw [List.filter_filter]
    exact List.filter_congr fun loop _ => Bool.and_comm _ _
  have hlength : ∀ axis, (layout.loops.filter (Loop.isSfcOn axis)).length =
      (layout.sfcSpan axis).length := fun axis => by
    rw [(hsound.sfc axis).filter_eq, (hsound.sfc axis).toCovers.length_slice]
  obtain ⟨span, hspan, hcount, -⟩ := hsound.curve
  have htotal : (layout.loops.filter Loop.isSfc).length = layout.sfcCount := by
    rw [hspan.filter_eq, hspan.toCovers.length_slice, hcount]
  have hlm := hlength .m
  have hln := hlength .n
  have hlk := hlength .k
  rw [haxis] at hlm hln hlk
  rw [haxis, haxis, haxis]
  generalize layout.loops.filter Loop.isSfc = all at *
  have hm := List.filter_append_perm (fun loop : Loop => (loop.axis = .m : Bool)) all
  generalize hrest : all.filter (fun loop => !decide (loop.axis = .m)) = rest at hm
  have hn := List.filter_append_perm (fun loop : Loop => (loop.axis = .n : Bool)) rest
  generalize hlast : rest.filter (fun loop => !decide (loop.axis = .n)) = last at hn
  have hkeepN : rest.filter (fun loop => loop.axis = .n) = all.filter fun loop => loop.axis = .n := by
    rw [← hrest, List.filter_filter]
    exact List.filter_congr fun loop _ => by cases loop.axis <;> rfl
  have hkeepK : last.filter (fun loop => loop.axis = .k) = all.filter fun loop => loop.axis = .k := by
    rw [← hlast, ← hrest, List.filter_filter, List.filter_filter]
    exact List.filter_congr fun loop _ => by cases loop.axis <;> rfl
  -- what is left besides M and N loops is as long as its K loops
  have hlastK : last.filter (fun loop => loop.axis = .k) = last := by
    refine List.filter_sublist.eq_of_length ?_
    have h1 := hm.length_eq
    have h2 := hn.length_eq
    rw [List.length_append] at h1 h2
    rw [hkeepN] at h2
    rw [hkeepK, hlk]
    rw [Layout.sfcCount] at htotal
    simp only [Layout.sfcSpan] at hlm hln hlk ⊢
    omega
  rw [← hkeepK, hlastK, ← hkeepN]
  exact hm.symm.trans (List.Perm.append_left _ hn.symm)

namespace Program

variable (program : Program)

/-- The offset of a number on the SFC loops of one axis. -/
def axisOffset (axis : Axis) (id : Int) : Operands Int :=
  mixedOffset (digitsOf (program.layout.loops.filter (Loop.isSfcOn axis))) id

/-- The offset of a flat number on the OMP loops. -/
def flatOffset (id : Int) : Operands Int :=
  mixedOffset (digitsOf (program.layout.loops.filter Loop.isOmp)) id

/-- The visits of all threads, thread by thread. -/
def launchVisits (stride : Loop → Operands Int) (before after : List Loop) : List Visit :=
  (List.range program.layout.threads.total).flatMap fun thread =>
    program.threadVisits stride before after (program.layout.shareOf thread)

variable {program} {share : Share}

/-- A task moves by the offsets of its three numbers. -/
theorem taskOffset_eq (hbuilt : program.IsBuilt) (task : Task) :
    program.taskOffset task =
      program.axisOffset .m task.m + program.axisOffset .n task.n + program.axisOffset .k task.k := by
  have haxis : ∀ axis id, program.layout.offsetOn (strideTable program.layout.loops)
      (program.layout.sfcSpan axis) id = program.axisOffset axis id := by
    intro axis id
    have hmarks := hbuilt.sound.sfc axis
    rw [Layout.offsetOn, Layout.radices_eq _ hmarks.stop_le fun _ _ => rfl, axisOffset,
      hmarks.filter_eq]
  rw [taskOffset, Layout.sfcOffset, ← haxis, ← haxis, ← haxis]
  rfl

theorem map_offset_flatVisits (hbuilt : program.IsBuilt) (interval : Interval) :
    (program.flatVisits interval).map Visit.offset = interval.numbers.map program.flatOffset := by
  rw [flatVisits, flatSteps, Interval.numbers, List.map_map, List.map_map, List.map_map]
  exact List.map_congr_left fun i _ => ompOffset_eq hbuilt _

/-- A walk through a box moves by all combinations of the offsets of its sides. -/
theorem map_offset_boxVisits (hbuilt : program.IsBuilt) (hm : 0 ≤ share.m.length)
    (hn : 0 ≤ share.n.length) :
    ((program.boxVisits share).map Visit.offset).Perm
      (sumset (sumset (share.m.numbers.map (program.axisOffset .m))
          (share.n.numbers.map (program.axisOffset .n)))
        ((upTo program.layout.kTasks).map (program.axisOffset .k))) := by
  have hoffsets : (program.boxVisits share).map Visit.offset =
      (share.path program.layout.kTasks).map program.taskOffset := by
    conv_rhs => rw [← map_fst_numberedBy Task.tile [] (share.path program.layout.kTasks)]
    rw [boxVisits, List.map_map, List.map_map]
    rfl
  rw [hoffsets]
  refine ((Share.path_perm hm hn).map _).trans (List.Perm.of_eq ?_)
  simp only [Share.tasks, Curve.boxCells, sumset, Interval.numbers, List.map_map, List.map_flatMap,
    List.flatMap_map, List.flatMap_assoc, Function.comp_def, Share.taskAt, taskOffset_eq hbuilt]

/-- The offsets of a share, between those of outer and of inner loops. -/
def shareOffsets (program : Program) (share : Share) (outer inner : List (Operands Int)) :
    List (Operands Int) :=
  sumset outer (sumset (share.omp.numbers.map program.flatOffset)
    (sumset (sumset (share.m.numbers.map (program.axisOffset .m))
      (share.n.numbers.map (program.axisOffset .n))) inner))

theorem map_axisOffset (hbuilt : program.IsBuilt) (axis : Axis) :
    (upTo (program.layout.sfcTasks axis)).map (program.axisOffset axis) =
      offsets Loop.strides (program.layout.loops.filter (Loop.isSfcOn axis)) := by
  rw [hbuilt.sound.sfcTasks, sizeWhere_eq_prod]
  exact map_mixedOffset fun loop hloop => hbuilt.sizes loop (List.mem_of_mem_filter hloop)

theorem map_flatOffset (hbuilt : program.IsBuilt) :
    (upTo program.layout.ompTasks).map program.flatOffset =
      offsets Loop.strides (program.layout.loops.filter Loop.isOmp) := by
  rw [hbuilt.sound.ompTasks, sizeWhere_eq_prod]
  exact map_mixedOffset fun loop hloop => hbuilt.sizes loop (List.mem_of_mem_filter hloop)

/-- Together the shares have the offsets of all parallel loops outside the reduction. -/
theorem flatMap_shareOffsets (hbuilt : program.IsBuilt) (outer inner : List (Operands Int)) :
    ((List.range program.layout.threads.total).flatMap fun thread =>
        program.shareOffsets (program.layout.shareOf thread) outer inner).Perm
      (sumset outer (sumset (offsets Loop.strides (program.layout.loops.filter Loop.isOmp))
        (sumset (sumset (offsets Loop.strides (program.layout.loops.filter (Loop.isSfcOn .m)))
          (offsets Loop.strides (program.layout.loops.filter (Loop.isSfcOn .n)))) inner))) := by
  obtain ⟨homp, hm, hn⟩ := hbuilt.threads
  have hflat := Share.flatMap_cuts homp (Int.le_of_lt hbuilt.ompTasks_pos)
  have hcutsM := Share.flatMap_cuts hm (Int.le_of_lt (hbuilt.tasks_pos .m))
  have hcutsN := Share.flatMap_cuts hn (Int.le_of_lt (hbuilt.tasks_pos .n))
  rw [← map_flatOffset hbuilt, ← map_axisOffset hbuilt, ← map_axisOffset hbuilt, ← hflat, ← hcutsM,
    ← hcutsN, List.map_flatMap, List.map_flatMap, List.map_flatMap]
  exact sumset_threads_perm program.layout.threads outer inner
    (fun c => (Share.between program.layout.threads.omp program.layout.ompTasks c).numbers.map
      program.flatOffset)
    (fun a => (Share.between program.layout.threads.m (program.layout.sfcTasks .m) a).numbers.map
      (program.axisOffset .m))
    fun b => (Share.between program.layout.threads.n (program.layout.sfcTasks .n) b).numbers.map
      (program.axisOffset .n)

/-- The visits of a thread move by the offsets of its share. -/
theorem map_offset_threadVisits (hbuilt : program.IsBuilt) (stride : Loop → Operands Int)
    (before after : List Loop) (hm : 0 ≤ share.m.length) (hn : 0 ≤ share.n.length) :
    ((program.threadVisits stride before after share).map Visit.offset).Perm
      (program.shareOffsets share (offsets stride before)
        (sumset ((upTo program.layout.kTasks).map (program.axisOffset .k))
          (offsets stride after))) := by
  rw [threadVisits, map_offset_nest, map_offset_nest, map_offset_nest,
    map_offset_sequentialVisits, map_offset_sequentialVisits, map_offset_flatVisits hbuilt,
    shareOffsets, ← sumset_assoc (sumset _ _)]
  exact sumset_perm (List.Perm.refl _) (sumset_perm (List.Perm.refl _) (sumset_perm_left
    (map_offset_boxVisits hbuilt hm hn) _))

/-- Strides that are those of the program along parallel loops. -/
def KeepsParallel (program : Program) (stride : Loop → Operands Int) : Prop :=
  ∀ loop ∈ program.layout.loops, loop.isParallel = true → stride loop = loop.strides

/-- Along parallel loops the strides are those of the caller's buffers. -/
theorem IsBuilt.keepsParallel (hbuilt : program.IsBuilt) :
    program.KeepsParallel Loop.callerStrides := by
  intro loop hloop hparallel
  have hleft := PackedRegion.isPacked_of_isParallel hbuilt.left hloop hparallel
  have hright := PackedRegion.isPacked_of_isParallel hbuilt.right hloop hparallel
  refine Operands.ext ?_ ?_ rfl rfl
  · simp [Loop.callerStrides, Loop.bufferStride, hleft, Loop.stride]
  · simp [Loop.callerStrides, Loop.bufferStride, hright, Loop.stride]

section Cut

variable {stride : Loop → Operands Int} {before omp sfc after kernel : List Loop}

theorem KeepsParallel.offsets_omp (h : program.KeepsParallel stride)
    (hcut : Layout.Cut program.layout.loops before omp sfc after kernel) :
    offsets stride omp = offsets Loop.strides omp :=
  offsets_congr fun loop hloop => h loop (by rw [hcut.append]; simp [hloop])
    (by rw [Loop.isParallel, hcut.omp loop hloop]; rfl)

theorem KeepsParallel.offsets_sfc (h : program.KeepsParallel stride)
    (hcut : Layout.Cut program.layout.loops before omp sfc after kernel) {run : List Loop}
    (hrun : ∀ loop ∈ run, loop ∈ sfc) : offsets stride run = offsets Loop.strides run :=
  offsets_congr fun loop hloop => h loop (by rw [hcut.append]; simp [hrun loop hloop])
    (by rw [Loop.isParallel, hcut.sfc loop (hrun loop hloop)]; rfl)

/-- All threads together visit every index tuple of the loops outside the kernel once. -/
theorem map_offset_launchVisits (hbuilt : program.IsBuilt) (hkeeps : program.KeepsParallel stride)
    (hcut : Layout.Cut program.layout.loops before omp sfc after kernel) :
    ((program.launchVisits stride before after).map Visit.offset).Perm
      (offsets stride (outerLoops program.layout.loops)) := by
  have hsfc := offsets_perm Loop.strides hbuilt.sound.filter_isSfc_perm
  rw [hcut.filter_sfc, ← hkeeps.offsets_sfc hcut fun _ => id, offsets_append, offsets_append,
    ← sumset_assoc] at hsfc
  rw [launchVisits, List.map_flatMap, hcut.outerLoops_eq, offsets_append, offsets_append,
    offsets_append, hkeeps.offsets_omp hcut, ← hcut.filter_omp]
  refine (List.Perm.flatMap_left _ fun thread _ => map_offset_threadVisits hbuilt stride before
    after ?_ ?_).trans ((flatMap_shareOffsets hbuilt _ _).trans ?_)
  · exact Share.length_between hbuilt.threads.2.1 (Int.le_of_lt (hbuilt.tasks_pos .m)) _
  · exact Share.length_between hbuilt.threads.2.2 (Int.le_of_lt (hbuilt.tasks_pos .n)) _
  · refine sumset_perm (List.Perm.refl _) (sumset_perm (List.Perm.refl _) ?_)
    have hk : (upTo program.layout.kTasks).map (program.axisOffset .k) = _ :=
      map_axisOffset hbuilt .k
    rw [hk, ← sumset_assoc]
    exact sumset_perm_left hsfc.symm _

end Cut

end Program

/-! ## Main-kernel calls of a launch -/

/-- Whether a main-kernel call is seen. -/
def Sight.isMain : Sight → Bool
  | .touch .. => false
  | .main .. => true

/-- The main-kernel call at an offset from the start of the buffers. -/
def mainSight (packed : Side → Bool) (base offset : Operands Int) : Sight :=
  .main (if packed .left then none else some ⟨.buffer, base.left + offset.left⟩)
    (if packed .right then none else some ⟨.buffer, base.right + offset.right⟩)
    (base.out + offset.out)

/-- A visit calls the main kernel once. -/
theorem filter_isMain_visitSights (program : Program) (packed : Side → Bool)
    (base : Operands Int) (v : Visit) :
    (program.visitSights packed base v).filter Sight.isMain = [mainSight packed base v.offset] := by
  have htouch : ∀ (wanted : Bool) (which : Touch) (outAux out : Int),
      (sights packed (if wanted then [.touch which outAux out] else [])).filter Sight.isMain = [] :=
    fun wanted which outAux out => by cases wanted <;> rfl
  simp only [Program.visitSights, Program.kernelCalls, sights_append, List.filter_append, htouch,
    List.nil_append, List.append_nil]
  rfl

/-- In every launch the main kernel is called once for every index tuple of the loops outside the
kernel, at the offset of that tuple. -/
theorem mainSights_launchCalls [Scalar α] (contraction : Contraction α)
    (hnew : contraction.program = none) (hkernel : KernelLast contraction.loops)
    (requests : List (Request α)) {program : Program}
    (hcompiled : (requests.foldl Contraction.serve contraction).program = some program)
    (base : Operands Int) :
    ((sights (packedIn contraction.loops)
        (program.launchCalls (requests.foldl Contraction.serve contraction).states
          base).flatten).filter Sight.isMain).Perm
      ((offsets Loop.strides (outerLoops contraction.loops)).map
        (mainSight (packedIn contraction.loops) base)) := by
  obtain ⟨hready, hsame⟩ := Contraction.isReady_foldl_serve
    (fun program hprogram => absurd (hnew.symm.trans hprogram) (by simp)) requests
  have hready := hready program hcompiled
  have hloops : program.layout.loops = contraction.loops := hready.loops.trans hsame.loops
  obtain ⟨before, omp, sfc, after, kernel, hcut⟩ :=
    hready.built.sound.exists_cut (by rw [hloops]; exact hkernel)
  have hsights := sights_flatten (hready.sights_launchCalls hcut base)
  rw [hsame.loops] at hsights
  rw [hsights, ← List.flatMap_assoc, ← Program.launchVisits, List.filter_flatMap]
  simp only [filter_isMain_visitSights]
  have hoffsets := (Program.map_offset_launchVisits hready.built (fun _ _ _ => rfl) hcut).map
    (mainSight (packedIn contraction.loops) base)
  rw [List.map_map, hloops] at hoffsets
  rwa [← List.map_eq_flatMap]

/-- A batched matrix product with loops of every mode: the batches are shared by two threads, and
the curve of each goes through N, M and K. -/
def batchedProduct : Contraction Int :=
  .create
    [⟨.k, .seq, 2, ⟨16, 4, 0, 0⟩, 0, 0⟩, ⟨.c, .omp, 2, ⟨32, 32, 16, 16⟩, 0, 0⟩,
      ⟨.n, .sfc, 2, ⟨0, 16, 8, 8⟩, 0, 0⟩, ⟨.m, .sfc, 2, ⟨2, 0, 2, 2⟩, 0, 0⟩,
      ⟨.k, .sfc, 2, ⟨8, 2, 0, 0⟩, 0, 0⟩, ⟨.m, .prim, 2, ⟨1, 0, 1, 1⟩, 0, 0⟩,
      ⟨.n, .prim, 2, ⟨0, 8, 4, 4⟩, 0, 0⟩, ⟨.k, .prim, 2, ⟨4, 1, 0, 0⟩, 0, 0⟩]
    ⟨.fp32, .fp32, .fp32, .fp32⟩ ⟨.zero, .madd, .relu⟩ ⟨2, 1, 1⟩ .strided .unlimited

/-- Buffers for the batched matrix product. -/
def batchedBuffers : Buffers Int :=
  ⟨.fp32, .replicate 64 1, .replicate 64 1, none, .replicate 32 0⟩

/-- The second launch of the batched matrix product is its plain loop nest. -/
theorem mainSights_launchCalls_batchedProduct :
    ∃ program, ([.compile, .contract batchedBuffers].foldl Contraction.serve
        batchedProduct).program = some program ∧
      ((sights (packedIn batchedProduct.loops)
        (program.launchCalls ([.compile, .contract batchedBuffers].foldl Contraction.serve
          batchedProduct).states 0).flatten).filter Sight.isMain).Perm
      ((offsets Loop.strides (outerLoops batchedProduct.loops)).map
        (mainSight (packedIn batchedProduct.loops) 0)) := by
  obtain ⟨program, hprogram⟩ := Option.isSome_iff_exists.1
    (show ([.compile, .contract batchedBuffers].foldl Contraction.serve
      batchedProduct).program.isSome = true by decide +kernel)
  exact ⟨program, hprogram, mainSights_launchCalls batchedProduct rfl (by decide +kernel) _
    hprogram 0⟩

end LoopNest
