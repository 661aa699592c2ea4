import LoopNest.Proofs.Packing.ElementCopy
import LoopNest.Proofs.Planning.IterationSpace
import LoopNest.Proofs.Planning.PackedStrides
import LoopNest.Proofs.Planning.Product

/-!
# Packing buffers are dense

A packing buffer holds one element for every index tuple of the packed loops of its input. In a
planned nest it holds nothing else: the positions of the elements are the numbers below the number
of index tuples, each of them once (`plan_bijOn_elementAt`), and the extent that is set aside for the
buffer is this number.

Both follow from the numbering of the cells that planning hands out. Tuples with different positions
are the same as a list of positions without repetitions (`CopyLoop.bijOn_of_perm`), the number of
cells is the number of tuples, and the last tuple stands on the last cell (`Numbers.reach_add_one`).
-/

namespace LoopNest

/-! ## Positions of index tuples -/

namespace CopyLoop

/-- The index tuples of copy loops, the innermost index fastest. -/
def indexTuples : List CopyLoop → List (List Int)
  | [] => [[]]
  | loop :: inner => (upTo loop.size).flatMap fun i => (indexTuples inner).map fun rest => i :: rest

theorem mem_indexTuples {loops : List CopyLoop} {tuple : List Int} :
    tuple ∈ indexTuples loops ↔ IsIndex loops tuple := by
  induction loops generalizing tuple with
  | nil => simp [indexTuples, IsIndex]
  | cons loop inner ih =>
      rw [isIndex_cons_iff, indexTuples, List.mem_flatMap]
      constructor
      · rintro ⟨i, hi, htuple⟩
        obtain ⟨rest, hrest, rfl⟩ := List.mem_map.1 htuple
        exact ⟨i, rest, rfl, mem_upTo.1 hi, ih.1 hrest⟩
      · rintro ⟨i, rest, rfl, hi, hrest⟩
        exact ⟨i, mem_upTo.2 hi, List.mem_map_of_mem (ih.2 hrest)⟩

/-- The copy steps to the positions of the index tuples in order. -/
theorem map_elementAt_indexTuples (loops : List CopyLoop) :
    (indexTuples loops).map (elementAt CopyLoop.target loops) =
      (StridedCopy.steps loops).map Prod.snd := by
  induction loops with
  | nil => rfl
  | cons loop inner ih =>
      rw [indexTuples, StridedCopy.steps, List.map_flatMap, List.map_flatMap]
      refine List.flatMap_congr fun i _ => ?_
      have hinner := congrArg (List.map fun position => i * loop.target + position) ih
      rw [List.map_map, List.map_map] at hinner
      rw [List.map_map, List.map_map]
      exact hinner

/-- If the positions are the numbers below a bound in some order, index tuples and these numbers are
in one-to-one correspondence. -/
theorem bijOn_of_perm {loops : List CopyLoop} {bound : Int}
    (h : ((StridedCopy.steps loops).map Prod.snd).Perm (upTo bound)) :
    Set.BijOn (elementAt CopyLoop.target loops) {tuple | IsIndex loops tuple}
      (Set.Ico 0 bound) := by
  rw [← map_elementAt_indexTuples] at h
  have hnodup := h.nodup_iff.2 (nodup_upTo bound)
  refine ⟨fun tuple htuple => ?_, fun tuple htuple other hother hsame => ?_, fun position hmem => ?_⟩
  · exact mem_upTo.1 (h.mem_iff.1 (List.mem_map_of_mem (mem_indexTuples.2 htuple)))
  · exact List.inj_on_of_nodup_map hnodup (mem_indexTuples.2 htuple) (mem_indexTuples.2 hother) hsame
  · obtain ⟨tuple, htuple, hposition⟩ := List.mem_map.1 (h.mem_iff.2 (mem_upTo.2 hmem))
    exact ⟨tuple, mem_indexTuples.1 htuple, hposition⟩

end CopyLoop

/-! ## Number of cells -/

/-- The offset of the last index tuple. -/
theorem sum_mem_offsets {stride : Loop → Int} {loops : List Loop}
    (hsize : ∀ loop ∈ loops, 1 ≤ loop.size) :
    (loops.map fun loop => stride loop * (loop.size - 1)).sum ∈ offsets stride loops := by
  induction loops with
  | nil => exact List.mem_singleton.2 rfl
  | cons loop rest ih =>
      rw [List.forall_mem_cons] at hsize
      have hlast : loop.size - 1 ∈ upTo loop.size := mem_upTo.2 ⟨by omega, by omega⟩
      refine mem_sumset.2 ⟨_, List.mem_map_of_mem hlast, _, ih hsize.2, ?_⟩
      rw [List.map_cons, List.sum_cons, smul_eq_mul, mul_comm]

/-- Number of index tuples of the packed loops of an input. -/
def packedCells (side : Side) (loops : List Loop) : Int :=
  ((loops.filter fun loop => loop.isPacked side).map Loop.size).prod

namespace Numbers

variable {side : Side} {cells : Int} {loops : List Loop}

/-- The cells of a packing buffer are as many as the index tuples. -/
theorem cells_eq (h : Numbers side cells loops) (hsize : ∀ loop ∈ loops, 1 ≤ loop.size) :
    cells = packedCells side loops := by
  have hpacked : ∀ loop ∈ loops.filter fun loop => loop.isPacked side, 1 ≤ loop.size :=
    fun loop hloop => hsize loop (List.mem_of_mem_filter hloop)
  have hcells := h.pos
  have hcount := h.offsets.length_eq
  rw [length_offsets, length_upTo] at hcount
  calc cells = (cells.toNat : Int) := (Int.toNat_of_nonneg (by omega)).symm
    _ = ((loops.filter fun loop => loop.isPacked side).map fun loop =>
          (loop.size.toNat : Int)).prod := by
        rw [← hcount, Nat.cast_list_prod, List.map_map]
        rfl
    _ = packedCells side loops := by
        refine congrArg List.prod (List.map_congr_left fun loop hloop => ?_)
        have hone := hpacked loop hloop
        exact Int.toNat_of_nonneg (by omega)

/-- The last index tuple stands on the last cell. -/
theorem reach_add_one (h : Numbers side cells loops) (hsize : ∀ loop ∈ loops, 1 ≤ loop.size) :
    ((loops.filter fun loop => loop.isPacked side).map fun loop =>
      loop.stride side * (loop.size - 1)).sum + 1 = cells := by
  have hcells := h.pos
  have hlast := mem_upTo.1 (h.offsets.mem_iff.1 (sum_mem_offsets fun loop hloop =>
    hsize loop (List.mem_of_mem_filter hloop)))
  have hforward : ∀ loop ∈ loops.filter fun loop => loop.isPacked side,
      loop.size = 1 ∨ 0 ≤ loop.stride side := fun loop hloop =>
    .inr (h.nonneg loop (List.mem_of_mem_filter hloop) (List.mem_filter.1 hloop).2)
  have htop : cells - 1 ∈ upTo cells := mem_upTo.2 ⟨by omega, by omega⟩
  have hbound := (offsets_bounds hforward (h.offsets.mem_iff.2 htop)).2
  omega

end Numbers

/-! ## Planned nests -/

/-- The packing buffers of a planned nest are dense. The positions of the index tuples of the packed
loops are the numbers below the number of tuples, one for each; and an input has a packed region
exactly if there are packed loops, with as many cells as they have index tuples. -/
theorem plan_bijOn_elementAt {settings : Settings} {kernel : KernelTag} {element : ElementType}
    {loops : List Loop} {nest : Nest} (hunpacked : ∀ loop ∈ loops, loop.IsUnpacked)
    (h : Nest.plan settings kernel element loops = .ok nest) (side : Side) :
    Set.BijOn (CopyLoop.elementAt CopyLoop.target (PackedRegion.copyLoops side nest.loops))
        {tuple | CopyLoop.IsIndex (PackedRegion.copyLoops side nest.loops) tuple}
        (Set.Ico 0 (packedCells side nest.loops)) ∧
      ∀ region, PackedRegion.ofLoops side nest.loops = .ok region →
        (region.isSome ↔ ∃ loop ∈ nest.loops, loop.isPacked side) ∧
          ∀ packed ∈ region, packed.cells = packedCells side nest.loops := by
  have hsize : ∀ loop ∈ nest.loops, 1 ≤ loop.size := fun loop hloop =>
    (plan_isSound hunpacked h loop hloop).1
  obtain ⟨cells, hnumbers⟩ := plan_numbers hunpacked h side
  rw [← hnumbers.cells_eq hsize]
  refine ⟨CopyLoop.bijOn_of_perm ?_, fun region hregion => ⟨?_, fun packed hpacked => ?_⟩⟩
  · rw [PackedRegion.steps_copyLoops, map_snd_offsets]
    exact hnumbers.offsets
  · rw [PackedRegion.ofLoops_isSome hregion, List.any_eq_true]
  · rw [Option.mem_def.1 hpacked] at hregion
    obtain ⟨-, -, -, -, hcells, -⟩ := PackedRegion.ofLoops_eq_some hregion
    rw [hcells, hnumbers.reach_add_one hsize]

/-- The left input of `transposedProduct` is packed into the 16 cells that its M and K loops have
index tuples. -/
theorem plan_bijOn_elementAt_transposedProduct :
    (∀ loop ∈ transposedProduct, loop.IsUnpacked) ∧
      Nest.plan Settings.single .madd .fp32 transposedProduct = .ok transposedNest ∧
      packedCells .left transposedNest.loops = 16 ∧
      Set.BijOn (CopyLoop.elementAt CopyLoop.target [⟨2, 1, 8⟩, ⟨4, 2, 1⟩, ⟨2, 8, 4⟩])
        {tuple | CopyLoop.IsIndex [⟨2, 1, 8⟩, ⟨4, 2, 1⟩, ⟨2, 8, 4⟩] tuple} (Set.Ico 0 16) := by
  have hunpacked : ∀ loop ∈ transposedProduct, loop.IsUnpacked := by
    unfold Loop.IsUnpacked
    decide
  exact ⟨hunpacked, plan_transposedProduct, by decide,
    (plan_bijOn_elementAt hunpacked plan_transposedProduct .left).1⟩

end LoopNest
