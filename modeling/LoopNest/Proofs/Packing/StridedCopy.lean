import LoopNest.Packing.StridedCopy
import LoopNest.Proofs.Memory
import LoopNest.Proofs.Offsets

/-!
# What a strided copy moves

Bringing the loops of a copy into order, joining them and copying the innermost ones as a block
changes the order of the moves only: `StridedCopy.ofLoops_moves_perm_cells` says that the cells moved
are those of the elements that the given loops step to.

The copy of a block leaves at each target the last element moved there (`StridedCopy.read?_fill`) and
every other cell of the target buffer as it was (`StridedCopy.read?_fill_frame`). If no two moves
share a target, that is the only element moved there (`StridedCopy.sourceOf_of_nodup`).
-/

namespace LoopNest

/-- The source and the target stride of a copy loop. -/
def CopyLoop.strides (loop : CopyLoop) : Int × Int := (loop.source, loop.target)

/-- The loop with its strides in cells, for elements of `unit` cells. -/
def CopyLoop.inCells (unit : Int) (loop : CopyLoop) : CopyLoop :=
  { loop with source := loop.source * unit, target := loop.target * unit }

namespace StridedCopy

/-! ## Moves of a copy -/

theorem steps_cons (loop : CopyLoop) (inner : List CopyLoop) :
    steps (loop :: inner) = sumset (multiples loop.size loop.strides) (steps inner) := by
  rw [sumset, multiples, List.flatMap_map]
  rfl

theorem steps_append (outer inner : List CopyLoop) :
    steps (outer ++ inner) = sumset (steps outer) (steps inner) := by
  induction outer with
  | nil => exact (zero_sumset _).symm
  | cons loop outer ih => rw [List.cons_append, steps_cons, steps_cons, ih, sumset_assoc]

theorem steps_perm {loops loops' : List CopyLoop} (h : loops.Perm loops') :
    (steps loops).Perm (steps loops') := by
  induction h with
  | nil => exact List.Perm.refl _
  | cons loop _ ih =>
      rw [steps_cons, steps_cons]
      exact sumset_perm (List.Perm.refl _) ih
  | swap a b loops =>
      rw [steps_cons, steps_cons, steps_cons, steps_cons]
      exact sumset_left_comm _ _ _
  | trans _ _ ih ih' => exact ih.trans ih'

/-- Loops of one step move nothing. -/
theorem steps_filter {loops : List CopyLoop} (hsize : ∀ loop ∈ loops, 1 ≤ loop.size) :
    steps (loops.filter fun loop => 1 < loop.size) = steps loops := by
  induction loops with
  | nil => rfl
  | cons loop rest ih =>
      rw [List.forall_mem_cons] at hsize
      rw [List.filter_cons, steps_cons]
      by_cases h : 1 < loop.size
      · rw [if_pos (decide_eq_true h), steps_cons, ih hsize.2]
      · have hone : loop.size = 1 := by omega
        rw [if_neg (by simpa using h), hone, multiples_one, zero_sumset, ih hsize.2]

/-- A loop that was joined to the one it continues moves the same cells. -/
theorem steps_join {loop : CopyLoop} (hloop : 0 ≤ loop.size) {rest : List CopyLoop}
    (hrest : ∀ inner ∈ rest, 0 ≤ inner.size) :
    steps (loop.join rest) = steps (loop :: rest) ∧ ∀ inner ∈ loop.join rest, 0 ≤ inner.size := by
  cases rest with
  | nil => exact ⟨rfl, by simpa [CopyLoop.join] using hloop⟩
  | cons inner rest =>
      rw [List.forall_mem_cons] at hrest
      rw [CopyLoop.join]
      split
      · rename_i hcont
        obtain ⟨hsource, htarget⟩ : loop.source = inner.source * inner.size ∧
            loop.target = inner.target * inner.size := by simpa [CopyLoop.continues] using hcont
        have hstrides : loop.strides = inner.size • inner.strides := by
          simp [CopyLoop.strides, hsource, htarget, mul_comm]
        constructor
        · rw [steps_cons, steps_cons, steps_cons, ← sumset_assoc, hstrides,
            multiples_mul hloop hrest.1, mul_comm]
          rfl
        · exact List.forall_mem_cons.2 ⟨Int.mul_nonneg hrest.1 hloop, hrest.2⟩
      · exact ⟨rfl, List.forall_mem_cons.2 ⟨hloop, List.forall_mem_cons.2 hrest⟩⟩

theorem steps_foldr_join {loops : List CopyLoop} (hsize : ∀ loop ∈ loops, 0 ≤ loop.size) :
    steps (loops.foldr CopyLoop.join []) = steps loops ∧
      ∀ loop ∈ loops.foldr CopyLoop.join [], 0 ≤ loop.size := by
  induction loops with
  | nil => exact ⟨rfl, by simp⟩
  | cons loop rest ih =>
      rw [List.forall_mem_cons] at hsize
      obtain ⟨hsteps, hnonneg⟩ := ih hsize.2
      obtain ⟨hjoin, hnonneg'⟩ := steps_join hsize.1 hnonneg
      exact ⟨by rw [List.foldr_cons, hjoin, steps_cons, steps_cons, hsteps], hnonneg'⟩

/-- Bringing the loops into order and joining them does not change what they step through. -/
theorem normalize_steps_perm {loops : List CopyLoop} (hsize : ∀ loop ∈ loops, 1 ≤ loop.size)
    (unit : Int) :
    (steps (normalize loops unit)).Perm (steps (loops.map (CopyLoop.inCells unit))) ∧
      ∀ loop ∈ normalize loops unit, 0 ≤ loop.size := by
  have hcells : ∀ loop ∈ loops.map (CopyLoop.inCells unit), 1 ≤ loop.size := by
    intro loop hloop
    obtain ⟨given, hgiven, rfl⟩ := List.mem_map.1 hloop
    exact hsize given hgiven
  have hkept : (loops.filter fun loop => 1 < loop.size).map (CopyLoop.inCells unit) =
      (loops.map (CopyLoop.inCells unit)).filter fun loop => 1 < loop.size := by
    rw [List.filter_map]
    rfl
  have hsort := sortBy_perm (fun a b : CopyLoop => decide (b.target ≤ a.target))
    ((loops.map (CopyLoop.inCells unit)).filter fun loop => 1 < loop.size)
  have hnonneg : ∀ loop ∈ sortBy (fun a b : CopyLoop => decide (b.target ≤ a.target))
      ((loops.map (CopyLoop.inCells unit)).filter fun loop => 1 < loop.size), 0 ≤ loop.size := by
    intro loop hloop
    have hmem := List.mem_of_mem_filter (hsort.mem_iff.1 hloop)
    exact Int.le_trans (by decide) (hcells loop hmem)
  have hnormal : normalize loops unit = (sortBy (fun a b : CopyLoop => decide (b.target ≤ a.target))
      ((loops.map (CopyLoop.inCells unit)).filter fun loop => 1 < loop.size)).foldr
        CopyLoop.join [] := by
    rw [← hkept]
    rfl
  obtain ⟨hsteps, hjoined⟩ := steps_foldr_join hnonneg
  rw [hnormal, hsteps]
  exact ⟨(steps_perm hsort).trans (List.Perm.of_eq (steps_filter hcells)), hjoined⟩

theorem moves_eq (copy : StridedCopy) :
    copy.moves = sumset (steps copy.loops) (multiples copy.block ((1 : Int), (1 : Int))) := by
  refine List.flatMap_congr fun move _ => ?_
  rw [multiples, List.map_map]
  refine List.map_congr_left fun i _ => ?_
  simp [Prod.ext_iff]

/-- A copy moves the cells of every element that the loops it was made from step to. -/
theorem ofLoops_moves_perm_cells {loops : List CopyLoop} (hsize : ∀ loop ∈ loops, 1 ≤ loop.size)
    {unit : Int} (hunit : 0 ≤ unit) :
    (ofLoops loops unit).moves.Perm (sumset (steps (loops.map (CopyLoop.inCells unit)))
      (multiples unit ((1 : Int), (1 : Int)))) := by
  obtain ⟨hnormal, hnonneg⟩ := normalize_steps_perm hsize unit
  refine List.Perm.trans (List.Perm.of_eq ?_) (sumset_perm_left hnormal _)
  rw [moves_eq, ofLoops]
  split
  · rename_i inner hlast
    split
    · -- the innermost loop has become the block: its elements lie side by side
      rename_i hadjacent
      have hinner : steps [inner] = multiples inner.size (unit • ((1 : Int), (1 : Int))) := by
        have hstrides : inner.strides = unit • ((1 : Int), (1 : Int)) := by
          simp [CopyLoop.strides, hadjacent]
        rw [steps_cons, hstrides]
        exact sumset_zero _
      have hsteps : steps (normalize loops unit) =
          sumset (steps (normalize loops unit).dropLast) (steps [inner]) := by
        rw [← steps_append, List.dropLast_append_getLast? inner hlast]
      rw [hsteps, hinner, sumset_assoc, multiples_mul
        (hnonneg inner (List.mem_of_getLast? hlast)) hunit, mul_comm unit]
    · rfl
  · rfl

/-- The cells that a copy of single cells moves are those of the loops it was made from. -/
theorem ofLoops_moves_perm {loops : List CopyLoop} (hsize : ∀ loop ∈ loops, 1 ≤ loop.size) :
    (ofLoops loops 1).moves.Perm (steps loops) := by
  have hone : loops.map (CopyLoop.inCells 1) = loops := by
    refine (List.map_congr_left fun loop _ => ?_).trans (List.map_id loops)
    simp [CopyLoop.inCells]
  have hcells := ofLoops_moves_perm_cells hsize (show (0 : Int) ≤ 1 by decide)
  rwa [hone, multiples_one, sumset_zero] at hcells

/-! ## Running a copy -/

variable {α : Type} {copy : StridedCopy} {cell : Int → Option α} {target : Buffer α}
  {targetBase : Int}

/-- What a move does to its target cell. -/
def moveUpdate (cell : Int → Option α) (targetBase : Int) (move : Int × Int) : Update α where
  address := targetBase + move.2
  change old := (cell move.1).getD old

/-- The target buffer after a move. -/
def carry (cell : Int → Option α) (targetBase : Int) (target : Buffer α) (move : Int × Int) :
    Buffer α :=
  match cell move.1 with
  | some x => Buffer.update target ⟨targetBase + move.2, fun _ => x⟩
  | none => target

theorem fill_eq_foldl :
    copy.fill cell target targetBase = copy.moves.foldl (carry cell targetBase) target := rfl

theorem size_carry (move : Int × Int) :
    (carry cell targetBase target move).size = target.size := by
  unfold carry
  split
  · exact Buffer.size_update _ _
  · rfl

theorem read?_carry (move : Int × Int) (address : Int) :
    Buffer.read? (carry cell targetBase target move) address =
      (Buffer.read? target address).map (effectAt address [moveUpdate cell targetBase move]) := by
  unfold carry
  split
  · rename_i x hread
    rw [Buffer.read?_update]
    by_cases h : targetBase + move.2 = address
    · simp [effectAt, moveUpdate, hread, h]
    · simp [effectAt, moveUpdate, h]
  · rename_i hread
    simp [effectAt, moveUpdate, hread]

theorem size_fill : (copy.fill cell target targetBase).size = target.size := by
  rw [fill_eq_foldl]
  induction copy.moves generalizing target with
  | nil => rfl
  | cons move rest ih => rw [List.foldl_cons, ih, size_carry]

/-- A cell of the target after a copy. -/
theorem read?_fill_eq (address : Int) :
    Buffer.read? (copy.fill cell target targetBase) address =
      (Buffer.read? target address).map
        (effectAt address (copy.moves.map (moveUpdate cell targetBase))) := by
  rw [fill_eq_foldl]
  induction copy.moves generalizing target with
  | nil => exact Option.map_id.symm ▸ rfl
  | cons move rest ih =>
      rw [List.foldl_cons, ih, read?_carry, Option.map_map]
      rfl

/-- Source offset of the last move to a target offset. -/
def sourceOf (copy : StridedCopy) (target : Int) : Option Int :=
  (copy.moves.reverse.find? fun move => move.2 = target).map Prod.fst

theorem exists_sourceOf {move : Int × Int} (hmove : move ∈ copy.moves) :
    ∃ source, copy.sourceOf move.2 = some source := by
  have hfind : (copy.moves.reverse.find? fun other => other.2 = move.2).isSome :=
    List.find?_isSome.2 ⟨move, List.mem_reverse.2 hmove, by simp⟩
  obtain ⟨last, hlast⟩ := Option.isSome_iff_exists.1 hfind
  exact ⟨last.1, by rw [sourceOf, hlast, Option.map_some]⟩

theorem mem_moves_of_sourceOf {source offset : Int} (h : copy.sourceOf offset = some source) :
    (source, offset) ∈ copy.moves := by
  obtain ⟨move, hmove, rfl⟩ := Option.map_eq_some_iff.1 h
  obtain rfl : move.2 = offset := by simpa using List.find?_some hmove
  exact List.mem_reverse.1 (List.mem_of_find?_eq_some hmove)

/-- If no two moves share a target, the last move to a target is the only one. -/
theorem sourceOf_of_nodup (hnodup : (copy.moves.map Prod.snd).Nodup) {move : Int × Int}
    (hmove : move ∈ copy.moves) : copy.sourceOf move.2 = some move.1 := by
  obtain ⟨source, hsource⟩ := exists_sourceOf hmove
  have hsame : (source, move.2) = move :=
    List.inj_on_of_nodup_map hnodup (mem_moves_of_sourceOf hsource) hmove rfl
  rw [hsource, ← hsame]

/-- The last of several moves to one cell decides what it holds. -/
theorem effectAt_moves (cell : Int → α) (moves : List (Int × Int)) (offset : Int) (x : α) :
    effectAt (targetBase + offset) (moves.map (moveUpdate (fun i => some (cell i)) targetBase)) x =
      ((moves.reverse.find? fun move => move.2 = offset).map fun move => cell move.1).getD x := by
  induction moves generalizing x with
  | nil => rfl
  | cons move rest ih =>
      have hsame : targetBase + move.2 = targetBase + offset ↔ move.2 = offset :=
        Int.add_right_inj targetBase
      rw [List.map_cons, effectAt, ih, List.reverse_cons, List.find?_append]
      cases rest.reverse.find? fun move => move.2 = offset with
      | some last => rfl
      | none =>
          by_cases h : move.2 = offset
          · simp [moveUpdate, h]
          · simp [moveUpdate, h]

/-- After the copy of a block every target holds the last element moved there. -/
theorem read?_fill {cell : Int → α} {source offset : Int} (h : copy.sourceOf offset = some source)
    (hlow : 0 ≤ targetBase + offset) (hhigh : targetBase + offset < target.size) :
    Buffer.read? (copy.fill (fun i => some (cell i)) target targetBase) (targetBase + offset) =
      some (cell source) := by
  obtain ⟨x, hx⟩ := Buffer.exists_read? hlow hhigh
  obtain ⟨move, hmove, rfl⟩ := Option.map_eq_some_iff.1 h
  rw [read?_fill_eq, hx, Option.map_some, effectAt_moves, hmove]
  rfl

/-- What the copy of a block leaves at its targets does not depend on what was there before. -/
theorem read?_fill_congr {cell : Int → α} {target' : Buffer α} (hsize : target'.size = target.size)
    {move : Int × Int} (hmove : move ∈ copy.moves) :
    Buffer.read? (copy.fill (fun i => some (cell i)) target' targetBase) (targetBase + move.2) =
      Buffer.read? (copy.fill (fun i => some (cell i)) target targetBase) (targetBase + move.2) := by
  obtain ⟨source, hsource⟩ := exists_sourceOf hmove
  by_cases h : 0 ≤ targetBase + move.2 ∧ targetBase + move.2 < target.size
  · rw [read?_fill hsource h.1 h.2, read?_fill hsource h.1 (by rw [hsize]; exact h.2)]
  · -- outside the buffers there is nothing
    have hnone : ∀ buffer : Buffer α, buffer.size = target.size →
        Buffer.read? buffer (targetBase + move.2) = none := fun buffer hbuffer =>
      Buffer.read?_eq_none (by rwa [hbuffer])
    rw [hnone _ (size_fill.trans hsize), hnone _ size_fill]

/-- A copy leaves every cell as it is that is not one of its targets. -/
theorem read?_fill_frame {address : Int} (h : ∀ move ∈ copy.moves, targetBase + move.2 ≠ address) :
    Buffer.read? (copy.fill cell target targetBase) address = Buffer.read? target address := by
  rw [read?_fill_eq]
  have hid : effectAt address (copy.moves.map (moveUpdate cell targetBase)) = id := by
    funext x
    refine effectAt_eq_self (fun u hu => ?_) x
    obtain ⟨move, hmove, rfl⟩ := List.mem_map.1 hu
    exact h move hmove
  rw [hid, Option.map_id, id]

end StridedCopy

end LoopNest
