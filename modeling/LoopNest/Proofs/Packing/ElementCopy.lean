import LoopNest.Proofs.Packing.StridedCopy

/-!
# A strided copy is the copy element by element

Loops over a block of elements of `unit` cells each have one element for every index tuple. Its
cells lie, in the source and in the target, at the sum of index times stride, `unit` cells from there
on (`CopyLoop.cellAt`). A copy made from the loops has its loops ordered, joined and the innermost of
them turned into a block; `StridedCopy.mem_ofLoops_moves` says that it still moves the cells of these
elements and no others.

If the elements of different index tuples lie apart in the target, then every cell of an element has
one source, and `StridedCopy.run_ofLoops` follows: the copy brings each cell of each element to its
place and leaves all other cells as they were. Elements that share a target cell are excluded for a
reason: the order of the loops decides which of them arrives last, and bringing the loops into order
changes it.
-/

namespace LoopNest

namespace CopyLoop

/-! ## Elements of a block -/

/-- An index tuple of copy loops: one index for each loop, below its number of steps. -/
def IsIndex (loops : List CopyLoop) (tuple : List Int) : Prop :=
  List.Forall₂ (fun loop i => 0 ≤ i ∧ i < loop.size) loops tuple

/-- The offset of the element of an index tuple, in elements: the sum of index times stride. -/
def elementAt (stride : CopyLoop → Int) (loops : List CopyLoop) (tuple : List Int) : Int :=
  (List.zipWith (fun loop i => i * stride loop) loops tuple).sum

/-- The offset of one of the cells of the element of an index tuple. -/
def cellAt (stride : CopyLoop → Int) (loops : List CopyLoop) (unit : Nat) (tuple : List Int)
    (cell : Nat) : Int :=
  elementAt stride loops tuple * unit + cell

/-- The elements of different index tuples share no cell of the target. -/
def TargetsApart (loops : List CopyLoop) (unit : Nat) : Prop :=
  ∀ tuple other, IsIndex loops tuple → IsIndex loops other → tuple ≠ other →
    ∀ cell < unit, ∀ otherCell < unit,
      cellAt CopyLoop.target loops unit tuple cell ≠
        cellAt CopyLoop.target loops unit other otherCell

theorem isIndex_cons_iff {loop : CopyLoop} {inner : List CopyLoop} {tuple : List Int} :
    IsIndex (loop :: inner) tuple ↔
      ∃ i rest, tuple = i :: rest ∧ (0 ≤ i ∧ i < loop.size) ∧ IsIndex inner rest := by
  constructor
  · intro h
    obtain ⟨i, rest, hi, hrest, rfl⟩ := List.forall₂_cons_left_iff.1 h
    exact ⟨i, rest, rfl, hi, hrest⟩
  · rintro ⟨i, rest, rfl, hi, hrest⟩
    exact List.Forall₂.cons hi hrest

@[simp] theorem elementAt_nil (stride : CopyLoop → Int) (tuple : List Int) :
    elementAt stride [] tuple = 0 := rfl

@[simp] theorem elementAt_cons (stride : CopyLoop → Int) (loop : CopyLoop)
    (inner : List CopyLoop) (i : Int) (rest : List Int) :
    elementAt stride (loop :: inner) (i :: rest) = i * stride loop + elementAt stride inner rest :=
  List.sum_cons

/-- Cells of elements that lie apart are the same only as the same cell of the same element. -/
theorem TargetsApart.injective {loops : List CopyLoop} {unit : Nat}
    (h : TargetsApart loops unit) {tuple other : List Int} (htuple : IsIndex loops tuple)
    (hother : IsIndex loops other) {cell otherCell : Nat} (hcell : cell < unit)
    (hotherCell : otherCell < unit)
    (hsame : cellAt CopyLoop.target loops unit tuple cell =
      cellAt CopyLoop.target loops unit other otherCell) :
    tuple = other ∧ cell = otherCell := by
  have htuples : tuple = other := by
    by_contra hne
    exact h tuple other htuple hother hne cell hcell otherCell hotherCell hsame
  subst htuples
  have hcells : (cell : Int) = otherCell := Int.add_left_cancel hsame
  exact ⟨rfl, Int.ofNat_inj.1 hcells⟩

end CopyLoop

namespace StridedCopy

open CopyLoop

/-! ## Moves of the elements -/

/-- Loops with their strides in cells step to the elements of the index tuples. -/
theorem mem_steps_inCells {loops : List CopyLoop} {unit : Int} {step : Int × Int} :
    step ∈ steps (loops.map (CopyLoop.inCells unit)) ↔
      ∃ tuple, IsIndex loops tuple ∧
        step = (elementAt CopyLoop.source loops tuple * unit,
          elementAt CopyLoop.target loops tuple * unit) := by
  -- induction on the loops: the first index is the head of the tuple
  induction loops generalizing step with
  | nil =>
      constructor
      · intro hstep
        refine ⟨[], List.Forall₂.nil, ?_⟩
        simpa [steps] using hstep
      · rintro ⟨tuple, -, rfl⟩
        simp [steps]
  | cons loop inner ih =>
      have hmultiple : ∀ i : Int, i • (loop.inCells unit).strides =
          (i * loop.source * unit, i * loop.target * unit) := by
        intro i
        simp [CopyLoop.strides, CopyLoop.inCells, mul_assoc]
      rw [List.map_cons, steps_cons, mem_sumset]
      constructor
      · rintro ⟨outer, houter, rest, hrest, rfl⟩
        obtain ⟨i, hi, rfl⟩ := List.mem_map.1 houter
        obtain ⟨tuple, htuple, rfl⟩ := ih.1 hrest
        refine ⟨i :: tuple, isIndex_cons_iff.2 ⟨i, tuple, rfl, mem_upTo.1 hi, htuple⟩, ?_⟩
        rw [hmultiple]
        simp [add_mul]
      · rintro ⟨tuple, htuple, rfl⟩
        obtain ⟨i, rest, rfl, hi, hrest⟩ := isIndex_cons_iff.1 htuple
        refine ⟨_, List.mem_map_of_mem (mem_upTo.2 hi), _, ih.2 ⟨rest, hrest, rfl⟩, ?_⟩
        rw [hmultiple]
        simp [add_mul]

/-- A copy moves each cell of the elements of its loops, and nothing else. -/
theorem mem_ofLoops_moves {loops : List CopyLoop} (hsize : ∀ loop ∈ loops, 1 ≤ loop.size)
    {unit : Nat} {move : Int × Int} :
    move ∈ (ofLoops loops unit).moves ↔
      ∃ tuple, IsIndex loops tuple ∧ ∃ cell < unit,
        move = (cellAt CopyLoop.source loops unit tuple cell,
          cellAt CopyLoop.target loops unit tuple cell) := by
  rw [(ofLoops_moves_perm_cells hsize (Int.natCast_nonneg unit)).mem_iff, mem_sumset]
  constructor
  · rintro ⟨step, hstep, within, hwithin, rfl⟩
    obtain ⟨tuple, htuple, rfl⟩ := mem_steps_inCells.1 hstep
    obtain ⟨i, hi, rfl⟩ := List.mem_map.1 hwithin
    obtain ⟨hlow, hhigh⟩ := mem_upTo.1 hi
    obtain ⟨cell, rfl⟩ := Int.eq_ofNat_of_zero_le hlow
    refine ⟨tuple, htuple, cell, Int.ofNat_lt.1 hhigh, ?_⟩
    simp [cellAt]
  · rintro ⟨tuple, htuple, cell, hcell, rfl⟩
    refine ⟨_, mem_steps_inCells.2 ⟨tuple, htuple, rfl⟩, (cell : Int) • ((1 : Int), (1 : Int)),
      List.mem_map_of_mem (mem_upTo.2 ⟨Int.natCast_nonneg cell, Int.ofNat_lt.2 hcell⟩), ?_⟩
    simp [cellAt]

/-! ## Moves to one target -/

section Target

variable {α : Type} {cell : Int → Option α} {targetBase offset : Int} {x : α}

/-- Moves that all bring the same to a target leave it there. -/
theorem effectAt_moves_same {moves : List (Int × Int)}
    (hsame : ∀ move ∈ moves, move.2 = offset → cell move.1 = some x) :
    effectAt (targetBase + offset) (moves.map (moveUpdate cell targetBase)) x = x := by
  induction moves with
  | nil => rfl
  | cons move rest ih =>
      rw [List.forall_mem_cons] at hsame
      have hfirst : (if (moveUpdate cell targetBase move).address = targetBase + offset then
          (moveUpdate cell targetBase move).change x else x) = x := by
        split
        · rename_i hhit
          simp [moveUpdate, hsame.1 (Int.add_left_cancel hhit)]
        · rfl
      rw [List.map_cons, effectAt, hfirst]
      exact ih hsame.2

/-- What the moves to a target bring there, if they all bring the same. -/
theorem effectAt_moves_of_mem {moves : List (Int × Int)}
    (hsame : ∀ move ∈ moves, move.2 = offset → cell move.1 = some x)
    (hmove : ∃ move ∈ moves, move.2 = offset) (old : α) :
    effectAt (targetBase + offset) (moves.map (moveUpdate cell targetBase)) old = x := by
  obtain ⟨move, hmem, hoffset⟩ := hmove
  obtain ⟨before, after, rfl⟩ := List.append_of_mem hmem
  have hafter : ∀ other ∈ after, other.2 = offset → cell other.1 = some x := by
    intro other hother
    exact hsame other (List.mem_append_right _ (List.mem_cons_of_mem _ hother))
  have hreplaced : ∀ earlier : α, (if (moveUpdate cell targetBase move).address = targetBase + offset
      then (moveUpdate cell targetBase move).change earlier else earlier) = x := by
    intro earlier
    simp [moveUpdate, hoffset, hsame move hmem hoffset]
  rw [List.map_append, effectAt_append, List.map_cons, effectAt, hreplaced]
  exact effectAt_moves_same hafter

end Target

/-! ## The copy of a block -/

variable {α : Type}

/-- A copy made from loops brings every cell of the element of every index tuple to its place, and
changes no other cell. -/
theorem run_ofLoops {loops : List CopyLoop} (hsize : ∀ loop ∈ loops, 1 ≤ loop.size) {unit : Nat}
    (hapart : TargetsApart loops unit) (source : Buffer α) (sourceBase : Int) (target : Buffer α)
    (targetBase : Int) :
    ((ofLoops loops unit).run source sourceBase target targetBase).size = target.size ∧
    (∀ tuple, IsIndex loops tuple → ∀ cell < unit, ∀ x,
      Buffer.read? source (sourceBase + cellAt CopyLoop.source loops unit tuple cell) = some x →
      0 ≤ targetBase + cellAt CopyLoop.target loops unit tuple cell →
      targetBase + cellAt CopyLoop.target loops unit tuple cell < target.size →
      Buffer.read? ((ofLoops loops unit).run source sourceBase target targetBase)
        (targetBase + cellAt CopyLoop.target loops unit tuple cell) = some x) ∧
    ∀ address, (∀ tuple, IsIndex loops tuple → ∀ cell < unit,
        targetBase + cellAt CopyLoop.target loops unit tuple cell ≠ address) →
      Buffer.read? ((ofLoops loops unit).run source sourceBase target targetBase) address =
        Buffer.read? target address := by
  refine ⟨size_fill, ?_, ?_⟩
  · intro tuple htuple cell hcell x hx hlow hhigh
    obtain ⟨old, hold⟩ := Buffer.exists_read? hlow hhigh
    have hmove : (cellAt CopyLoop.source loops unit tuple cell,
        cellAt CopyLoop.target loops unit tuple cell) ∈ (ofLoops loops unit).moves :=
      (mem_ofLoops_moves hsize).2 ⟨tuple, htuple, cell, hcell, rfl⟩
    -- a move to this cell belongs to the same cell of the same element
    have hsame : ∀ move ∈ (ofLoops loops unit).moves,
        move.2 = cellAt CopyLoop.target loops unit tuple cell →
          Buffer.read? source (sourceBase + move.1) = some x := by
      intro move hmem hoffset
      obtain ⟨other, hother, otherCell, hotherCell, rfl⟩ := (mem_ofLoops_moves hsize).1 hmem
      obtain ⟨rfl, rfl⟩ := hapart.injective hother htuple hotherCell hcell hoffset
      exact hx
    rw [run, read?_fill_eq, hold, Option.map_some, effectAt_moves_of_mem hsame ⟨_, hmove, rfl⟩]
  · intro address hother
    apply read?_fill_frame
    intro move hmem
    obtain ⟨tuple, htuple, cell, hcell, rfl⟩ := (mem_ofLoops_moves hsize).1 hmem
    exact hother tuple htuple cell hcell

/-- Two rows of three elements of two cells, run through backwards in the source. In the target the
rows follow each other and the columns run backwards. -/
def mirrored : List CopyLoop := [⟨2, -3, 3⟩, ⟨3, -1, -1⟩]

theorem isIndex_mirrored {tuple : List Int} (h : IsIndex mirrored tuple) :
    ∃ row column : Int, tuple = [row, column] ∧ (0 ≤ row ∧ row < 2) ∧ (0 ≤ column ∧ column < 3) := by
  obtain ⟨row, _, rfl, hrow, hcolumns⟩ := isIndex_cons_iff.1 h
  obtain ⟨column, _, rfl, hcolumn, hend⟩ := isIndex_cons_iff.1 hcolumns
  obtain rfl := List.forall₂_nil_left_iff.1 hend
  exact ⟨row, column, rfl, hrow, hcolumn⟩

theorem cellAt_mirrored (row column : Int) (cell : Nat) :
    cellAt CopyLoop.target mirrored 2 [row, column] cell = (row * 3 - column) * 2 + cell := by
  simp [cellAt, mirrored, sub_eq_add_neg]

theorem targetsApart_mirrored : TargetsApart mirrored 2 := by
  intro tuple other htuple hother hne cell hcell otherCell hotherCell hsame
  obtain ⟨row, column, rfl, hrow, hcolumn⟩ := isIndex_mirrored htuple
  obtain ⟨row', column', rfl, hrow', hcolumn'⟩ := isIndex_mirrored hother
  rw [cellAt_mirrored, cellAt_mirrored] at hsame
  obtain ⟨rfl, rfl⟩ : row = row' ∧ column = column' := by omega
  exact hne rfl

theorem run_ofLoops_mirrored :
    (∀ loop ∈ mirrored, 1 ≤ loop.size) ∧ TargetsApart mirrored 2 ∧
    Buffer.read? ((ofLoops mirrored 2).run #[10, 11, 12, 13, 14, 15, 16, 17, 18, 19, 20, 21] 10
      #[0, 0, 0, 0, 0, 0, 0, 0, 0, 0, 0, 0, 0, 7] 5) 7 = some 10 ∧
    Buffer.read? ((ofLoops mirrored 2).run #[10, 11, 12, 13, 14, 15, 16, 17, 18, 19, 20, 21] 10
      #[0, 0, 0, 0, 0, 0, 0, 0, 0, 0, 0, 0, 0, 7] 5) 13 = some 7 := by
  have hsize : ∀ loop ∈ mirrored, 1 ≤ loop.size := by decide
  obtain ⟨-, hcopied, hkept⟩ := run_ofLoops hsize targetsApart_mirrored
    #[10, 11, 12, 13, 14, 15, 16, 17, 18, 19, 20, 21] 10
    #[0, 0, 0, 0, 0, 0, 0, 0, 0, 0, 0, 0, 0, 7] 5
  refine ⟨hsize, targetsApart_mirrored, ?_, ?_⟩
  · have hindex : IsIndex mirrored [1, 2] :=
      List.Forall₂.cons (by decide) (List.Forall₂.cons (by decide) List.Forall₂.nil)
    exact hcopied [1, 2] hindex 0 (by decide) 10 (by decide) (by decide) (by decide)
  · apply hkept 13
    intro tuple htuple cell hcell
    obtain ⟨row, column, rfl, hrow, hcolumn⟩ := isIndex_mirrored htuple
    rw [cellAt_mirrored]
    omega

end StridedCopy

end LoopNest
