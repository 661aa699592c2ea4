import LoopNest.Proofs.Curve.Box

/-!
# The serpentine curve reaches every cell by unit steps

The serpentine curve is a snake of snakes: layers are walked forwards and backwards in turn, and so
are the rows of a layer. `snake` is one such walk on positions. Its next position lies one further
in the same row, or at the same place in the next row (`snake_succ`), and every position is reached
(`snake_turn`).

Hence every cell of a box is reached (`Serpentine.exists_cell_eq`), the walk starts in the corner
(`Serpentine.cell_zero`), and consecutive cells are neighbours (`Serpentine.isNext_cell`). No index
of a box is refused, and no cell is visited twice (`Serpentine.traverses_box`).
-/

namespace LoopNest.Curve.Serpentine

/-- A position in a row of `n` cells, taken from the other end in every second row. -/
def turn (row n t : Int) : Int := if row.tmod 2 = 1 then n - 1 - t else t

/-- Row and position at index `s` of a walk through rows of `n` cells. -/
def snake (n s : Int) : Int × Int := (s.tdiv n, turn (s.tdiv n) n (s.tmod n))

theorem cell_eq_snake (i w h : Int) :
    cell i w h =
      ⟨(snake w (snake (w * h) i).2).2, (snake w (snake (w * h) i).2).1, (snake (w * h) i).1⟩ := rfl

theorem turn_turn (row n t : Int) : turn row n (turn row n t) = t := by
  unfold turn
  split
  · omega
  · rfl

theorem turn_bounds {n t : Int} (row : Int) (ht : 0 ≤ t ∧ t < n) :
    0 ≤ turn row n t ∧ turn row n t < n := by
  unfold turn
  split <;> omega

/-- The last position of a row is the first one of the next row. -/
theorem turn_wrap {row : Int} (hrow : 0 ≤ row) (n : Int) :
    turn (row + 1) n 0 = turn row n (n - 1) := by
  have hparity : (row + 1).tmod 2 = 1 - row.tmod 2 := by
    rw [Int.tmod_eq_emod_of_nonneg hrow, Int.tmod_eq_emod_of_nonneg (by omega)]
    omega
  have hcases : row.tmod 2 = 0 ∨ row.tmod 2 = 1 := by
    rw [Int.tmod_eq_emod_of_nonneg hrow]
    omega
  unfold turn
  rcases hcases with heven | hodd
  · rw [if_pos (by omega), if_neg (by omega)]
    omega
  · rw [if_neg (by omega), if_pos hodd]
    omega

theorem snake_eq {n row t : Int} (hrow : 0 ≤ row) (ht : 0 ≤ t ∧ t < n) :
    snake n (row * n + t) = (row, turn row n t) := by
  rw [snake, tdiv_mul_add hrow ht, tmod_mul_add hrow ht]

/-- Every position of every row is reached. -/
theorem snake_turn {n row t : Int} (hrow : 0 ≤ row) (ht : 0 ≤ t ∧ t < n) :
    snake n (row * n + turn row n t) = (row, t) := by
  rw [snake_eq hrow (turn_bounds row ht), turn_turn]

theorem snake_bounds {n s : Int} (hn : 0 < n) (hs : 0 ≤ s) :
    0 ≤ (snake n s).2 ∧ (snake n s).2 < n := by
  obtain ⟨row, t, hrow, ht, rfl⟩ := exists_mul_add hn hs
  rw [snake_eq hrow ht]
  exact turn_bounds row ht

/-- One step of a walk moves by one along a row, or keeps the position and enters the next row. -/
theorem snake_succ {n s : Int} (hn : 0 < n) (hs : 0 ≤ s) :
    ((snake n (s + 1)).1 = (snake n s).1 ∧
        ((snake n (s + 1)).2 = (snake n s).2 + 1 ∨ (snake n s).2 = (snake n (s + 1)).2 + 1)) ∨
      ((snake n (s + 1)).1 = (snake n s).1 + 1 ∧ (snake n (s + 1)).2 = (snake n s).2) := by
  obtain ⟨row, t, hrow, ht, rfl⟩ := exists_mul_add hn hs
  by_cases hlast : t + 1 < n
  · left
    rw [add_assoc, snake_eq hrow ht, snake_eq hrow (by omega)]
    refine ⟨rfl, ?_⟩
    simp only [turn]
    split <;> omega
  · right
    obtain rfl : t = n - 1 := by omega
    have hnext : row * n + (n - 1) + 1 = (row + 1) * n + 0 := by ring
    rw [hnext, snake_eq hrow ht, snake_eq (by omega) (by omega)]
    exact ⟨rfl, turn_wrap hrow n⟩

/-! ## Boxes -/

/-- The serpentine curve reaches every cell of a box. -/
theorem exists_cell_eq {w h d x y z : Int} (hx : 0 ≤ x ∧ x < w) (hy : 0 ≤ y ∧ y < h)
    (hz : 0 ≤ z ∧ z < d) : ∃ n : Nat, (n : Int) < w * h * d ∧ cell n w h = ⟨x, y, z⟩ := by
  have hrow := turn_bounds y hx
  have hcode : ∀ {a b p q : Int}, 0 ≤ p → p < b → 0 ≤ q ∧ q < a →
      0 ≤ p * a + q ∧ p * a + q < a * b := by
    intro a b p q hp hpb hq
    have h1 := Int.mul_nonneg hp (show 0 ≤ a by omega)
    have h2 := Int.mul_le_mul_of_nonneg_right (show p + 1 ≤ b by omega) (show 0 ≤ a by omega)
    rw [add_mul, one_mul, mul_comm b] at h2
    omega
  have hlayer := turn_bounds z (hcode hy.1 hy.2 hrow)
  obtain ⟨h0, hlt⟩ := hcode hz.1 hz.2 hlayer
  refine ⟨_, (Int.toNat_of_nonneg h0).trans_lt hlt, ?_⟩
  rw [Int.toNat_of_nonneg h0, cell_eq_snake, snake_turn hz.1 (hcode hy.1 hy.2 hrow)]
  dsimp only
  rw [snake_turn hy.1 hx]

/-- The serpentine curve starts in the corner of its box. -/
theorem cell_zero (w h : Int) : cell 0 w h = ⟨0, 0, 0⟩ := by
  simp [cell_eq_snake, snake, turn]

/-- Consecutive cells of the serpentine curve differ by one in one coordinate. -/
theorem isNext_cell {w h i : Int} (hw : 0 < w) (hh : 0 < h) (hi : 0 ≤ i) :
    (cell i w h).isNext (cell (i + 1) w h) = true := by
  have hplane : 0 < w * h := Int.mul_pos hw hh
  obtain ⟨h0, -⟩ := snake_bounds hplane hi
  obtain ⟨h1, -⟩ := snake_bounds hplane (show 0 ≤ i + 1 by omega)
  rw [cell_eq_snake, cell_eq_snake, Cell.isNext, decide_eq_true_iff]
  dsimp only
  rcases snake_succ hplane hi with ⟨hz, hstep | hstep⟩ | ⟨hz, hstep⟩
  · rw [hz, hstep]
    rcases snake_succ hw h0 with ⟨hy, hx | hx⟩ | ⟨hy, hx⟩ <;> omega
  · rw [hz, hstep]
    rcases snake_succ hw h1 with ⟨hy, hx | hx⟩ | ⟨hy, hx⟩ <;> omega
  · rw [hz, hstep]
    omega

/-- The layer at an index of a box is one of its layers, so the index is not refused. -/
theorem checkedCell_eq_ok {w h d i : Int} (hw : 1 ≤ w) (hh : 1 ≤ h)
    (hz : (cell i w h).z < d) : checkedCell i w h d = .ok (cell i w h) := by
  have hplane : 0 < w * h := Int.mul_pos (by omega) (by omega)
  rw [checkedCell, if_neg (by omega)]
  exact if_pos hz

/-- The serpentine curve on a box is a walk from the corner at zero through every cell exactly once,
each time to a neighbour, whatever the parities of the sides. No index of the box is refused. -/
theorem traverses_box {w h d : Int} (hw : 1 ≤ w) (hh : 1 ≤ h) (hd : 1 ≤ d) :
    Set.BijOn (fun i => cell i w h) {i | 0 ≤ i ∧ i < w * h * d}
      {c | (0 ≤ c.x ∧ c.x < w) ∧ (0 ≤ c.y ∧ c.y < h) ∧ 0 ≤ c.z ∧ c.z < d} ∧
    checkedCell 0 w h d = .ok ⟨0, 0, 0⟩ ∧
    (∀ i, 0 ≤ i → i < w * h * d → checkedCell i w h d = .ok (cell i w h)) ∧
    ∀ i, 0 ≤ i → i + 1 < w * h * d → (cell i w h).isNext (cell (i + 1) w h) = true := by
  have hbij : Set.BijOn (fun i => cell i w h) {i | 0 ≤ i ∧ i < w * h * d}
      {c | (0 ≤ c.x ∧ c.x < w) ∧ (0 ≤ c.y ∧ c.y < h) ∧ 0 ≤ c.z ∧ c.z < d} := by
    apply bijOn_of_reaches (by omega) (by omega)
    intro c hc
    obtain ⟨hx, hy, hz⟩ := mem_boxCells.1 hc
    exact exists_cell_eq hx hy hz
  have hchecked : ∀ i, 0 ≤ i → i < w * h * d → checkedCell i w h d = .ok (cell i w h) := by
    intro i hi hlt
    obtain ⟨-, -, -, hz⟩ := hbij.mapsTo ⟨hi, hlt⟩
    exact checkedCell_eq_ok hw hh hz
  refine ⟨hbij, ?_, hchecked, ?_⟩
  · have hsize : 0 < w * h * d := Int.mul_pos (Int.mul_pos (by omega) (by omega)) (by omega)
    rw [hchecked 0 (le_refl 0) hsize, cell_zero]
  · intro i hi _
    exact isNext_cell (by omega) (by omega) hi

/-- An odd plane in two layers: the second layer is walked from where the first one ended. -/
theorem traverses_box_three_three_two :
    Set.BijOn (fun i => cell i 3 3) {i | 0 ≤ i ∧ i < 18}
      {c | (0 ≤ c.x ∧ c.x < 3) ∧ (0 ≤ c.y ∧ c.y < 3) ∧ 0 ≤ c.z ∧ c.z < 2} ∧
    checkedCell 9 3 3 2 = .ok (cell 9 3 3) ∧ (cell 8 3 3).isNext (cell 9 3 3) = true := by
  obtain ⟨hbij, -, hchecked, hsteps⟩ := traverses_box (w := 3) (h := 3) (d := 2) (by decide)
    (by decide) (by decide)
  exact ⟨hbij, hchecked 9 (by decide) (by decide), hsteps 8 (by decide) (by decide)⟩

end LoopNest.Curve.Serpentine
