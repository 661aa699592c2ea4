import LoopNest.Curve.Hilbert
import Mathlib.Tactic

/-!
# The Hilbert curve reaches every cell

A frame is cut into two or three parts, and every cell of the frame lies in one of them. By
induction on the two sides, the walk through a frame reaches every cell at an index below their
product (`Frame.exists_cell_eq`). The first cell of the walk is the origin of the frame
(`Frame.cell_zero`). Both facts carry over to the curve on a rectangle and on a box
(`Hilbert.exists_cell_eq`, `Hilbert.cell_zero`).
-/

namespace LoopNest.Curve

attribute [ext] Point Cell

namespace Point

theorem move_zero (p step : Point) : p.move step 0 = p := by
  ext <;> simp [move]

theorem move_move (p step : Point) (a b : Int) :
    (p.move step a).move step b = p.move step (a + b) := by
  ext <;> simp only [move] <;> ring

theorem move_comm (p step step' : Point) (a b : Int) :
    (p.move step a).move step' b = (p.move step' b).move step a := by
  ext <;> simp only [move] <;> ring

end Point

namespace Frame

/-- The cell of a frame at given positions along and across. -/
def place (f : Frame) (i j : Int) : Point := (f.origin.move f.along i).move f.across j

/-! ## The parts of a frame -/

/-- The near half of a long frame. -/
def near (f : Frame) : Frame := { f with length := evenHalf f.along f.length }

/-- The far half of a long frame. -/
def far (f : Frame) : Frame :=
  { f with
    origin := f.origin.move f.along (evenHalf f.along f.length)
    length := f.length - evenHalf f.along f.length }

/-- The part of a compact frame that is walked across first. -/
def up (f : Frame) : Frame :=
  ⟨f.origin, f.across, evenHalf f.across f.width, f.along, half f.along f.length⟩

/-- The part of a compact frame that is walked along in the middle. -/
def middle (f : Frame) : Frame :=
  ⟨f.origin.move f.across (evenHalf f.across f.width), f.along, f.length, f.across,
    f.width - evenHalf f.across f.width⟩

/-- The part of a compact frame that is walked back across at the end. -/
def down (f : Frame) : Frame :=
  ⟨(f.origin.move f.along (f.length - 1)).move f.across (evenHalf f.across f.width - 1),
    f.across.opposite, evenHalf f.across f.width, f.along.opposite,
    f.length - half f.along f.length⟩

theorem cell_of_width_one {f : Frame} (h : f.width = 1) (n : Int) : f.cell n = f.place n 0 := by
  rw [cell, if_pos h, Frame.place, Point.move_zero]

theorem cell_of_length_one {f : Frame} (h : f.length = 1) (n : Int) (hw : f.width ≠ 1) :
    f.cell n = f.place 0 n := by
  rw [cell, if_neg hw, if_pos h, Frame.place, Point.move_zero]

theorem cell_of_long {f : Frame} (hw : 2 ≤ f.width) (hl : 2 ≤ f.length)
    (h : 3 * f.width < 2 * f.length) (n : Int) :
    f.cell n = if n < (f.near.length * f.width : Nat) then f.near.cell n
      else f.far.cell (n - (f.near.length * f.width : Nat)) := by
  rw [cell, if_neg (by omega), if_neg (by omega), if_neg (by omega), if_pos h, Nat.cast_mul]
  rfl

theorem cell_of_compact {f : Frame} (hw : 2 ≤ f.width) (hl : 2 ≤ f.length)
    (h : ¬ 3 * f.width < 2 * f.length) (n : Int) :
    f.cell n = if n < (f.up.length * f.up.width : Nat) then f.up.cell n
      else if n - (f.up.length * f.up.width : Nat) < (f.middle.length * f.middle.width : Nat) then
        f.middle.cell (n - (f.up.length * f.up.width : Nat))
      else f.down.cell
        (n - (f.up.length * f.up.width : Nat) - (f.middle.length * f.middle.width : Nat)) := by
  rw [cell, if_neg (by omega), if_neg (by omega), if_neg (by omega), if_neg h, Nat.cast_mul,
    Nat.cast_mul]
  rfl

theorem half_pos (direction : Point) {n : Nat} (hn : 2 ≤ n) : 0 < half direction n := by
  unfold half
  split <;> omega

theorem half_lt (direction : Point) {n : Nat} (hn : 2 ≤ n) : half direction n < n := by
  unfold half
  split <;> omega

/-- The two halves of a long frame have as many cells as the frame. -/
theorem cells_long {f : Frame} (hl : 2 ≤ f.length) :
    f.near.length * f.width + f.far.length * f.width = f.length * f.width := by
  have hnear := evenHalf_lt f.along hl
  rw [← Nat.add_mul]
  congr 1
  simp only [near, far]
  omega

/-- The three parts of a compact frame have as many cells as the frame. -/
theorem cells_compact {f : Frame} (hw : 2 ≤ f.width) :
    f.up.length * f.up.width + f.middle.length * f.middle.width + f.down.length * f.down.width =
      f.length * f.width := by
  obtain ⟨a', ha'⟩ := Nat.exists_eq_add_of_le (half_le f.along f.length)
  obtain ⟨b', hb'⟩ := Nat.exists_eq_add_of_le (Nat.le_of_lt (evenHalf_lt f.across hw))
  have hsubA : f.length - half f.along f.length = a' := by omega
  have hsubB : f.width - evenHalf f.across f.width = b' := by omega
  simp only [up, middle, down, hsubA, hsubB]
  generalize half f.along f.length = a at *
  generalize evenHalf f.across f.width = b at *
  rw [ha', hb']
  ring

/-! ## Places in the parts -/

theorem place_far (f : Frame) {i : Nat} (h : ¬ i < evenHalf f.along f.length) (j : Int) :
    f.far.place (i - evenHalf f.along f.length : Nat) j = f.place i j := by
  rw [place, far, Point.move_move, place]
  congr 2
  omega

theorem place_up (f : Frame) (i j : Int) : f.up.place j i = f.place i j :=
  Point.move_comm _ _ _ _ _

theorem place_middle (f : Frame) {j : Nat} (h : ¬ j < evenHalf f.across f.width) (i : Int) :
    f.middle.place i (j - evenHalf f.across f.width : Nat) = f.place i j := by
  obtain ⟨c, rfl⟩ := Nat.exists_eq_add_of_le (Nat.not_lt.1 h)
  ext
  all_goals
    simp only [place, middle, Point.move, Nat.add_sub_cancel_left]
    push_cast
    ring

theorem place_down (f : Frame) {i j : Nat} (hi : i < f.length)
    (hj : j < evenHalf f.across f.width) :
    f.down.place (evenHalf f.across f.width - 1 - j : Nat) (f.length - 1 - i : Nat) =
      f.place i j := by
  have hacross : ((evenHalf f.across f.width - 1 - j : Nat) : Int) =
      evenHalf f.across f.width - 1 - j := by omega
  have halong : ((f.length - 1 - i : Nat) : Int) = f.length - 1 - i := by omega
  rw [hacross, halong]
  ext
  all_goals
    simp only [place, down, Point.move, Point.opposite]
    ring

/-! ## Coverage -/

/-- Every cell of a frame is reached at some index below the number of its cells. -/
theorem exists_cell_eq (f : Frame) {i j : Nat} (hi : i < f.length) (hj : j < f.width) :
    ∃ n : Nat, n < f.length * f.width ∧ f.cell n = f.place i j := by
  induction hm : f.length + f.width using Nat.strong_induction_on generalizing f i j with
  | _ m ih =>
      subst hm
      by_cases hw : f.width = 1
      · obtain rfl : j = 0 := by omega
        exact ⟨i, by rw [hw]; omega, cell_of_width_one hw i⟩
      by_cases hl : f.length = 1
      · obtain rfl : i = 0 := by omega
        exact ⟨j, by rw [hl]; omega, cell_of_length_one hl j hw⟩
      -- a frame with two rows and two columns is cut, and the cell lies in one of the parts
      have hw2 : 2 ≤ f.width := by omega
      have hl2 : 2 ≤ f.length := by omega
      have hacross := evenHalf_lt f.across hw2
      have hacross' := evenHalf_pos f.across hw2
      have halong := half_le f.along f.length
      have halong' := half_pos f.along hl2
      -- long frames have two parts, compact ones three; earlier parts shift the index
      by_cases hlong : 3 * f.width < 2 * f.length
      · have hnear := evenHalf_lt f.along hl2
        have hnear' := evenHalf_pos f.along hl2
        by_cases hcut : i < evenHalf f.along f.length
        · obtain ⟨n, hn, hcell⟩ := ih _ (by simp only [near]; omega) f.near hcut hj rfl
          have hn : n < f.near.length * f.width := hn
          refine ⟨n, lt_of_lt_of_le hn (Nat.mul_le_mul_right _ (Nat.le_of_lt hnear)), ?_⟩
          rw [cell_of_long hw2 hl2 hlong, if_pos (by exact_mod_cast hn), hcell]
          rfl
        · have hi' : i - evenHalf f.along f.length < f.far.length := by
            simp only [far]; omega
          obtain ⟨n, hn, hcell⟩ := ih _ (by simp only [far]; omega) f.far hi' hj rfl
          have hn : n < f.far.length * f.width := hn
          have hsum := cells_long hl2
          refine ⟨f.near.length * f.width + n, by omega, ?_⟩
          rw [cell_of_long hw2 hl2 hlong, if_neg (by push_cast; omega), Nat.cast_add,
            add_sub_cancel_left, hcell, place_far f hcut]
      · have hsum := cells_compact hw2
        by_cases hback : j < evenHalf f.across f.width
        · by_cases hcut : i < half f.along f.length
          · obtain ⟨n, hn, hcell⟩ := ih _ (by simp only [up]; omega) f.up hback hcut rfl
            refine ⟨n, by omega, ?_⟩
            rw [cell_of_compact hw2 hl2 hlong, if_pos (by exact_mod_cast hn), hcell, place_up]
          · have hj' : evenHalf f.across f.width - 1 - j < f.down.length := by
              simp only [down]; omega
            have hi' : f.length - 1 - i < f.down.width := by simp only [down]; omega
            obtain ⟨n, hn, hcell⟩ := ih _ (by simp only [down]; omega) f.down hj' hi' rfl
            refine ⟨f.up.length * f.up.width + f.middle.length * f.middle.width + n, by omega, ?_⟩
            rw [cell_of_compact hw2 hl2 hlong, if_neg (by push_cast; omega),
              if_neg (by push_cast; omega), Nat.cast_add, Nat.cast_add, add_assoc,
              add_sub_cancel_left, add_sub_cancel_left, hcell, place_down f hi hback]
        · have hj' : j - evenHalf f.across f.width < f.middle.width := by
            simp only [middle]; omega
          obtain ⟨n, hn, hcell⟩ := ih _ (by simp only [middle]; omega) f.middle hi hj' rfl
          refine ⟨f.up.length * f.up.width + n, by omega, ?_⟩
          rw [cell_of_compact hw2 hl2 hlong, if_neg (by push_cast; omega), Nat.cast_add,
            add_sub_cancel_left, if_pos (by exact_mod_cast hn), hcell, place_middle f hback]

/-- The walk through a frame starts at its origin. -/
theorem cell_zero (f : Frame) (hl : 1 ≤ f.length) (hw : 1 ≤ f.width) : f.cell 0 = f.origin := by
  -- the first part of a cut frame starts at the same origin and is smaller
  induction hm : f.length + f.width using Nat.strong_induction_on generalizing f with
  | _ m ih =>
      subst hm
      by_cases hw1 : f.width = 1
      · rw [cell_of_width_one hw1, place, Point.move_zero, Point.move_zero]
      by_cases hl1 : f.length = 1
      · rw [cell_of_length_one hl1 0 hw1, place, Point.move_zero, Point.move_zero]
      have hw2 : 2 ≤ f.width := by omega
      have hl2 : 2 ≤ f.length := by omega
      by_cases hlong : 3 * f.width < 2 * f.length
      · have hlt := evenHalf_lt f.along hl2
        have hpos := evenHalf_pos f.along hl2
        have hfirst : 0 < f.near.length * f.width := Nat.mul_pos hpos (by omega)
        rw [cell_of_long hw2 hl2 hlong, if_pos (by exact_mod_cast hfirst)]
        exact ih _ (by simp only [near]; omega) f.near hpos hw rfl
      · have hlt := evenHalf_lt f.across hw2
        have hpos := evenHalf_pos f.across hw2
        have hle := half_le f.along f.length
        have hpos' := half_pos f.along hl2
        have hfirst : 0 < f.up.length * f.up.width := Nat.mul_pos hpos hpos'
        rw [cell_of_compact hw2 hl2 hlong, if_pos (by exact_mod_cast hfirst)]
        exact ih _ (by simp only [up]; omega) f.up hpos hpos' rfl

end Frame

/-! ## Rectangles and boxes -/

namespace Hilbert

/-- The curve on a rectangle is the walk through a frame along one of its sides. -/
theorem cell2_eq (i w h : Int) :
    cell2 i w h = Frame.cell ⟨⟨0, 0⟩, ⟨w.sign, 0⟩, w.natAbs, ⟨0, h.sign⟩, h.natAbs⟩ i ∨
      cell2 i w h = Frame.cell ⟨⟨0, 0⟩, ⟨0, h.sign⟩, h.natAbs, ⟨w.sign, 0⟩, w.natAbs⟩ i := by
  unfold cell2
  dsimp only
  split
  · exact Or.inl rfl
  · exact Or.inr rfl

/-- The curve on a rectangle reaches every cell. -/
theorem exists_cell2_eq {w h x y : Int} (hx : 0 ≤ x ∧ x < w) (hy : 0 ≤ y ∧ y < h) :
    ∃ n : Nat, (n : Int) < w * h ∧ cell2 n w h = ⟨x, y⟩ := by
  obtain ⟨i, rfl⟩ := Int.eq_ofNat_of_zero_le hx.1
  obtain ⟨j, rfl⟩ := Int.eq_ofNat_of_zero_le hy.1
  have hw : w.sign = 1 := Int.sign_eq_one_of_pos (by omega)
  have hh : h.sign = 1 := Int.sign_eq_one_of_pos (by omega)
  have hi : i < w.natAbs := by omega
  have hj : j < h.natAbs := by omega
  have hsize : ((w.natAbs * h.natAbs : Nat) : Int) = w * h := by
    rw [Nat.cast_mul, Int.natAbs_of_nonneg (by omega), Int.natAbs_of_nonneg (by omega)]
  -- which side is the major axis depends on parities only
  by_cases hmajor : ∀ n, cell2 n w h =
      Frame.cell ⟨⟨0, 0⟩, ⟨w.sign, 0⟩, w.natAbs, ⟨0, h.sign⟩, h.natAbs⟩ n
  · obtain ⟨n, hn, hcell⟩ := Frame.exists_cell_eq
      ⟨⟨0, 0⟩, ⟨w.sign, 0⟩, w.natAbs, ⟨0, h.sign⟩, h.natAbs⟩ hi hj
    refine ⟨n, by rw [← hsize]; exact_mod_cast hn, ?_⟩
    rw [hmajor, hcell]
    simp [Frame.place, Point.move, hw, hh]
  · obtain ⟨n, hn, hcell⟩ := Frame.exists_cell_eq
      ⟨⟨0, 0⟩, ⟨0, h.sign⟩, h.natAbs, ⟨w.sign, 0⟩, w.natAbs⟩ hj hi
    have hminor : cell2 n w h =
        Frame.cell ⟨⟨0, 0⟩, ⟨0, h.sign⟩, h.natAbs, ⟨w.sign, 0⟩, w.natAbs⟩ n := by
      unfold cell2 at hmajor ⊢
      dsimp only at hmajor ⊢
      split
      · rename_i hfits
        exact absurd (fun n => if_pos hfits) hmajor
      · rfl
    refine ⟨n, by rw [← hsize, Nat.mul_comm]; exact_mod_cast hn, ?_⟩
    rw [hminor, hcell]
    simp [Frame.place, Point.move, hw, hh]

/-- The curve on a rectangle starts in its corner. -/
theorem cell2_zero {w h : Int} (hw : 1 ≤ w) (hh : 1 ≤ h) : cell2 0 w h = ⟨0, 0⟩ := by
  rcases cell2_eq 0 w h with heq | heq
  · rw [heq, Frame.cell_zero _ (by dsimp only; omega) (by dsimp only; omega)]
  · rw [heq, Frame.cell_zero _ (by dsimp only; omega) (by dsimp only; omega)]

/-- The curve on a box reaches every cell. -/
theorem exists_cell_eq {w h d x y z : Int} (hx : 0 ≤ x ∧ x < w) (hy : 0 ≤ y ∧ y < h)
    (hz : 0 ≤ z ∧ z < d) :
    ∃ n : Nat, (n : Int) < w * h * d ∧ cell n w h d = ⟨x, y, z⟩ := by
  obtain ⟨p, hp, hplane⟩ := exists_cell2_eq hx hy
  unfold cell
  by_cases hd : d = 1
  · obtain rfl : z = 0 := by omega
    refine ⟨p, by rw [hd, mul_one]; exact hp, ?_⟩
    rw [if_pos hd, hplane]
  · obtain ⟨n, hn, hdepth⟩ := exists_cell2_eq ⟨Int.natCast_nonneg p, hp⟩ hz
    refine ⟨n, hn, ?_⟩
    rw [if_neg hd, hdepth]
    dsimp only
    rw [hplane]

/-- The curve on a box starts in its corner. -/
theorem cell_zero {w h d : Int} (hw : 1 ≤ w) (hh : 1 ≤ h) (hd : 1 ≤ d) :
    cell 0 w h d = ⟨0, 0, 0⟩ := by
  have hplane : 1 ≤ w * h := Int.mul_pos (by omega) (by omega)
  unfold cell
  split
  · rw [cell2_zero hw hh]
  · rw [cell2_zero hplane hd]
    dsimp only
    rw [cell2_zero hw hh]

end Hilbert

end LoopNest.Curve
