import LoopNest.Proofs.Parallel.BoxWalk

/-!
# The Hilbert curve makes unit steps

A frame is walked from its origin to the far end of the row of the origin, without a diagonal step,
if its length is even or its width odd (`Frame.Walkable`). The parts of such a frame are such frames
again, and each part ends beside the start of the following one, so the walk through the frame is put
together from the walks through its parts (`Frame.Walkable.walks`).

The parity alone does not survive the descent. A row of one cell that is not the whole frame would be
walked across and end in the wrong corner, and a half is rounded up in a backward direction, so an
odd length cannot be halved there; the two other conditions exclude this.

The major side of a rectangle is chosen so that its frame is walkable (`Hilbert.exists_walkable`).
Hence the curve on a box visits every cell once by unit steps, and a thread never leaves it for the
serpentine curve (`Hilbert.hamiltonian`).
-/

namespace LoopNest.Curve

namespace Point

/-- Two cells of the plane that differ by one in exactly one coordinate. -/
def Beside (p q : Point) : Prop := (p.x - q.x).natAbs + (p.y - q.y).natAbs = 1

/-- A step to a neighbour. -/
def IsUnit (step : Point) : Prop := step.x.natAbs + step.y.natAbs = 1

theorem Beside.symm {p q : Point} (h : p.Beside q) : q.Beside p := by
  unfold Beside at *
  omega

theorem IsUnit.opposite {step : Point} (h : step.IsUnit) : step.opposite.IsUnit := by
  simpa [IsUnit, Point.opposite] using h

theorem IsUnit.beside {step : Point} (h : step.IsUnit) (p : Point) (count : Int) :
    (p.move step count).Beside (p.move step (count + 1)) := by
  have hx : p.x + step.x * count - (p.x + step.x * (count + 1)) = -step.x := by ring
  have hy : p.y + step.y * count - (p.y + step.y * (count + 1)) = -step.y := by ring
  show (p.x + step.x * count - (p.x + step.x * (count + 1))).natAbs +
    (p.y + step.y * count - (p.y + step.y * (count + 1))).natAbs = 1
  rw [hx, hy, Int.natAbs_neg, Int.natAbs_neg]
  exact h

end Point

/-- A walk through `count` cells by unit steps. -/
structure Walks (cell : Int → Point) (count : Nat) (first last : Point) : Prop where
  pos : 1 ≤ count
  head : cell 0 = first
  last : cell (count - 1) = last
  steps : ∀ i : Nat, i + 1 < count → (cell i).Beside (cell (i + 1))

/-- A straight line is a walk. -/
theorem Walks.line {step : Point} (h : step.IsUnit) (p : Point) {count : Nat} (hcount : 1 ≤ count) :
    Walks (fun i => p.move step i) count p (p.move step (count - 1)) where
  pos := hcount
  head := Point.move_zero p step
  last := rfl
  steps i _ := h.beside p i

/-- Two walks one behind the other are a walk if the second starts beside the end of the first. -/
theorem Walks.append {near far cell : Int → Point} {n m : Nat} {a b c d : Point}
    (hnear : Walks near n a b) (hfar : Walks far m c d) (hjoin : b.Beside c)
    (hcell : ∀ i, cell i = if i < n then near i else far (i - n)) : Walks cell (n + m) a d where
  pos := Nat.le_add_right_of_le hnear.pos
  head := by
    rw [hcell, if_pos (by exact_mod_cast hnear.pos), hnear.head]
  last := by
    have hpos := hfar.pos
    rw [hcell, if_neg (by push_cast; omega), ← hfar.last]
    congr 1
    push_cast
    ring
  steps i hi := by
    rw [hcell, hcell]
    rcases lt_trichotomy (i + 1) n with hlt | rfl | hgt
    · rw [if_pos (by omega), if_pos (by omega)]
      exact hnear.steps i hlt
    · -- the step from the last cell of the first walk to the first cell of the second
      have hend := hnear.last
      rw [Nat.cast_add, Nat.cast_one, add_sub_cancel_right] at hend
      rw [if_pos (by omega), if_neg (by omega), hend, Nat.cast_add, Nat.cast_one, sub_self,
        hfar.head]
      exact hjoin
    · obtain ⟨j, rfl⟩ := Nat.exists_eq_add_of_le (Nat.le_of_lt_succ hgt)
      rw [if_neg (by omega), if_neg (by omega)]
      have hstep := hfar.steps j (by omega)
      rw [show ((n + j : Nat) : Int) - n = j by push_cast; ring,
        show ((n + j : Nat) : Int) + 1 - n = j + 1 by push_cast; ring]
      exact hstep

namespace Frame

/-- A frame that is walked by unit steps from its origin to the far end of the row of the origin. -/
structure Walkable (f : Frame) : Prop where
  length_pos : 1 ≤ f.length
  width_pos : 1 ≤ f.width
  along : f.along.IsUnit
  across : f.across.IsUnit
  parity : f.length % 2 = 0 ∨ f.width % 2 = 1
  straight : f.length = 1 → f.width = 1
  backward : f.along.x + f.along.y < 0 → f.length % 2 = 0 ∨ f.length = 1

theorem evenHalf_mod_two (direction : Point) {n : Nat} (hn : 2 < n) :
    evenHalf direction n % 2 = 0 := by
  unfold evenHalf
  split <;> omega

theorem evenHalf_two (direction : Point) : evenHalf direction 2 = 1 := by
  unfold evenHalf half
  split <;> split <;> omega

theorem half_two (direction : Point) : half direction 2 = 1 := by
  unfold half
  split <;> omega

/-- In a forward direction a long side keeps more than a row behind its first half. -/
theorem evenHalf_add_two_le {direction : Point} (hforward : ¬ direction.x + direction.y < 0)
    {n : Nat} (hn : 5 ≤ n) : evenHalf direction n + 2 ≤ n := by
  unfold evenHalf half
  rw [if_neg hforward]
  split <;> omega

namespace Walkable

variable {f : Frame} (h : f.Walkable)

include h

theorem near (hw : 2 ≤ f.width) (hlong : 3 * f.width < 2 * f.length) : f.near.Walkable := by
  have heven : f.near.length % 2 = 0 := evenHalf_mod_two f.along (by omega)
  have hpos : 0 < f.near.length := evenHalf_pos f.along (by omega)
  exact {
    length_pos := hpos
    width_pos := h.width_pos
    along := h.along
    across := h.across
    parity := Or.inl heven
    straight := fun hone => absurd heven (by omega)
    backward := fun _ => Or.inl heven }

theorem far (hw : 2 ≤ f.width) (hlong : 3 * f.width < 2 * f.length) : f.far.Walkable := by
  have heven := evenHalf_mod_two f.along (n := f.length) (by omega)
  have hlt := evenHalf_lt f.along (n := f.length) (by omega)
  have hlength : f.far.length = f.length - evenHalf f.along f.length := rfl
  have hlength_pos := h.length_pos
  refine {
    length_pos := by omega
    width_pos := h.width_pos
    along := h.along
    across := h.across
    parity := h.parity.imp_left fun _ => by omega
    straight := fun hone => ?_
    backward := fun hsign => Or.inl ?_ }
  · -- one row would be left of an odd length only, and then the width is odd and the direction
    -- forward, so more than one row is left
    exfalso
    have hodd : f.width % 2 = 1 := h.parity.resolve_left (by omega)
    have hforward : ¬ f.along.x + f.along.y < 0 := fun hsign => by
      have := h.backward hsign
      omega
    have := evenHalf_add_two_le hforward (n := f.length) (by omega)
    omega
  · have := h.backward hsign
    omega

/-- A compact frame of width two is a square. -/
theorem length_eq_two (hl : 2 ≤ f.length) (hcompact : ¬ 3 * f.width < 2 * f.length)
    (hw : f.width = 2) : f.length = 2 := by
  have := h.parity
  omega

theorem up (hw : 2 ≤ f.width) (hl : 2 ≤ f.length) (hcompact : ¬ 3 * f.width < 2 * f.length) :
    f.up.Walkable := by
  have hpos : 0 < f.up.length := evenHalf_pos f.across hw
  have hpos' : 0 < f.up.width := half_pos f.along hl
  rcases Nat.lt_or_eq_of_le hw with hw' | hw'
  · have heven : f.up.length % 2 = 0 := evenHalf_mod_two f.across hw'
    exact ⟨hpos, hpos', h.across, h.along, Or.inl heven, fun hone => absurd heven (by omega),
      fun _ => Or.inl heven⟩
  · have hlength : f.up.length = 1 := by rw [Frame.up, ← hw', evenHalf_two]
    have hwidth : f.up.width = 1 := by
      rw [Frame.up, h.length_eq_two hl hcompact hw'.symm, half_two]
    exact ⟨hpos, hpos', h.across, h.along, Or.inr (by omega), fun _ => hwidth,
      fun _ => Or.inr hlength⟩

theorem middle (hw : 2 ≤ f.width) (hl : 2 ≤ f.length)
    (hcompact : ¬ 3 * f.width < 2 * f.length) : f.middle.Walkable := by
  have hlt := evenHalf_lt f.across hw
  have hwidth : f.middle.width = f.width - evenHalf f.across f.width := rfl
  refine ⟨h.length_pos, by omega, h.along, h.across, ?_, fun hone => ?_, h.backward⟩
  · rcases Nat.lt_or_eq_of_le hw with hw' | hw'
    · have heven := evenHalf_mod_two f.across hw'
      exact h.parity.imp_right fun _ => by omega
    · have := h.length_eq_two hl hcompact hw'.symm
      exact Or.inl (by show f.length % 2 = 0; omega)
  · have hone : f.length = 1 := hone
    omega

theorem down (hw : 2 ≤ f.width) (hl : 2 ≤ f.length) (hcompact : ¬ 3 * f.width < 2 * f.length) :
    f.down.Walkable := by
  have hpos : 0 < f.down.length := evenHalf_pos f.across hw
  have hlt := half_lt f.along hl
  have hwidth : f.down.width = f.length - half f.along f.length := rfl
  rcases Nat.lt_or_eq_of_le hw with hw' | hw'
  · have heven : f.down.length % 2 = 0 := evenHalf_mod_two f.across hw'
    exact ⟨hpos, by omega, h.across.opposite, h.along.opposite, Or.inl heven,
      fun hone => absurd heven (by omega), fun _ => Or.inl heven⟩
  · have hlength : f.down.length = 1 := by rw [Frame.down, ← hw', evenHalf_two]
    have hone : f.down.width = 1 := by
      rw [hwidth, h.length_eq_two hl hcompact hw'.symm, half_two]
    exact ⟨hpos, by omega, h.across.opposite, h.along.opposite, Or.inr (by omega), fun _ => hone,
      fun _ => Or.inr hlength⟩

end Walkable

/-! ## Where the parts meet -/

theorem beside_near_far (f : Frame) (h : f.along.IsUnit) :
    (f.near.place (f.near.length - 1) 0).Beside f.far.origin := by
  have hstep := h.beside f.origin (f.near.length - 1 : Int)
  rw [sub_add_cancel] at hstep
  rw [place, Point.move_zero]
  exact hstep

theorem beside_up_middle (f : Frame) (h : f.across.IsUnit) :
    (f.up.place (f.up.length - 1) 0).Beside f.middle.origin := by
  have hstep := h.beside f.origin (f.up.length - 1 : Int)
  rw [sub_add_cancel] at hstep
  rw [place, Point.move_zero]
  exact hstep

theorem beside_middle_down (f : Frame) (h : f.across.IsUnit) :
    (f.middle.place (f.middle.length - 1) 0).Beside f.down.origin := by
  have hstep := h.beside (f.origin.move f.along (f.length - 1)) (f.up.length - 1 : Int)
  rw [sub_add_cancel] at hstep
  rw [place, Point.move_zero, middle, Point.move_comm]
  exact hstep.symm

theorem place_far_end {f : Frame} (hl : 2 ≤ f.length) :
    f.far.place (f.far.length - 1) 0 = f.place (f.length - 1) 0 := by
  have hlt := evenHalf_lt f.along hl
  ext
  all_goals
    simp only [place, far, Point.move]
    rw [Nat.cast_sub hlt.le]
    ring

theorem place_down_end (f : Frame) :
    f.down.place (f.down.length - 1) 0 = f.place (f.length - 1) 0 := by
  ext
  all_goals
    simp only [place, down, Point.move, Point.opposite]
    ring

/-- A walkable frame is walked by unit steps from its origin to the far end of its first row. -/
theorem Walkable.walks {f : Frame} (h : f.Walkable) :
    Walks f.cell (f.length * f.width) f.origin (f.place (f.length - 1) 0) := by
  -- on length plus width, as a compact frame hands its sides on to its parts in exchanged roles
  induction hm : f.length + f.width using Nat.strong_induction_on generalizing f with
  | _ m ih =>
      subst hm
      by_cases hw : f.width = 1
      · have hline := Walks.line h.along f.origin h.length_pos
        have hcell : f.cell = fun i => f.origin.move f.along i := by
          funext i
          rw [cell_of_width_one hw, place, Point.move_zero]
        rw [hcell, hw, Nat.mul_one, place, Point.move_zero]
        exact hline
      have hw2 : 2 ≤ f.width := by
        have := h.width_pos
        omega
      have hl2 : 2 ≤ f.length := by
        have := h.length_pos
        have := h.straight
        omega
      by_cases hlong : 3 * f.width < 2 * f.length
      · -- a long frame is cut across; the far part goes on in the row of the origin
        have hlt := evenHalf_lt f.along hl2
        have hpos := evenHalf_pos f.along hl2
        have hnear := ih _ (by simp only [Frame.near]; omega) (h.near hw2 hlong) rfl
        have hfar := ih _ (by simp only [Frame.far]; omega) (h.far hw2 hlong) rfl
        rw [← cells_long hl2, ← place_far_end hl2]
        exact hnear.append hfar (beside_near_far f h.along) (cell_of_long hw2 hl2 hlong)
      · -- up in the first columns, along the middle, and down again in the last columns
        have hacross := evenHalf_lt f.across hw2
        have hacross' := evenHalf_pos f.across hw2
        have halong := half_lt f.along hl2
        have halong' := half_pos f.along hl2
        have hup := ih _ (by simp only [Frame.up]; omega) (h.up hw2 hl2 hlong) rfl
        have hmiddle := ih _ (by simp only [Frame.middle]; omega) (h.middle hw2 hl2 hlong) rfl
        have hdown := ih _ (by simp only [Frame.down]; omega) (h.down hw2 hl2 hlong) rfl
        rw [← cells_compact hw2, ← place_down_end, Nat.add_assoc]
        exact hup.append (hmiddle.append hdown (beside_middle_down f h.across) fun _ => rfl)
          (beside_up_middle f h.across) (cell_of_compact hw2 hl2 hlong)

end Frame

/-! ## Rectangles and boxes -/

namespace Hilbert

/-- The curve on a rectangle is the walk through a walkable frame. -/
theorem exists_walkable {w h : Int} (hw : 1 ≤ w) (hh : 1 ≤ h) :
    ∃ f : Frame, f.Walkable ∧ ((f.length * f.width : Nat) : Int) = w * h ∧
      ∀ i, cell2 i w h = f.cell i := by
  obtain ⟨a, rfl⟩ := Int.eq_ofNat_of_zero_le (show 0 ≤ w by omega)
  obtain ⟨b, rfl⟩ := Int.eq_ofNat_of_zero_le (show 0 ≤ h by omega)
  have hsignA : (a : Int).sign = 1 := Int.sign_eq_one_of_pos (by omega)
  have hsignB : (b : Int).sign = 1 := Int.sign_eq_one_of_pos (by omega)
  have hright : (⟨1, 0⟩ : Point).IsUnit := rfl
  have hup : (⟨0, 1⟩ : Point).IsUnit := rfl
  have hmodA : (a : Int).tmod 2 = (a % 2 : Nat) := rfl
  have hmodB : (b : Int).tmod 2 = (b % 2 : Nat) := rfl
  -- the longer side is gone along, unless only the other one is even
  by_cases hmajor : ((b : Int) ≤ a ∧ ((a : Int).tmod 2 = 0 ∨ (b : Int).tmod 2 = 1)) ∨
      ¬ ((a : Int).tmod 2 = 1 ∨ (b : Int).tmod 2 = 0)
  · refine ⟨⟨⟨0, 0⟩, ⟨1, 0⟩, a, ⟨0, 1⟩, b⟩, ?_, by push_cast; rfl, fun i => ?_⟩
    · rw [hmodA, hmodB] at hmajor
      refine ⟨?_, ?_, hright, hup, ?_, ?_, ?_⟩ <;> dsimp only <;> omega
    · rw [cell2, if_pos hmajor, hsignA, hsignB]
      rfl
  · refine ⟨⟨⟨0, 0⟩, ⟨0, 1⟩, b, ⟨1, 0⟩, a⟩, ?_, by push_cast; ring, fun i => ?_⟩
    · rw [hmodA, hmodB] at hmajor
      refine ⟨?_, ?_, hup, hright, ?_, ?_, ?_⟩ <;> dsimp only <;> omega
    · rw [cell2, if_neg hmajor, hsignA, hsignB]
      rfl

/-- Consecutive cells of the curve on a rectangle are neighbours. -/
theorem beside_cell2 {w h : Int} (hw : 1 ≤ w) (hh : 1 ≤ h) {i : Int} (hi : 0 ≤ i)
    (hlt : i + 1 < w * h) : (cell2 i w h).Beside (cell2 (i + 1) w h) := by
  obtain ⟨f, hf, hsize, hcell⟩ := exists_walkable hw hh
  obtain ⟨n, rfl⟩ := Int.eq_ofNat_of_zero_le hi
  rw [hcell, hcell]
  exact hf.walks.steps n (by omega)

/-- The curve on a box takes its indices to the cells, one to one. -/
theorem bijOn_cell {w h d : Int} (hw : 1 ≤ w) (hh : 1 ≤ h) :
    Set.BijOn (fun i => cell i w h d) {i | 0 ≤ i ∧ i < w * h * d}
      {c | (0 ≤ c.x ∧ c.x < w) ∧ (0 ≤ c.y ∧ c.y < h) ∧ 0 ≤ c.z ∧ c.z < d} := by
  apply bijOn_of_reaches (by omega) (by omega)
  intro c hc
  obtain ⟨hx, hy, hz⟩ := mem_boxCells.1 hc
  exact exists_cell_eq hx hy hz

/-- The curve stays in its box. -/
theorem cell_mem_boxCells {w h d : Int} (hw : 1 ≤ w) (hh : 1 ≤ h) {i : Int} (hi : 0 ≤ i)
    (hlt : i < w * h * d) : cell i w h d ∈ boxCells w h d :=
  mem_boxCells.2 ((bijOn_cell hw hh).mapsTo ⟨hi, hlt⟩)

/-- Consecutive cells of the curve on a box are neighbours. -/
theorem isNext_cell {w h d : Int} (hw : 1 ≤ w) (hh : 1 ≤ h) (hd : 1 ≤ d) {i : Int} (hi : 0 ≤ i)
    (hlt : i + 1 < w * h * d) : (cell i w h d).isNext (cell (i + 1) w h d) = true := by
  have hplane : 1 ≤ w * h := Int.mul_pos (by omega) (by omega)
  unfold cell
  by_cases hflat : d = 1
  · have hstep := beside_cell2 hw hh hi (by rw [hflat, mul_one] at hlt; exact hlt)
    rw [if_pos hflat, if_pos hflat, Cell.isNext, decide_eq_true_iff]
    unfold Point.Beside at hstep
    dsimp only
    omega
  · rw [if_neg hflat, if_neg hflat, Cell.isNext, decide_eq_true_iff]
    have hstep := beside_cell2 hplane hd hi hlt
    have hbounds : ∀ {j}, 0 ≤ j → j < w * h * d →
        0 ≤ (cell2 j (w * h) d).x ∧ (cell2 j (w * h) d).x < w * h := by
      intro j hj hjlt
      have hmem := cell_mem_boxCells (d := 1) hplane hd hj (by rw [mul_one]; exact hjlt)
      exact (mem_boxCells.1 hmem).1
    obtain ⟨h0, hlt0⟩ := hbounds hi (by omega)
    obtain ⟨h1, hlt1⟩ := hbounds (show 0 ≤ i + 1 by omega) hlt
    generalize cell2 i (w * h) d = q at *
    generalize cell2 (i + 1) (w * h) d = q' at *
    dsimp only
    -- either the depth changes, or the index in the plane does
    unfold Point.Beside at hstep
    obtain hx | hx | hx : q'.x = q.x ∨ q'.x = q.x + 1 ∨ q.x = q'.x + 1 := by omega
    · rw [hx]
      omega
    · have hinner := beside_cell2 hw hh h0 (by omega)
      rw [hx]
      unfold Point.Beside at hinner
      omega
    · have hinner := beside_cell2 hw hh h1 (by omega)
      rw [hx]
      unfold Point.Beside at hinner
      omega

theorem isChain_walk {w h d : Int} (hw : 1 ≤ w) (hh : 1 ≤ h) (hd : 1 ≤ d) :
    (walk (fun i => cell i w h d) w h d).IsChain fun a b => a.isNext b = true := by
  apply isChain_walk_of_steps
  intro i hi hlt
  exact isNext_cell hw hh hd hi hlt

/-- Distinct indices below the number of cells have distinct cells. -/
theorem injOn_cell {w h d : Int} (hw : 1 ≤ w) (hh : 1 ≤ h) :
    Set.InjOn (fun i => cell i w h d) {i | 0 ≤ i ∧ i < w * h * d} :=
  (bijOn_cell hw hh).injOn

/-- The curve on a box is a walk from the corner at zero through every cell exactly once, each time to
a neighbour; so it is the walk of every share with that box. -/
theorem hamiltonian {w h d : Int} (hw : 1 ≤ w) (hh : 1 ≤ h) (hd : 1 ≤ d) :
    Set.BijOn (fun i => cell i w h d) {i | 0 ≤ i ∧ i < w * h * d}
      {c | (0 ≤ c.x ∧ c.x < w) ∧ (0 ≤ c.y ∧ c.y < h) ∧ 0 ≤ c.z ∧ c.z < d} ∧
    cell 0 w h d = ⟨0, 0, 0⟩ ∧
    (∀ i, 0 ≤ i → i + 1 < w * h * d →
      (cell i w h d).isNext (cell (i + 1) w h d) = true) ∧
    ∀ share : Share, share.m.length = w → share.n.length = h →
      share.path d = (walk (fun i => cell i w h d) w h d).map share.taskAt := by
  refine ⟨⟨?_, injOn_cell hw hh, ?_⟩, cell_zero hw hh hd, fun i hi hlt => ?_, ?_⟩
  · rintro i ⟨hi, hlt⟩
    exact mem_boxCells.1 (cell_mem_boxCells hw hh hi hlt)
  · rintro c ⟨hx, hy, hz⟩
    obtain ⟨n, hn, hcell⟩ := exists_cell_eq hx hy hz
    exact ⟨n, ⟨Int.natCast_nonneg n, hn⟩, hcell⟩
  · exact isNext_cell hw hh hd hi hlt
  · rintro share rfl rfl
    unfold Share.path
    dsimp only
    rw [if_pos (hasUnitSteps_iff.2 (isChain_walk hw hh hd))]
    rfl

/-- A plane with an odd and an even side, three layers deep. -/
theorem hamiltonian_five_four_three :
    Set.BijOn (fun i => cell i 5 4 3) {i | 0 ≤ i ∧ i < 60}
      {c | (0 ≤ c.x ∧ c.x < 5) ∧ (0 ≤ c.y ∧ c.y < 4) ∧ 0 ≤ c.z ∧ c.z < 3} ∧
    (cell 30 5 4 3).isNext (cell 31 5 4 3) = true := by
  obtain ⟨hbij, -, hsteps, -⟩ := hamiltonian (w := 5) (h := 4) (d := 3) (by decide) (by decide)
    (by decide)
  exact ⟨hbij, hsteps 30 (by decide) (by decide)⟩

end Hilbert

end LoopNest.Curve
