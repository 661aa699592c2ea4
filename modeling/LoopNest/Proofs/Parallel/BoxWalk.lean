import LoopNest.Proofs.Curve.HilbertCoverage
import LoopNest.Proofs.Curve.SerpentineWalk

/-!
# The walk of a thread through its box

A thread visits every task of its box exactly once (`Share.path_perm`), starts at the first task on
all three axes (`Share.path_head`), and goes from each task to a neighbour (`Share.path_isChain`).

The first two hold of both curves, because both reach every cell and have as many indices as the box
has cells. The third is checked for the Hilbert curve and proved for the serpentine curve that
replaces it.
-/

namespace LoopNest

namespace Curve

/-- The check of unit steps, as a property of all neighbours in the list. -/
theorem hasUnitSteps_iff {cells : List Cell} :
    hasUnitSteps cells = true ↔ cells.IsChain fun a b => a.isNext b = true := by
  induction cells with
  | nil => exact iff_of_true rfl .nil
  | cons a rest ih =>
      cases rest with
      | nil => exact iff_of_true rfl (.singleton a)
      | cons b rest => rw [hasUnitSteps, Bool.and_eq_true, ih, List.isChain_cons_cons]

end Curve

/-! ## Tasks -/

/-- Two tasks that differ by one on one axis. -/
inductive Task.Adjacent : Task → Task → Prop where
  | m {a b : Int} (n k : Int) : b = a + 1 ∨ b = a - 1 → Adjacent ⟨a, n, k⟩ ⟨b, n, k⟩
  | n (m : Int) {a b : Int} (k : Int) : b = a + 1 ∨ b = a - 1 → Adjacent ⟨m, a, k⟩ ⟨m, b, k⟩
  | k (m n : Int) {a b : Int} : b = a + 1 ∨ b = a - 1 → Adjacent ⟨m, n, a⟩ ⟨m, n, b⟩

namespace Share

variable (share : Share)

/-- The task at a cell of the box. -/
def taskAt (cell : Curve.Cell) : Task := ⟨share.m.start + cell.x, share.n.start + cell.y, cell.z⟩

/-- The tasks of the box, the M number slowest. -/
def tasks (depth : Int) : List Task :=
  (Curve.boxCells share.m.length share.n.length depth).map share.taskAt

theorem adjacent_taskAt {a b : Curve.Cell} (h : a.isNext b = true) :
    (share.taskAt a).Adjacent (share.taskAt b) := by
  rw [Curve.Cell.isNext, decide_eq_true_iff] at h
  obtain ⟨x, y, z⟩ := a
  obtain ⟨x', y', z'⟩ := b
  dsimp only at h
  dsimp only [taskAt]
  rcases eq_or_ne x' x with rfl | hx
  · rcases eq_or_ne y' y with rfl | hy
    · exact .k _ _ (by omega)
    · obtain rfl : z' = z := by omega
      exact .n _ _ (by omega)
  · obtain rfl : y' = y := by omega
    obtain rfl : z' = z := by omega
    exact .m _ _ (by omega)

variable {share} {depth : Int}

/-- The walk follows one of the two curves. -/
theorem path_cases (share : Share) (depth : Int) :
    ∃ cell, share.path depth =
        (Curve.walk cell share.m.length share.n.length depth).map share.taskAt ∧
      ((Curve.hasUnitSteps (Curve.walk cell share.m.length share.n.length depth) = true ∧
          cell = fun i => Curve.Hilbert.cell i share.m.length share.n.length depth) ∨
        cell = fun i => Curve.Serpentine.cell i share.m.length share.n.length) := by
  unfold path
  dsimp only
  split
  · rename_i hsteps
    exact ⟨_, rfl, Or.inl ⟨hsteps, rfl⟩⟩
  · exact ⟨_, rfl, Or.inr rfl⟩

/-- A thread visits every task of its box exactly once. -/
theorem path_perm (hm : 0 ≤ share.m.length) (hn : 0 ≤ share.n.length) :
    (share.path depth).Perm (share.tasks depth) := by
  obtain ⟨cell, hpath, hcell⟩ := path_cases share depth
  rw [hpath]
  refine (Curve.walk_perm hm hn fun c hc => ?_).map _
  obtain ⟨hx, hy, hz⟩ := Curve.mem_boxCells.1 hc
  rcases hcell with ⟨-, rfl⟩ | rfl
  · exact Curve.Hilbert.exists_cell_eq hx hy hz
  · exact Curve.Serpentine.exists_cell_eq hx hy hz

/-- Consecutive tasks of a walk differ by one on one axis. -/
theorem path_isChain (depth : Int) (hm : 0 < share.m.length) (hn : 0 < share.n.length) :
    (share.path depth).IsChain Task.Adjacent := by
  obtain ⟨cell, hpath, hcell⟩ := path_cases share depth
  rw [hpath, List.isChain_map]
  have hsteps : (Curve.walk cell share.m.length share.n.length depth).IsChain
      fun a b => a.isNext b = true := by
    rcases hcell with ⟨hunit, -⟩ | rfl
    · exact Curve.hasUnitSteps_iff.1 hunit
    · apply Curve.isChain_walk_of_steps
      intro i hi _
      exact Curve.Serpentine.isNext_cell hm hn hi
  exact hsteps.imp fun _ _ h => share.adjacent_taskAt h

/-- A walk starts at the first task on every axis. -/
theorem path_head (hm : 0 < share.m.length) (hn : 0 < share.n.length) (hdepth : 0 < depth) :
    ∃ rest, share.path depth = ⟨share.m.start, share.n.start, 0⟩ :: rest := by
  obtain ⟨cell, hpath, hcell⟩ := path_cases share depth
  have hsize : 0 < share.m.length * share.n.length * depth :=
    Int.mul_pos (Int.mul_pos hm hn) hdepth
  have hzero : cell 0 = ⟨0, 0, 0⟩ := by
    rcases hcell with ⟨-, rfl⟩ | rfl
    · exact Curve.Hilbert.cell_zero hm hn hdepth
    · exact Curve.Serpentine.cell_zero _ _
  obtain ⟨rest, hrest⟩ : ∃ rest,
      List.range (share.m.length * share.n.length * depth).toNat = 0 :: rest := by
    rw [show (share.m.length * share.n.length * depth).toNat =
      (share.m.length * share.n.length * depth).toNat - 1 + 1 by omega, List.range_succ_eq_map]
    exact ⟨_, rfl⟩
  refine ⟨(rest.map fun (i : Nat) => cell i).map share.taskAt, ?_⟩
  rw [hpath, Curve.walk, hrest, List.map_cons, List.map_cons, Nat.cast_zero, hzero, taskAt,
    add_zero, add_zero]

end Share

end LoopNest
