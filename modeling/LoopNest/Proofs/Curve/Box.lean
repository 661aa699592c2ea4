import LoopNest.Parallel.Share
import LoopNest.Proofs.Offsets

/-!
# The cells of a box

A curve through a box has as many indices as the box has cells. If it reaches every cell, it reaches
each of them once and none outside (`walk_perm`); its indices and the cells of the box then
correspond to each other (`bijOn_of_reaches`). If consecutive indices have neighbouring cells, so
has the walk (`isChain_walk_of_steps`).
-/

namespace LoopNest.Curve

/-- The cells of a box, the first coordinate slowest. -/
def boxCells (w h d : Int) : List Cell :=
  (upTo w).flatMap fun x => (upTo h).flatMap fun y => (upTo d).map fun z => ⟨x, y, z⟩

theorem mem_boxCells {w h d : Int} {c : Cell} :
    c ∈ boxCells w h d ↔ (0 ≤ c.x ∧ c.x < w) ∧ (0 ≤ c.y ∧ c.y < h) ∧ 0 ≤ c.z ∧ c.z < d := by
  simp only [boxCells, List.mem_flatMap, List.mem_map, mem_upTo]
  constructor
  · rintro ⟨x, hx, y, hy, z, hz, rfl⟩
    exact ⟨hx, hy, hz⟩
  · rintro ⟨hx, hy, hz⟩
    exact ⟨c.x, hx, c.y, hy, c.z, hz, rfl⟩

theorem nodup_boxCells (w h d : Int) : (boxCells w h d).Nodup := by
  refine List.nodup_flatMap.2 ⟨fun x _ => List.nodup_flatMap.2 ⟨fun y _ => ?_, ?_⟩, ?_⟩
  · exact (nodup_upTo d).map fun a b hab => (Cell.mk.inj hab).2.2
  · refine (nodup_upTo h).imp fun {a b} hab => ?_
    simp only [Function.onFun, List.disjoint_left, List.mem_map]
    rintro c ⟨z, -, rfl⟩ ⟨z', -, heq⟩
    exact hab (Cell.mk.inj heq).2.1.symm
  · refine (nodup_upTo w).imp fun {a b} hab => ?_
    simp only [Function.onFun, List.disjoint_left, List.mem_flatMap, List.mem_map]
    rintro c ⟨y, -, z, -, rfl⟩ ⟨y', -, z', -, heq⟩
    exact hab (Cell.mk.inj heq).1.symm

theorem length_boxCells {w h d : Int} (hw : 0 ≤ w) (hh : 0 ≤ h) :
    (boxCells w h d).length = (w * h * d).toNat := by
  obtain ⟨a, rfl⟩ := Int.eq_ofNat_of_zero_le hw
  obtain ⟨b, rfl⟩ := Int.eq_ofNat_of_zero_le hh
  rcases le_or_gt 0 d with hd | hd
  · obtain ⟨c, rfl⟩ := Int.eq_ofNat_of_zero_le hd
    have hsize : ((a : Int) * b * c).toNat = a * (b * c) := by
      rw [← mul_assoc, ← Int.toNat_natCast (a * b * c)]
      push_cast
      rfl
    simp [boxCells, List.length_flatMap, length_upTo, hsize]
  · have hneg : ((a : Int) * b * d).toNat = 0 := Int.toNat_of_nonpos
      (Int.mul_nonpos_of_nonneg_of_nonpos (Int.mul_nonneg hw hh) (Int.le_of_lt hd))
    simp [boxCells, List.length_flatMap, length_upTo, hneg, Int.toNat_of_nonpos (Int.le_of_lt hd)]

/-- A curve that reaches every cell of a box visits each of them once. -/
theorem walk_perm {cell : Int → Cell} {w h d : Int} (hw : 0 ≤ w) (hh : 0 ≤ h)
    (hreach : ∀ c ∈ boxCells w h d, ∃ n : Nat, (n : Int) < w * h * d ∧ cell n = c) :
    (walk cell w h d).Perm (boxCells w h d) := by
  have hsubset : boxCells w h d ⊆ walk cell w h d := by
    intro c hc
    obtain ⟨n, hn, rfl⟩ := hreach c hc
    exact List.mem_map.2 ⟨n, List.mem_range.2 (by omega), rfl⟩
  have hlength : (walk cell w h d).length ≤ (boxCells w h d).length := by
    rw [length_boxCells hw hh, walk, List.length_map, List.length_range]
  exact ((List.subperm_of_subset (nodup_boxCells w h d) hsubset).perm_of_length_le hlength).symm

/-- A curve that reaches every cell of a box takes its indices to the cells, one to one. -/
theorem bijOn_of_reaches {cell : Int → Cell} {w h d : Int} (hw : 0 ≤ w) (hh : 0 ≤ h)
    (hreach : ∀ c ∈ boxCells w h d, ∃ n : Nat, (n : Int) < w * h * d ∧ cell n = c) :
    Set.BijOn cell {i | 0 ≤ i ∧ i < w * h * d}
      {c | (0 ≤ c.x ∧ c.x < w) ∧ (0 ≤ c.y ∧ c.y < h) ∧ 0 ≤ c.z ∧ c.z < d} := by
  have hperm := walk_perm hw hh hreach
  refine ⟨?_, ?_, ?_⟩
  · rintro i ⟨hi, hlt⟩
    apply mem_boxCells.1
    apply hperm.mem_iff.1
    refine List.mem_map.2 ⟨i.toNat, List.mem_range.2 (by omega), ?_⟩
    rw [Int.toNat_of_nonneg hi]
  · -- two indices of one cell would be two places of it in the walk
    rintro i ⟨hi, hilt⟩ j ⟨hj, hjlt⟩ heq
    have hnodup := hperm.nodup_iff.2 (nodup_boxCells w h d)
    have hnat : i.toNat = j.toNat := by
      refine List.inj_on_of_nodup_map hnodup (List.mem_range.2 (by omega))
        (List.mem_range.2 (by omega)) ?_
      rw [Int.toNat_of_nonneg hi, Int.toNat_of_nonneg hj]
      exact heq
    omega
  · intro c hc
    obtain ⟨n, hn, hcell⟩ := hreach c (mem_boxCells.2 hc)
    exact ⟨n, ⟨Int.natCast_nonneg n, hn⟩, hcell⟩

theorem isChain_walk_of_steps {cell : Int → Cell} {w h d : Int}
    (hsteps : ∀ i, 0 ≤ i → i + 1 < w * h * d → (cell i).isNext (cell (i + 1)) = true) :
    (walk cell w h d).IsChain fun a b => a.isNext b = true := by
  rw [walk, List.isChain_map, List.isChain_range]
  intro i hi
  have hstep := hsteps i (Int.natCast_nonneg i) (by omega)
  push_cast
  exact hstep

end LoopNest.Curve
