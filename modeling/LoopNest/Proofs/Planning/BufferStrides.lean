import LoopNest.Proofs.Kernel.Contiguity
import LoopNest.Proofs.Planning.Placement

/-!
# Which loops get which buffer strides

Buffer strides go to the loops at given distances from the end of the list, and to these only where
they move through the input. `settled_of_assign` says that after packing every loop at one of the
distances is packed or does not move, `getElem?_assign_of_not_mem` that all others are as before.

The first loop that moves is handed the first stride, so one of the kernel loops becomes contiguous
in the packing buffer (`contiguous_of_assign`). With packed lanes innermost the lanes come first, and
the stride behind them is one vector of lanes.
-/

namespace LoopNest

/-- The buffer order of a main kernel covers its loops and the further packed loops. -/
theorem mem_bufferOrder {kernel : KernelTag} {prims : Nat} (hprims : kernel.primCount = some prims)
    (lanes : LanePosition) (extra d : Nat) :
    d ∈ bufferOrder kernel lanes extra ↔ 1 ≤ d ∧ d ≤ prims + extra := by
  have hrange : ∀ start count, d ∈ List.range' start count ↔ start ≤ d ∧ d < start + count :=
    fun start count => List.mem_range'_1
  cases kernel <;> simp only [KernelTag.primCount, Option.some.injEq, reduceCtorEq] at hprims <;>
    subst hprims <;> cases lanes <;>
    simp [bufferOrder, KernelTag.hasPackedLanes, KernelTag.hasComplexLoop, hrange] <;> omega

/-- M, N and K come first, or right behind packed lanes. -/
theorem bufferOrder_cases (kernel : KernelTag) (lanes : LanePosition) (extra : Nat) :
    ∃ rest, bufferOrder kernel lanes extra = 3 :: 2 :: 1 :: rest ∨
      kernel.hasPackedLanes = true ∧ bufferOrder kernel lanes extra = 4 :: 3 :: 2 :: 1 :: rest := by
  unfold bufferOrder
  dsimp only
  split
  · rename_i hpacked
    cases lanes with
    | innermost => exact ⟨_, .inr ⟨hpacked, rfl⟩⟩
    | outermost => exact ⟨_, .inl rfl⟩
  · exact ⟨_, .inl rfl⟩

section Assign

variable {side : Side} {order : List Nat} {running : Int} {loops : List Loop}

/-- What packing one input leaves of every loop, it leaves of the list. -/
theorem map_assign {β : Type} (f : Loop → β)
    (hf : ∀ loop stride, f (Loop.repack loop side stride) = f loop) :
    (assignBufferStrides side order running loops).map f = loops.map f := by
  apply assignBufferStrides_induction (P := fun packed => packed.map f = loops.map f) _ order running rfl
  intro packed index loop stride hloop h
  rw [map_set_eq f hloop (hf loop stride), h]

theorem length_assign : (assignBufferStrides side order running loops).length = loops.length := by
  rw [← List.length_map (f := fun _ => ()), map_assign _ fun _ _ => rfl, List.length_map]

/-- A loop at a distance outside the order is left as it is. -/
theorem getElem?_assign_of_not_mem {index : Nat} (hnot : loops.length - index ∉ order) :
    (assignBufferStrides side order running loops)[index]? = loops[index]? := by
  induction order generalizing running loops with
  | nil => rfl
  | cons d order ih =>
      rw [List.mem_cons, not_or] at hnot
      rcases assign_cons_cases side d order running loops with ⟨loop, hd, -, -, heq⟩ | ⟨-, heq⟩
      · have hne : loops.length - d ≠ index := by
          intro hindex
          apply hnot.1
          omega
        rw [heq, ih (by rw [List.length_set]; exact hnot.2), List.getElem?_set_ne hne]
      · rw [heq]
        exact ih hnot.2

/-- A loop along which an input is packed, or that does not move forward in it. -/
def Loop.Settled (side : Side) (loop : Loop) : Prop :=
  loop.isPacked side = true ∨ loop.stride side ≤ 0

theorem settled_repack {loop : Loop} (hstride : 0 < loop.stride side) (stride : Int) :
    (loop.repack side stride).Settled side := by
  left
  have hne : loop.stride side ≠ 0 := ne_of_gt hstride
  cases side with
  | left => exact decide_eq_true hne
  | right => exact decide_eq_true hne

/-- After packing, every loop at a distance of the order is settled. -/
theorem settled_of_assign {index : Nat} {loop : Loop}
    (hbefore : ∀ l, loops[index]? = some l → loops.length - index ∈ order ∨ l.Settled side)
    (hloop : (assignBufferStrides side order running loops)[index]? = some loop) :
    loop.Settled side := by
  induction order generalizing running loops with
  | nil => exact (hbefore loop hloop).resolve_left (by simp)
  | cons d order ih =>
      have hlt : ∀ l, loops[index]? = some l → index < loops.length := fun l hl =>
        (List.getElem?_eq_some_iff.1 hl).1
      rcases assign_cons_cases side d order running loops with
        ⟨first, hd, hfirst, hstride, heq⟩ | ⟨hidle, heq⟩
      · rw [heq] at hloop
        refine ih (fun l hl => ?_) hloop
        rw [List.length_set]
        by_cases hindex : loops.length - d = index
        · -- the loop at the first distance is packed now
          subst hindex
          rw [List.getElem?_set_self (List.getElem?_eq_some_iff.1 hfirst).1] at hl
          obtain rfl := Option.some.inj hl
          exact .inr (settled_repack hstride running)
        · rw [List.getElem?_set_ne hindex] at hl
          have := hlt l hl
          rcases hbefore l hl with hmem | hsettled
          · exact .inl ((List.mem_cons.1 hmem).resolve_left (by omega))
          · exact .inr hsettled
      · rw [heq] at hloop
        refine ih (fun l hl => ?_) hloop
        have := hlt l hl
        rcases hbefore l hl with hmem | hsettled
        · rcases List.mem_cons.1 hmem with hdistance | hmem
          · right
            right
            apply hidle l (by omega)
            rw [← hdistance, show loops.length - (loops.length - index) = index by omega]
            exact hl
          · exact .inl hmem
        · exact .inr hsettled

/-- The first loop that moves forward is handed the first buffer stride. -/
theorem contiguous_of_assign {lanes : Int} {before after : List Nat} {d : Nat} {loop : Loop}
    (hd : d ≤ loops.length) (hloop : loops[loops.length - d]? = some loop)
    (hstride : 0 < loop.stride side)
    (hidle : ∀ e ∈ before, ∀ l, loops[loops.length - e]? = some l → l.stride side ≤ 0)
    (hnot : d ∉ after) (hrunning : Contiguous lanes running) :
    ∃ l, (assignBufferStrides side (before ++ d :: after) running loops)[loops.length - d]? =
      some l ∧ Contiguous lanes (l.stride side) := by
  -- loops that do not move forward are passed over, and leave the stride as it is
  induction before with
  | nil =>
      rcases assign_cons_cases side d after running loops with
        ⟨l, -, hl, -, heq⟩ | ⟨hnone, -⟩
      · rw [List.nil_append, heq, getElem?_assign_of_not_mem, List.getElem?_set_self]
        · refine ⟨_, rfl, ?_⟩
          cases side with
          | left => exact hrunning
          | right => exact hrunning
        · exact (List.getElem?_eq_some_iff.1 hl).1
        · rw [List.length_set]
          rwa [show loops.length - (loops.length - d) = d by omega]
      · have := hnone loop hd hloop
        omega
  | cons e before ih =>
      rw [List.forall_mem_cons] at hidle
      rcases assign_cons_cases side e (before ++ d :: after) running loops with
        ⟨l, -, hl, hpos, -⟩ | ⟨-, heq⟩
      · have := hidle.1 l hl
        omega
      · rw [List.cons_append, heq]
        exact ih hidle.2

end Assign

/-! ## M and N in a packing buffer -/

/-- If a kernel has packed lanes, a list ends in a kernel loop of their number. -/
def EndsInLanes (kernel : KernelTag) (lanes : Int) (front : List Loop) : Prop :=
  kernel.hasPackedLanes = true →
    ∃ init lane, front = init ++ [lane] ∧ lane.isPrim = true ∧ lane.size = lanes

section Core

variable {side : Side} {kernel : KernelTag} {position : LanePosition} {extra : Nat}
  {front core : List Loop} {lanes : Int}

/-- One of M, N and K becomes contiguous if none of those in front of it moves through the input. -/
theorem contiguous_of_bufferOrder {packed : List Loop} {before after : List Nat} {d : Nat}
    {loop : Loop}
    (h : assignBufferStrides side (bufferOrder kernel position extra) 1 (front ++ core) = packed)
    (hcore : core.length = 3) (hlanes : EndsInLanes kernel lanes front)
    (horder : [3, 2, 1] = before ++ d :: after)
    (hloop : (front ++ core)[(front ++ core).length - d]? = some loop) (hstride : 0 < loop.stride side)
    (hidle : ∀ e ∈ before, ∀ l, (front ++ core)[(front ++ core).length - e]? = some l →
      l.stride side ≤ 0) :
    ∃ l, packed[(front ++ core).length - d]? = some l ∧ Contiguous lanes (l.stride side) := by
  subst h
  have hnodup := nodup_bufferOrder kernel position extra
  have hthree : ∀ e ∈ before ++ d :: after, e ≤ 3 := by
    rw [← horder]
    decide
  have hd := hthree d (by simp)
  have hsplit : ∀ rest, 3 :: 2 :: 1 :: rest = before ++ d :: (after ++ rest) := by
    intro rest
    rw [show 3 :: 2 :: 1 :: rest = [3, 2, 1] ++ rest from rfl, horder, List.append_assoc]
    rfl
  have hafter : ∀ {rest : List Nat}, (before ++ d :: (after ++ rest)).Nodup →
      d ∉ after ++ rest := by
    intro rest h
    exact (List.nodup_cons.1 (List.nodup_append.1 h).2.1).1
  have hlength : 3 ≤ (front ++ core).length := by
    rw [List.length_append]
    omega
  -- the lanes, which stand in front of M
  have hlast : kernel.hasPackedLanes = true → ∀ l,
      (front ++ core)[(front ++ core).length - 4]? = some l → l.size = lanes := by
    intro hpacked l hl
    obtain ⟨init, lane, rfl, -, hsize⟩ := hlanes hpacked
    have hlane : (init ++ [lane] ++ core)[(init ++ [lane] ++ core).length - 4]? = some lane := by
      simp [hcore]
    obtain rfl := Option.some.inj (hlane.symm.trans hl)
    exact hsize
  generalize front ++ core = loops at hloop hidle hlength hlast ⊢
  obtain ⟨rest, heqOrder | ⟨hpacked, heqOrder⟩⟩ := bufferOrder_cases kernel position extra
  · rw [heqOrder, hsplit] at hnodup ⊢
    exact contiguous_of_assign (by omega) hloop hstride hidle (hafter hnodup) (.inr rfl)
  · rw [heqOrder, hsplit] at hnodup ⊢
    have hrest := hafter (List.nodup_cons.1 hnodup).2
    rcases assign_cons_cases side 4 (before ++ d :: (after ++ rest)) 1 loops with
      ⟨lane, hfour, hlane, -, heq⟩ | ⟨-, heq⟩
    · -- the lanes come first, so that the stride behind them is one vector of lanes
      have hset : ∀ e ≤ 3, (loops.set (loops.length - 4) (lane.repack side 1))[loops.length - e]? =
          loops[loops.length - e]? := fun e he => List.getElem?_set_ne (by omega)
      have hsame := loops.length_set (i := loops.length - 4) (a := lane.repack side 1)
      rw [heq]
      generalize loops.set (loops.length - 4) (lane.repack side 1) = packed at hset hsame ⊢
      rw [← hset d hd] at hloop
      rw [← hsame] at hset hloop hidle ⊢
      refine contiguous_of_assign (by omega) hloop hstride (fun e he l hl => ?_) hrest ?_
      · rw [hset e (hthree e (List.mem_append_left _ he))] at hl
        exact hidle e he l hl
      · rw [one_mul, hlast hpacked lane hlane]
        exact .inl rfl
    · rw [heq]
      exact contiguous_of_assign (by omega) hloop hstride hidle hrest (.inr rfl)

variable {front' : List Loop} {m n k m' n' k' : Loop}

/-- An input that is packed is contiguous in M if M moves through it. -/
theorem contiguous_m
    (h : assignBufferStrides side (bufferOrder kernel position extra) 1 (front ++ [m, n, k]) =
      front' ++ [m', n', k'])
    (hlanes : EndsInLanes kernel lanes front) (hstride : 0 < m.stride side) :
    Contiguous lanes (m'.stride side) := by
  have hlength := congrArg List.length h
  rw [length_assign, List.length_append, List.length_append] at hlength
  obtain ⟨l, hl, hcontiguous⟩ := contiguous_of_bufferOrder h rfl hlanes
    (show [3, 2, 1] = [] ++ 3 :: [2, 1] from rfl)
    (show (front ++ [m, n, k])[(front ++ [m, n, k]).length - 3]? = some m by simp) hstride (by simp)
  have hm : (front' ++ [m', n', k'])[(front ++ [m, n, k]).length - 3]? = some m' := by
    rw [List.length_append, hlength]
    simp
  obtain rfl := Option.some.inj (hl.symm.trans hm)
  exact hcontiguous

/-- It is contiguous in N if M does not move through it but N does. -/
theorem contiguous_n
    (h : assignBufferStrides side (bufferOrder kernel position extra) 1 (front ++ [m, n, k]) =
      front' ++ [m', n', k'])
    (hlanes : EndsInLanes kernel lanes front) (hidle : m.stride side ≤ 0)
    (hstride : 0 < n.stride side) : Contiguous lanes (n'.stride side) := by
  have hlength := congrArg List.length h
  rw [length_assign, List.length_append, List.length_append] at hlength
  have hskip : ∀ e ∈ [3], ∀ l, (front ++ [m, n, k])[(front ++ [m, n, k]).length - e]? = some l →
      l.stride side ≤ 0 := by
    intro e he l hl
    obtain rfl := List.mem_singleton.1 he
    obtain rfl : m = l := by simpa using hl
    exact hidle
  obtain ⟨l, hl, hcontiguous⟩ := contiguous_of_bufferOrder h rfl hlanes
    (show [3, 2, 1] = [3] ++ 2 :: [1] from rfl)
    (show (front ++ [m, n, k])[(front ++ [m, n, k]).length - 2]? = some n by simp) hstride hskip
  have hn : (front' ++ [m', n', k'])[(front ++ [m, n, k]).length - 2]? = some n' := by
    rw [List.length_append, hlength]
    simp
  obtain rfl := Option.some.inj (hl.symm.trans hn)
  exact hcontiguous

end Core

end LoopNest
