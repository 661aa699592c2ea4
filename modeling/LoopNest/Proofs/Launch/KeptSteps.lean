import LoopNest.Proofs.Launch.Elements
import LoopNest.Proofs.Launch.Order

/-!
# What the first touch leaves of a sum

A sequential K loop hands the first-touch flag on in its first iteration only. Every other loop hands
it on in each iteration, also a loop that does not move through the output, for which each iteration
comes back to the same tile. If the first touch clears the tile, it then clears a sum that has
already begun, and what the tile holds in the end are the steps from the last first touch on. These
are `keptSteps`.

`foldl_sequentialVisits` follows one element through the visits of its tile, and
`Program.Computes.effectAt_runs` carries this over to the updates of a launch. No step is lost
exactly if all loops besides K loops have one iteration (`exists_lostSteps`).
-/

namespace LoopNest

/-! ## Steps that are kept -/

/-- The steps of a sum over loops from the last first touch on. In a K loop that is in the first
iteration, in another loop in the last one. -/
def keptSteps (stride : Loop → Operands Int) : List Loop → List (Operands Int)
  | [] => [0]
  | loop :: rest =>
      if loop.axis = .k then
        keptSteps stride rest ++
          sumset (multiples loop.size (stride loop)).tail (offsets stride rest)
      else (keptSteps stride rest).map ((loop.size - 1) • stride loop + ·)

theorem multiples_eq_cons {size : Int} (hsize : 1 ≤ size) (x : Operands Int) :
    multiples size x = 0 :: (multiples size x).tail := by
  have hsplit := upTo_add Int.one_nonneg (Int.sub_nonneg.2 hsize)
  rw [add_sub_cancel, upTo_one] at hsplit
  rw [multiples, hsplit]
  simp

theorem multiples_eq_concat {size : Int} (hsize : 1 ≤ size) (x : Operands Int) :
    multiples size x = multiples (size - 1) x ++ [(size - 1) • x] := by
  have hsplit := upTo_add (Int.sub_nonneg.2 hsize) Int.one_nonneg
  rw [sub_add_cancel, upTo_one] at hsplit
  rw [multiples, hsplit, List.map_append]
  simp [multiples]

section Steps

variable {stride : Loop → Operands Int} {loops : List Loop}

variable (stride) in
/-- The kept steps are some of all steps, and no step is lost exactly if all loops besides K loops
have one iteration. -/
theorem exists_lostSteps (hsize : ∀ loop ∈ loops, 1 ≤ loop.size) :
    ∃ lost, (keptSteps stride loops ++ lost).Perm (offsets stride loops) ∧
      (lost = [] ↔ ∀ loop ∈ loops, loop.axis ≠ .k → loop.size = 1) := by
  induction loops with
  | nil => exact ⟨[], List.Perm.refl _, by simp⟩
  | cons loop rest ih =>
      rw [List.forall_mem_cons] at hsize
      obtain ⟨lost, hperm, hlost⟩ := ih hsize.2
      rw [keptSteps, offsets]
      by_cases haxis : loop.axis = .k
      · -- the first iteration loses what the loops further in lose, the others lose nothing
        refine ⟨lost, ?_, ?_⟩
        · rw [if_pos haxis, multiples_eq_cons hsize.1, List.tail_cons, ← List.singleton_append,
            sumset_append, zero_sumset, List.append_assoc]
          refine (List.Perm.append_left _ List.perm_append_comm).trans ?_
          rw [← List.append_assoc]
          exact hperm.append_right _
        · rw [hlost, List.forall_mem_cons]
          exact ⟨fun h => ⟨fun hne => absurd haxis hne, h⟩, fun h => h.2⟩
      · -- all iterations but the last are lost, and the last one loses what the inner loops lose
        refine ⟨sumset (multiples (loop.size - 1) (stride loop)) (offsets stride rest) ++
          lost.map ((loop.size - 1) • stride loop + ·), ?_, ?_⟩
        · rw [if_neg haxis, multiples_eq_concat hsize.1, sumset_append]
          have hlast : sumset [(loop.size - 1) • stride loop] (offsets stride rest) =
              (offsets stride rest).map ((loop.size - 1) • stride loop + ·) := by
            simp [sumset]
          rw [hlast]
          refine (List.perm_append_comm_assoc _ _ _).trans (List.Perm.append_left _ ?_)
          rw [← List.map_append]
          exact hperm.map _
        · have hrest : 0 < (offsets stride rest).length :=
            List.length_pos_of_mem (zero_mem_offsets stride hsize.2)
          rw [List.append_eq_nil_iff, List.map_eq_nil_iff, hlost, List.forall_mem_cons,
            ← List.length_eq_zero_iff, length_sumset, length_multiples, Nat.mul_eq_zero]
          constructor
          · rintro ⟨hfirst, h⟩
            exact ⟨fun _ => by omega, h⟩
          · rintro ⟨hfirst, h⟩
            exact ⟨.inl (by have := hfirst haxis; omega), h⟩

/-- A sum over K loops keeps all its steps. -/
theorem keptSteps_perm_offsets (hsize : ∀ loop ∈ loops, 1 ≤ loop.size)
    (hk : ∀ loop ∈ loops, loop.axis = .k) :
    (keptSteps stride loops).Perm (offsets stride loops) := by
  obtain ⟨lost, hperm, hlost⟩ := exists_lostSteps stride hsize
  rw [hlost.2 fun loop hloop hne => absurd (hk loop hloop) hne, List.append_nil] at hperm
  exact hperm

variable (stride) in
/-- K loops further in add all their steps to each step that is kept. -/
theorem keptSteps_append (outer : List Loop) {inner : List Loop}
    (hsize : ∀ loop ∈ inner, 1 ≤ loop.size) (hk : ∀ loop ∈ inner, loop.axis = .k) :
    (keptSteps stride (outer ++ inner)).Perm
      (sumset (keptSteps stride outer) (offsets stride inner)) := by
  induction outer with
  | nil =>
      rw [List.nil_append, keptSteps, zero_sumset]
      exact keptSteps_perm_offsets hsize hk
  | cons loop outer ih =>
      rw [List.cons_append, keptSteps, keptSteps]
      split
      · rw [sumset_append, sumset_assoc, offsets_append]
        exact ih.append_right _
      · refine (ih.map _).trans (List.Perm.of_eq ?_)
        simp [sumset, List.map_flatMap, List.flatMap_map, Function.comp_def, add_assoc]

end Steps

/-! ## The visits of a tile -/

/-- What a visit makes of a sum if the first touch clears it. -/
def Visit.accumulate (amount : Operands Int → Int) (x : Int) (v : Visit) : Int :=
  (if v.first then 0 else x) + amount v.offset

section Runs

variable {stride : Loop → Operands Int}

/-- Visits that are not the first add up. -/
theorem foldl_accumulate_of_later (amount : Operands Int → Int) {vs : List Visit}
    (hlater : ∀ v ∈ vs, v.first = false) (x : Int) :
    vs.foldl (Visit.accumulate amount) x = x + ((vs.map Visit.offset).map amount).sum := by
  induction vs generalizing x with
  | nil => exact (add_zero x).symm
  | cons v rest ih =>
      rw [List.forall_mem_cons] at hlater
      have hv : Visit.accumulate amount x v = x + amount v.offset := by
        rw [Visit.accumulate, hlater.1]
        rfl
      rw [List.foldl_cons, ih hlater.2, hv, List.map_cons, List.map_cons, List.sum_cons, add_assoc]

/-- Inside a first visit, the inner visits decide alone. -/
theorem foldl_accumulate_join (amount : Operands Int → Int) {v : Visit} (hv : v.first = true)
    (ws : List Visit) (x : Int) :
    (ws.map v.join).foldl (Visit.accumulate amount) x =
      ws.foldl (Visit.accumulate fun o => amount (v.offset + o)) x := by
  rw [List.foldl_map]
  refine List.foldl_ext _ _ _ fun x w _ => ?_
  rw [Visit.accumulate, Visit.join, hv]
  rfl

variable (stride) in
/-- The first iteration of a K loop has the first flag, the others do not. -/
theorem exists_loopVisits_cons {loop : Loop} (hk : loop.axis = .k) (hsize : 1 ≤ loop.size) :
    ∃ v rest, loopVisits stride loop = v :: rest ∧ v.first = true ∧ v.offset = 0 ∧
      (∀ w ∈ rest, w.first = false) ∧
      rest.map Visit.offset = (multiples loop.size (stride loop)).tail := by
  have hoffsets := map_offset_loopVisits stride loop
  have hflags := flags_loopVisits stride hk
  rw [multiples_eq_cons hsize] at hoffsets
  obtain ⟨v, rest, hvisits, hv, hrest⟩ := List.map_eq_cons_iff.1 hoffsets
  rw [hvisits, List.length_cons, bracketFlags, List.range_succ_eq_map, List.map_cons, List.map_cons,
    List.map_map] at hflags
  obtain ⟨hfirst, hlater⟩ := List.cons.inj hflags
  refine ⟨v, rest, hvisits, congrArg Prod.fst hfirst, hv, fun w hw => ?_, hrest⟩
  have hmem := List.mem_map_of_mem (f := Visit.flags) hw
  rw [hlater] at hmem
  obtain ⟨i, -, hi⟩ := List.mem_map.1 hmem
  exact (congrArg Prod.fst hi).symm

variable (stride) in
/-- The last iteration of any other loop has the first flag, too. -/
theorem exists_loopVisits_concat {loop : Loop} (hk : loop.axis ≠ .k) (hsize : 1 ≤ loop.size) :
    ∃ before v, loopVisits stride loop = before ++ [v] ∧ v.first = true ∧
      v.offset = (loop.size - 1) • stride loop := by
  have hoffsets := map_offset_loopVisits stride loop
  rw [multiples_eq_concat hsize] at hoffsets
  obtain ⟨before, last, hvisits, -, hlast⟩ := List.map_eq_append_iff.1 hoffsets
  obtain ⟨v, rfl, hv⟩ := List.map_eq_singleton_iff.1 hlast
  have hflags := flags_loopVisits_of_ne stride hk v (by rw [hvisits]; simp)
  exact ⟨before, v, hvisits, congrArg Prod.fst hflags, hv⟩

/-- The visits of sequential loops leave the sum over the kept steps. -/
theorem foldl_sequentialVisits {loops : List Loop} (hsize : ∀ loop ∈ loops, 1 ≤ loop.size)
    (amount : Operands Int → Int) (x : Int) :
    (sequentialVisits stride loops).foldl (Visit.accumulate amount) x =
      ((keptSteps stride loops).map amount).sum := by
  -- for every amount, since an outer iteration adds its offset to those of the inner visits
  induction loops generalizing amount x with
  | nil => simp [sequentialVisits, keptSteps, Visit.accumulate, Visit.single]
  | cons loop rest ih =>
      rw [List.forall_mem_cons] at hsize
      have hinner : ∀ {v : Visit}, v.first = true → ∀ x,
          ((sequentialVisits stride rest).map v.join).foldl (Visit.accumulate amount) x =
            ((keptSteps stride rest).map fun o => amount (v.offset + o)).sum := by
        intro v hv x
        rw [foldl_accumulate_join amount hv]
        exact ih hsize.2 _ x
      rw [sequentialVisits, nest, keptSteps]
      by_cases haxis : loop.axis = .k
      · -- what the first iteration leaves, the later ones add to
        obtain ⟨v, later, hvisits, hv, hzero, hlater, hoffsets⟩ :=
          exists_loopVisits_cons stride haxis hsize.1
        have hnest : ∀ w ∈ nest later (sequentialVisits stride rest), w.first = false := by
          intro w hw
          obtain ⟨u, hu, hw⟩ := List.mem_flatMap.1 hw
          obtain ⟨u', -, rfl⟩ := List.mem_map.1 hw
          rw [Visit.join, hlater u hu]
          rfl
        have hadds := foldl_accumulate_of_later amount hnest
        rw [nest, ← nest, map_offset_nest, hoffsets, map_offset_sequentialVisits] at hadds
        rw [hvisits, List.flatMap_cons, List.foldl_append, hinner hv, if_pos haxis, List.map_append,
          List.sum_append]
        refine (hadds _).trans ?_
        simp only [hzero, zero_add]
      · -- whatever earlier iterations leave, the last one starts anew
        obtain ⟨before, v, hvisits, hv, hoffset⟩ :=
          exists_loopVisits_concat stride haxis hsize.1
        rw [hvisits, List.flatMap_append, List.foldl_append, List.flatMap_singleton, hinner hv,
          if_neg haxis, List.map_map, hoffset]
        rfl

end Runs

/-! ## Elements of the output -/

namespace Program.Computes

variable {program : Program} {tags : KernelTags} {main : MainKernel} {inputs : Inputs Int}
  {part : Part} {p : TilePoint} (h : program.Computes tags main)
  {vs : List Visit} {tiles : List (Operands Int)}

include h

/-- If the first touch clears and there is no last touch, the visits of all tiles leave in an element
the products of the steps that its run keeps, whatever it held before. -/
theorem effectAt_runs (hfirst : tags.first = .zero) (hlast : tags.last = .undefined)
    {stride : Loop → Operands Int} {loops : List Loop}
    (hruns : Runs vs tiles (sequentialVisits stride loops))
    (hsize : ∀ loop ∈ loops, 1 ≤ loop.size) (hstill : ∀ loop ∈ loops, (stride loop).out = 0)
    (hout : ((sumset tiles main.shape.elements).map Operands.out).Nodup) {t : Operands Int}
    (ht : t ∈ tiles) (hpart : part ∈ main.method.parts) (hp : p ∈ main.shape.tile) (x : Int) :
    effectAt (t + main.shape.elementOffset part.plane p).out
        (vs.flatMap (program.visitUpdates main inputs)) x =
      part.sumAt inputs main.shape.stridePlane (t + main.shape.pointOffset p)
        (sumset (keptSteps stride loops) (main.shape.steps.map main.shape.stepOffset)) := by
  rw [h.effectAt_onTile hruns.tile hout ht hpart hp, hruns.order t ht, effectAt_flatMap,
    List.foldl_map, Part.sumAt_sumset, ← foldl_sequentialVisits hsize _ x]
  refine List.foldl_ext _ _ _ fun x v hv => ?_
  -- the visit does not leave the tile, so it works on this element
  have hvout : v.offset.out = 0 := by
    have hmem := List.mem_map_of_mem (f := Visit.offset) hv
    rw [map_offset_sequentialVisits] at hmem
    exact eq_zero_of_mem_offsets stride Operands.outHom hstill hmem
  have hvisit := h.effectAt_visitUpdates inputs (v.shift t) hpart hp x
  have haddress : ((v.shift t).offset + main.shape.elementOffset part.plane p).out =
      (t + main.shape.elementOffset part.plane p).out := by
    rw [Visit.shift, Operands.add_out, Operands.add_out, Operands.add_out, hvout, add_zero]
  rw [haddress, hfirst, hlast] at hvisit
  rw [hvisit, Visit.accumulate, add_right_comm t]
  obtain ⟨offset, first, last⟩ := v
  cases last with
  | true => rfl
  | false => rfl

end Program.Computes

end LoopNest
