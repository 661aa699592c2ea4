import LoopNest.Proofs.Parallel.Runs

/-!
# Mixed-radix offsets and step offsets

The numbers below the product of the sizes of a run enumerate its index tuples: their offsets are
the offsets of the run (`map_mixedOffset`).

Two consecutive numbers differ in the digits up to the first one that does not wrap around. Their
offsets differ by the stride of that digit less the way back of the digits further in, which is the
step offset of its loop (`Layout.moveOn_spec`). Step tables of different spans do not disturb each
other (`Layout.getD_stepTableOn_of_notMem`).
-/

namespace LoopNest

/-- Sizes and strides of the loops of a run, innermost first. -/
def digitsOf (run : List Loop) : List (Int × Operands Int) :=
  run.reverse.map fun loop => (loop.size, loop.strides)

/-! ## Offsets of numbers -/

theorem mixedOffset_add (stride : Operands Int) (outer : List (Int × Operands Int))
    {size i j : Int} (hi : 0 ≤ i) (hj : 0 ≤ j ∧ j < size) :
    mixedOffset ((size, stride) :: outer) (i * size + j) =
      stride.scale j + mixedOffset outer i := by
  rw [mixedOffset, tdiv_mul_add hi hj, tmod_mul_add hi hj]

/-- The numbers below the product of the sizes of a run reach its offsets in order. -/
theorem map_mixedOffset {run : List Loop} (hsize : ∀ loop ∈ run, 1 ≤ loop.size) :
    (upTo (run.map Loop.size).prod).map (mixedOffset (digitsOf run)) =
      offsets Loop.strides run := by
  induction run using List.reverseRecOn with
  | nil => rfl
  | append_singleton run loop ih =>
      have hloop : 1 ≤ loop.size := hsize loop (by simp)
      have hrun : ∀ l ∈ run, 1 ≤ l.size := fun l hl => hsize l (List.mem_append_left _ hl)
      have hdigits : digitsOf (run ++ [loop]) = (loop.size, loop.strides) :: digitsOf run := by
        simp [digitsOf]
      rw [List.map_append, List.prod_append, List.map_singleton, List.prod_singleton,
        upTo_mul (by have := one_le_prod_size hrun; omega) (by omega), offsets_append, ← ih hrun,
        hdigits, sumset, List.map_flatMap, List.flatMap_map]
      refine List.flatMap_congr fun i hi => ?_
      simp only [offsets, sumset_zero, multiples, List.map_map]
      refine List.map_congr_left fun j hj => ?_
      rw [Function.comp_apply, Function.comp_apply,
        mixedOffset_add _ _ (mem_upTo.1 hi).1 (mem_upTo.1 hj), Operands.zsmul_eq_scale, add_comm]

namespace Layout

variable {layout : Layout}

/-! ## The digits of a span -/

theorem map_getD_range' (loops : List Loop) {span : Span} (hstop : span.stop ≤ loops.length) :
    (List.range' span.start span.length).map (fun i => loops.getD i .unit) =
      span.slice loops := by
  refine List.ext_getElem ?_ fun i h1 h2 => ?_
  · simp [Span.slice, Span.length]
    omega
  · simp only [List.getElem_map, List.getElem_range', Span.slice, List.getElem_take,
      List.getElem_drop, one_mul]
    rw [List.getD_eq_getElem?_getD, List.getElem?_eq_getElem, Option.getD_some]

theorem getD_strideTable (loops : List Loop) (index : Nat) :
    (strideTable loops).getD index 0 = (loops.getD index .unit).strides := by
  rw [strideTable, List.getD_eq_getElem?_getD, List.getD_eq_getElem?_getD, List.getElem?_map]
  cases loops[index]? <;> rfl

/-- Sizes and strides of a span are those of its loops, for every table with their strides. -/
theorem radices_eq (table : StrideTable) {span : Span} (hstop : span.stop ≤ layout.loops.length)
    (htable : ∀ index ∈ span.inward,
      table.getD index 0 = (strideTable layout.loops).getD index 0) :
    layout.radices table span = digitsOf (span.slice layout.loops) := by
  rw [digitsOf, ← map_getD_range' layout.loops hstop, ← List.map_reverse, List.map_map]
  refine List.map_congr_left fun index hindex => ?_
  rw [Function.comp_apply, htable index hindex, getD_strideTable]

/-! ## Step offsets -/

theorem getD_set_self {table : StrideTable} {index : Nat} (h : index < table.length)
    (stride : Operands Int) : (table.set index stride).getD index 0 = stride := by
  simp [h]

theorem getD_set_of_ne {table : StrideTable} {index other : Nat} (h : index ≠ other)
    (stride : Operands Int) : (table.set index stride).getD other 0 = table.getD other 0 := by
  simp [List.getElem?_set_ne h]

theorem length_stepTableOn (indices : List Nat) (back : Operands Int) (table : StrideTable) :
    (layout.stepTableOn indices back table).length = table.length := by
  induction indices generalizing back table with
  | nil => rfl
  | cons index outer ih => rw [stepTableOn, ih, List.length_set]

/-- Entries of other loops stay as they are. -/
theorem getD_stepTableOn_of_notMem {indices : List Nat} {other : Nat} (h : other ∉ indices)
    (back : Operands Int) (table : StrideTable) :
    (layout.stepTableOn indices back table).getD other 0 = table.getD other 0 := by
  induction indices generalizing back table with
  | nil => rfl
  | cons index outer ih =>
      obtain ⟨hne, houter⟩ := List.ne_and_not_mem_of_not_mem_cons h
      rw [stepTableOn, ih houter, getD_set_of_ne (Ne.symm hne)]

/-- Step offsets depend on the strides of the span alone. -/
theorem getD_stepTableOn_congr {indices : List Nat} (hnodup : indices.Nodup)
    {table table' : StrideTable} (hlength : table.length = table'.length)
    (hrange : ∀ index ∈ indices, index < table.length)
    (h : ∀ index ∈ indices, table.getD index 0 = table'.getD index 0) (back : Operands Int)
    {other : Nat} (hother : other ∈ indices) :
    (layout.stepTableOn indices back table).getD other 0 =
      (layout.stepTableOn indices back table').getD other 0 := by
  induction indices generalizing back table table' with
  | nil => cases hother
  | cons index outer ih =>
      obtain ⟨hindex, hnodup⟩ := List.nodup_cons.1 hnodup
      rw [List.forall_mem_cons] at h hrange
      rw [stepTableOn, stepTableOn, h.1]
      rcases List.mem_cons.1 hother with rfl | hother
      · rw [getD_stepTableOn_of_notMem hindex, getD_stepTableOn_of_notMem hindex,
          getD_set_self hrange.1, getD_set_self (hlength ▸ hrange.1)]
      · refine ih hnodup (by simpa using hlength) (by simpa using hrange.2) (fun i hi => ?_) _ hother
        have hne : index ≠ i := fun heq => hindex (heq ▸ hi)
        rw [getD_set_of_ne hne, getD_set_of_ne hne, h.2 i hi]

/-- Sizes and strides of the loops at given indices, innermost first. -/
def radicesAt (layout : Layout) (table : StrideTable) (indices : List Nat) :
    List (Int × Operands Int) :=
  indices.map fun index => ((layout.loops.getD index .unit).size, table.getD index 0)

/-- A new stride of another loop leaves the sizes and strides at given indices alone. -/
theorem radicesAt_set {index : Nat} {indices : List Nat} (hindex : index ∉ indices)
    (table : StrideTable) (stride : Operands Int) :
    layout.radicesAt (table.set index stride) indices = layout.radicesAt table indices := by
  refine List.map_congr_left fun i hi => ?_
  have hne : index ≠ i := fun heq => hindex (heq ▸ hi)
  rw [getD_set_of_ne hne]

/-- A step changes the innermost loop, unless its digit wraps around. -/
theorem moveOn_mul_add {index : Nat} (hindex : index < layout.loops.length)
    (hpos : 1 ≤ (layout.loops.getD index .unit).size) (outer : List Nat) {q d : Int} (hq : 0 ≤ q)
    (hd : 0 ≤ d ∧ d < (layout.loops.getD index .unit).size) (direction : Int) :
    layout.moveOn direction (index :: outer) (q * (layout.loops.getD index .unit).size + d) =
      if d ≠ 0 then .ok (moveCode index direction) else layout.moveOn direction outer q := by
  have hsizeOf : layout.sizeOf index = .ok (layout.loops.getD index .unit).size := by
    rw [sizeOf, entry_eq_ok hindex, List.getD_eq_getElem?_getD, List.getElem?_eq_getElem hindex]
    rfl
  have hdivisor : (layout.loops.getD index .unit).size ≠ 0 := by omega
  rw [moveOn, hsizeOf]
  simp only [bind, Except.bind, remainder_eq_ok hdivisor, tmod_mul_add hq hd, tdiv_mul_add hq hd]
  rfl

/-- The step to the number `id` from the one before, or back, changes the loop whose step offset is
the difference of the two offsets. -/
theorem moveOn_spec {indices : List Nat} (hnodup : indices.Nodup) (table : StrideTable)
    (hrange : ∀ index ∈ indices, index < layout.loops.length ∧ index < table.length)
    (hsize : ∀ index ∈ indices, 1 ≤ (layout.loops.getD index .unit).size) {id : Int} (hid : 1 ≤ id)
    (hlt : id < ((layout.radicesAt table indices).map Prod.fst).prod) (direction : Int)
    (back : Operands Int) :
    ∃ index ∈ indices,
      layout.moveOn direction indices id = .ok (moveCode index direction) ∧
      (layout.stepTableOn indices back table).getD index 0 =
        mixedOffset (layout.radicesAt table indices) id -
          mixedOffset (layout.radicesAt table indices) (id - 1) - back := by
  induction indices generalizing id back table with
  | nil =>
      simp [radicesAt] at hlt
      omega
  | cons index outer ih =>
      obtain ⟨hindex, hnodup⟩ := List.nodup_cons.1 hnodup
      rw [List.forall_mem_cons] at hrange hsize
      obtain ⟨⟨hloop, htable⟩, hrange⟩ := hrange
      obtain ⟨hpos, hsize⟩ := hsize
      set size := (layout.loops.getD index .unit).size with hdef
      set stride := table.getD index 0 with hstride
      have hradices : layout.radicesAt table (index :: outer) =
          (size, stride) :: layout.radicesAt table outer := rfl
      obtain ⟨q, d, hq, hd, rfl⟩ := exists_mul_add (show 0 < size by omega)
        (show 0 ≤ id by omega)
      have hmove := moveOn_mul_add hloop hpos outer hq hd direction
      by_cases hzero : d = 0
      · -- the digit wraps around, and the step is made further out
        subst hzero
        have hqpos : 1 ≤ q := by
          by_contra hlt
          obtain rfl : q = 0 := by omega
          omega
        have hradicesSet := layout.radicesAt_set hindex table (stride - back)
        have hqlt : q < ((layout.radicesAt (table.set index (stride - back)) outer).map
            Prod.fst).prod := by
          rw [hradicesSet]
          rw [hradices, List.map_cons, List.prod_cons, add_zero, mul_comm] at hlt
          exact lt_of_mul_lt_mul_left hlt (by omega)
        obtain ⟨i, hi, hcode, hstep⟩ := ih hnodup (table.set index (stride - back))
          (by simpa using hrange) hsize hqpos hqlt (back + stride.scale (size - 1))
        refine ⟨i, List.mem_cons_of_mem _ hi, ?_, ?_⟩
        · rw [hmove, if_neg (by simp), hcode]
        · rw [stepTableOn, ← hdef, ← hstride, hstep, hradicesSet, hradices,
            show q * size + 0 - 1 = (q - 1) * size + (size - 1) by ring,
            mixedOffset_add _ _ hq (by omega), mixedOffset_add _ _ (by omega) (by omega)]
          rw [show stride.scale 0 = 0 from zero_zsmul stride]
          abel
      · refine ⟨index, List.mem_cons_self, ?_, ?_⟩
        · rw [hmove, if_pos hzero]
        · rw [stepTableOn, getD_stepTableOn_of_notMem hindex, getD_set_self htable, hradices,
            ← hstride, add_sub_assoc, mixedOffset_add _ _ hq hd, mixedOffset_add _ _ hq (by omega)]
          rw [show stride.scale d = stride.scale (d - 1) + stride by
            rw [← Operands.zsmul_eq_scale, ← Operands.zsmul_eq_scale, ← add_one_zsmul]; simp]
          abel

end Layout

end LoopNest
