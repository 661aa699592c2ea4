import LoopNest.Proofs.Packing.Region
import LoopNest.Proofs.Planning.Placement

/-!
# Packing buffers of planned nests

Buffer strides are running products of loop sizes. The packed loops of an input therefore number
the cells of its packing buffer without gaps (`Numbers`): each step of packing multiplies the number
of cells by the size of one more loop. Later passes leave the packed loops alone, so the packed
loops of a planned nest do so too (`plan_numbers`), and no two of their index tuples meet
(`plan_packedApart`).
-/

namespace LoopNest

/-- The packed loops of an input reach the cells below a bound, each of them once. -/
structure Numbers (side : Side) (cells : Int) (loops : List Loop) : Prop where
  pos : 1 ≤ cells
  nonneg : ∀ loop ∈ loops, loop.isPacked side = true → 0 ≤ loop.stride side
  offsets : (offsets (fun loop => loop.stride side)
    (loops.filter fun loop => loop.isPacked side)).Perm (upTo cells)

namespace Numbers

variable {side : Side} {cells : Int} {loops loops' : List Loop}

theorem nil_of_unpacked (h : ∀ loop ∈ loops, loop.isPacked side = false) :
    Numbers side 1 loops := by
  refine ⟨Int.le_refl 1, fun loop hloop hpacked => ?_, ?_⟩
  · rw [h loop hloop] at hpacked
    exact absurd hpacked (by simp)
  · rw [List.filter_eq_nil_iff.2 fun loop hloop => by simp [h loop hloop]]
    exact List.Perm.refl _

theorem of_perm (h : loops.Perm loops') (hnumbers : Numbers side cells loops) :
    Numbers side cells loops' :=
  ⟨hnumbers.pos, fun loop hloop => hnumbers.nonneg loop (h.mem_iff.2 hloop),
    (offsets_perm _ (h.filter _).symm).trans hnumbers.offsets⟩

theorem packedApart (h : Numbers side cells loops) : PackedApart side loops :=
  ⟨h.nonneg, h.offsets.nodup_iff.2 (nodup_upTo cells)⟩

/-- A loop that is packed with the number of cells as its stride multiplies this number. -/
theorem cons_repack {loop : Loop} (h : Numbers side cells (loop :: loops))
    (hsource : loop.source side = 0) (hstride : 0 < loop.stride side) (hsize : 1 ≤ loop.size) :
    Numbers side (cells * loop.size) (loop.repack side cells :: loops) := by
  have hunpacked : loop.isPacked side = false := by simp [Loop.isPacked, hsource]
  have hpacked : (loop.repack side cells).isPacked side = true := by
    have hne : loop.stride side ≠ 0 := ne_of_gt hstride
    cases side with
    | left => exact decide_eq_true hne
    | right => exact decide_eq_true hne
  have hnew : (loop.repack side cells).stride side = cells := by cases side <;> rfl
  have hcells := h.pos
  have hrest := h.offsets
  rw [List.filter_cons_of_neg (by simp [hunpacked])] at hrest
  refine ⟨Int.mul_le_mul hcells hsize (by decide) (by omega), ?_, ?_⟩
  · rw [List.forall_mem_cons]
    refine ⟨fun _ => ?_, fun l hl => h.nonneg l (List.mem_cons_of_mem _ hl)⟩
    rw [hnew]
    omega
  · rw [offsets_filter_cons, if_pos hpacked, size_repack, hnew]
    refine (sumset_perm (List.Perm.refl _) hrest).trans (List.Perm.of_eq ?_)
    rw [mul_comm, upTo_mul (by omega) (by omega)]
    simp [sumset, multiples, List.flatMap_map]

/-- Packing one input does not change how another one is packed. -/
theorem set_repack_of_ne {other : Side} (hne : other ≠ side) {index : Nat} {loop : Loop}
    (stride : Int) (hloop : loops[index]? = some loop) (h : Numbers other cells loops) :
    Numbers other cells (loops.set index (loop.repack side stride)) := by
  have hpacked : (loop.repack side stride).isPacked other = loop.isPacked other := by
    cases side <;> cases other <;> first | rfl | exact absurd rfl hne
  have hstride : (loop.repack side stride).stride other = loop.stride other := by
    cases side <;> cases other <;> first | rfl | exact absurd rfl hne
  have hcons := h.of_perm (perm_cons_eraseIdx hloop)
  refine of_perm (perm_set _ hloop).symm ⟨hcons.pos, ?_, ?_⟩
  · have hnonneg := hcons.nonneg
    rw [List.forall_mem_cons] at hnonneg ⊢
    rw [hpacked, hstride]
    exact hnonneg
  · have hoffsets := hcons.offsets
    rw [offsets_filter_cons] at hoffsets ⊢
    rw [hpacked, hstride, size_repack]
    exact hoffsets

end Numbers

/-- Packing an input hands out the cells of its packing buffer without gaps. -/
theorem assignBufferStrides_numbers {side : Side} {order : List Nat} {running : Int}
    {loops : List Loop} (hnodup : order.Nodup) (hsize : ∀ loop ∈ loops, 1 ≤ loop.size)
    (hsource : ∀ distance ∈ order, distance ≤ loops.length → ∀ loop,
      loops[loops.length - distance]? = some loop → loop.source side = 0)
    (h : Numbers side running loops) :
    ∃ cells, Numbers side cells (assignBufferStrides side order running loops) := by
  have hall : ∃ cells, Numbers side cells (assignBufferStrides side order running loops) ∧
      ∀ loop ∈ assignBufferStrides side order running loops, 1 ≤ loop.size := by
    apply assignBufferStrides_fresh
      (P := fun running packed => Numbers side running packed ∧ ∀ loop ∈ packed, 1 ≤ loop.size) _
      hnodup running hsource ⟨h, hsize⟩
    rintro running packed index loop hloop hsource hstride ⟨hnumbers, hsize⟩
    have hone := hsize loop (List.mem_of_getElem? hloop)
    constructor
    · have hcons := (hnumbers.of_perm (perm_cons_eraseIdx hloop)).cons_repack hsource hstride hone
      exact hcons.of_perm (perm_set _ hloop).symm
    · intro l hl
      rcases List.mem_or_eq_of_mem_set hl with hl | rfl
      · exact hsize l hl
      · rwa [size_repack]
  obtain ⟨cells, hnumbers, -⟩ := hall
  exact ⟨cells, hnumbers⟩

/-- Loops along which an input is not packed. -/
structure Blank (side : Side) (loops : List Loop) : Prop where
  numbers : Numbers side 1 loops
  source : ∀ loop ∈ loops, 1 ≤ loop.size ∧ loop.source side = 0

namespace Blank

variable {side other : Side} {loops : List Loop}

theorem of_plain (h : Plain loops) (side : Side) : Blank side loops := by
  have hsource : ∀ loop ∈ loops, loop.source side = 0 := fun loop hloop => by
    cases side with
    | left => exact (h loop hloop).2.1
    | right => exact (h loop hloop).2.2
  refine ⟨.nil_of_unpacked fun loop hloop => ?_,
    fun loop hloop => ⟨(h loop hloop).1, hsource loop hloop⟩⟩
  simp [Loop.isPacked, hsource loop hloop]

/-- Packing another input leaves an input unpacked. -/
theorem assign_of_ne (hne : side ≠ other) (h : Blank side loops) (order : List Nat) :
    Blank side (assignBufferStrides other order 1 loops) := by
  refine assignBufferStrides_induction (P := Blank side)
    (fun packed index loop stride hloop hpacked => ⟨hpacked.numbers.set_repack_of_ne hne stride hloop,
      fun l hl => ?_⟩) order 1 h
  rcases List.mem_or_eq_of_mem_set hl with hl | rfl
  · exact hpacked.source l hl
  · obtain ⟨hsize, hsource⟩ := hpacked.source loop (List.mem_of_getElem? hloop)
    refine ⟨by rwa [size_repack], ?_⟩
    cases side <;> cases other <;> first | exact hsource | exact absurd rfl hne

theorem assign (h : Blank side loops) {order : List Nat} (hnodup : order.Nodup) :
    ∃ cells, Numbers side cells (assignBufferStrides side order 1 loops) :=
  assignBufferStrides_numbers hnodup (fun loop hloop => (h.source loop hloop).1)
    (fun _ _ _ loop hloop => (h.source loop (List.mem_of_getElem? hloop)).2) h.numbers

end Blank

/-- Both packing buffers are numbered without gaps. -/
theorem packInputs_numbers {settings : Settings} {kernel : KernelTag} {chosen : Candidates}
    {loops : List Loop} (hplain : Plain loops) (side : Side) :
    ∃ cells, Numbers side cells (packInputs settings kernel chosen loops) := by
  unfold packInputs
  dsimp only
  generalize (if settings.packedSupport = .allStrideOne then LanePosition.innermost
    else .outermost) = lanes
  generalize (chosen.extraLeft.toList ++ chosen.extraRight.toList).length = extra
  have hnodup := nodup_bufferOrder kernel lanes extra
  generalize bufferOrder kernel lanes extra = order at hnodup
  -- the left input is packed first; neither pass changes how the other input is packed
  cases side with
  | left =>
      have hleft : ∃ cells, Numbers .left cells
          (if chosen.packLeft then assignBufferStrides .left order 1 loops else loops) := by
        split
        · exact (Blank.of_plain hplain .left).assign hnodup
        · exact ⟨1, (Blank.of_plain hplain .left).numbers⟩
      split
      · obtain ⟨cells, hcells⟩ := hleft
        exact ⟨cells, assignBufferStrides_induction (P := Numbers .left cells)
          (fun _ _ _ stride hloop h => h.set_repack_of_ne (by simp) stride hloop) order 1 hcells⟩
      · exact hleft
  | right =>
      have hright : Blank .right
          (if chosen.packLeft then assignBufferStrides .left order 1 loops else loops) := by
        split
        · exact (Blank.of_plain hplain .right).assign_of_ne (by simp) order
        · exact .of_plain hplain .right
      split
      · exact hright.assign hnodup
      · exact ⟨1, hright.numbers⟩

theorem installKernel_numbers {settings : Settings} {kernel : KernelTag} {loops : List Loop}
    {kerneled : Kerneled} (hplain : Plain loops)
    (h : installKernel settings kernel loops = .ok kerneled) (side : Side) :
    ∃ cells, Numbers side cells kerneled.loops := by
  obtain ⟨s, hs⟩ := installKernel_eq_ok h
  rw [hs.loops]
  exact packInputs_numbers (hs.reshapes hplain).2 side

/-! ## Later passes -/

/-- Packed loops stay with the kernel loops. -/
theorem staysWithKernel_of_isPacked {loop : Loop} (hsound : loop.IsSound) {side : Side}
    (h : loop.isPacked side = true) : loop.staysWithKernel = true := by
  by_contra hstays
  obtain ⟨hleft, hright⟩ := isUnpacked_of_not_staysWithKernel hsound (by simpa using hstays)
  cases side with
  | left => simp [Loop.isPacked, Loop.source, hleft] at h
  | right => simp [Loop.isPacked, Loop.source, hright] at h

/-- In a planned nest the packed loops of an input number the cells of its packing buffer. -/
theorem plan_numbers {settings : Settings} {kernel : KernelTag} {element : ElementType}
    {loops : List Loop} {nest : Nest} (hunpacked : ∀ loop ∈ loops, loop.IsUnpacked)
    (h : Nest.plan settings kernel element loops = .ok nest) (side : Side) :
    ∃ cells, Numbers side cells nest.loops := by
  obtain ⟨kerneled, front, hkernel, hplain, -, hloops, hfree, hsound⟩ := plan_eq_ok hunpacked h
  obtain ⟨cells, hcells⟩ := installKernel_numbers hplain hkernel side
  have hfront : ∀ loop ∈ front, loop.isPacked side = false := fun loop hloop => by
    obtain ⟨hleft, hright⟩ := (hfree loop hloop).1.2
    cases side with
    | left => simp [Loop.isPacked, Loop.source, hleft]
    | right => simp [Loop.isPacked, Loop.source, hright]
  -- the packed loops of the nest are those of the installed list with more than one iteration
  have hsame : offsets (fun loop => loop.stride side)
        (nest.loops.filter fun loop => loop.isPacked side) =
      offsets (fun loop => loop.stride side)
        (kerneled.loops.filter fun loop => loop.isPacked side) := by
    rw [hloops, List.filter_append,
      List.filter_eq_nil_iff.2 fun loop hloop => by simp [hfront loop hloop], List.nil_append,
      dropUnits, List.filter_filter, List.filter_filter]
    refine offsets_filter_congr _ fun loop hloop hsize => ?_
    cases hpacked : loop.isPacked side with
    | true => simp [staysWithKernel_of_isPacked (hsound loop hloop) hpacked, hsize]
    | false => simp
  refine ⟨cells, hcells.pos, fun loop hloop hpacked => ?_, ?_⟩
  · rw [hloops, List.mem_append] at hloop
    rcases hloop with hloop | hloop
    · rw [hfront loop hloop] at hpacked
      exact absurd hpacked (by simp)
    · exact hcells.nonneg loop (List.mem_of_mem_filter (List.mem_of_mem_filter hloop)) hpacked
  · rw [hsame]
    exact hcells.offsets

/-- In a planned nest no two index tuples of packed loops meet in a packing buffer. -/
theorem plan_packedApart {settings : Settings} {kernel : KernelTag} {element : ElementType}
    {loops : List Loop} {nest : Nest} (hunpacked : ∀ loop ∈ loops, loop.IsUnpacked)
    (h : Nest.plan settings kernel element loops = .ok nest) (side : Side) :
    PackedApart side nest.loops := by
  obtain ⟨cells, hcells⟩ := plan_numbers hunpacked h side
  exact hcells.packedApart

end LoopNest
