import LoopNest.Packing.Region
import LoopNest.Proofs.Checked
import LoopNest.Proofs.Packing.StridedCopy

/-!
# Where packed regions begin, and what a packed block holds

The packing loop cuts a loop list in two (`PackedRegion.Cuts`): no loop outside the region is
packed, and every loop inside is neither parallel nor moves through the input without being packed.
`PackedRegion.ofLoops_eq_some` proves this of the region that was found, and
`PackedRegion.ofLoops_isSome` that a region is found for packed inputs only.

The copy of a region that is filled forward stays within its extent
(`PackedRegion.Copies.read?_fill_frame`) and leaves at each place the last element of the block that
belongs there (`PackedRegion.Copies.read?_fill`). If no two index tuples of the packed loops meet in
the packing buffer (`PackedApart`), that is the element that the loops inside the region look for
(`PackedRegion.Located.sourceOf_eq`).
-/

namespace LoopNest

namespace PackedRegion

variable {side : Side} {start : Nat}

theorem locate_cons (side : Side) (index : Nat) (loop : Loop) (inner : List Loop) :
    locate side index (loop :: inner) =
      if loop.isPacked side then
        (some index, (locate side (index + 1) inner).2 + loop.stride side * (loop.size - 1))
      else if loop.stride side = 0 ∧ (locate side (index + 1) inner).1 = some (index + 1) ∧
          !loop.isParallel then
        (some index, (locate side (index + 1) inner).2)
      else locate side (index + 1) inner := rfl

/-- A packing loop is found if there is a packed loop. -/
theorem isSome_locate (side : Side) (index : Nat) (loops : List Loop) :
    (locate side index loops).1.isSome = loops.any fun loop => loop.isPacked side := by
  induction loops generalizing index with
  | nil => rfl
  | cons loop inner ih =>
      rw [List.any_cons, ← ih (index + 1), locate_cons]
      split
      · rename_i hpacked
        rw [hpacked, Bool.true_or]
        rfl
      · rename_i hpacked
        rw [Bool.not_eq_true] at hpacked
        rw [hpacked, Bool.false_or]
        split
        · rename_i hjoin
          rw [hjoin.2.1]
          rfl
        · rfl

/-- No loop in front of the packing loop is packed. -/
theorem locate_eq_some {index : Nat} {loops : List Loop}
    (h : (locate side index loops).1 = some start) :
    ∃ outside inside, loops = outside ++ inside ∧ start = index + outside.length ∧
      ∀ loop ∈ outside, loop.isPacked side = false := by
  induction loops generalizing index with
  | nil => exact absurd h (by simp [locate])
  | cons loop inner ih =>
      rw [locate_cons] at h
      split at h
      · obtain rfl := Option.some.inj h
        exact ⟨[], _, rfl, rfl, by simp⟩
      · rename_i hpacked
        split at h
        · obtain rfl := Option.some.inj h
          exact ⟨[], _, rfl, rfl, by simp⟩
        · obtain ⟨outside, inside, rfl, rfl, houtside⟩ := ih h
          refine ⟨loop :: outside, inside, rfl, ?_, ?_⟩
          · rw [List.length_cons]
            omega
          · exact List.forall_mem_cons.2 ⟨by simpa using hpacked, houtside⟩

/-- The reach of a packing buffer is the sum of the reaches of its loops. -/
theorem locate_reach (side : Side) (index : Nat) (loops : List Loop) :
    (locate side index loops).2 =
      ((loops.filter fun loop => loop.isPacked side).map fun loop =>
        loop.stride side * (loop.size - 1)).sum := by
  induction loops generalizing index with
  | nil => rfl
  | cons loop inner ih =>
      rw [List.filter_cons, locate_cons]
      split
      · rw [List.map_cons, List.sum_cons, ← ih (index + 1), add_comm]
      · split <;> exact ih (index + 1)

/-- The loops inside a region do not run in parallel, and do not move through the input without
being packed. -/
theorem checkInside_eq_ok {index : Nat} {loops : List Loop}
    (h : checkInside side index loops = .ok ()) :
    ∀ loop ∈ loops, loop.isParallel = false ∧
      (loop.isPacked side = false → loop.stride side = 0) := by
  induction loops generalizing index with
  | nil => simp
  | cons loop inner ih =>
      rw [checkInside] at h
      split at h
      · exact absurd h (by simp)
      · rename_i hparallel
        split at h
        · exact absurd h (by simp)
        · rename_i hmoves
          refine List.forall_mem_cons.2 ⟨⟨by simpa using hparallel, fun hpacked => ?_⟩, ih h⟩
          by_contra hstride
          exact hmoves ⟨hstride, by rw [hpacked]; rfl⟩

/-- A loop list cut in front of the packing loop of an input. -/
structure Cuts (region : PackedRegion) (side : Side) (outside inside : List Loop) : Prop where
  loop : region.loop = outside.length
  outside : ∀ loop ∈ outside, loop.isPacked side = false
  sequential : ∀ loop ∈ inside, loop.isParallel = false
  fixed : ∀ loop ∈ inside, loop.isPacked side = false → loop.stride side = 0

/-- What is known of the packed region of an input. -/
theorem ofLoops_eq_some {loops : List Loop} {region : PackedRegion}
    (h : ofLoops side loops = .ok (some region)) :
    ∃ outside inside, loops = outside ++ inside ∧ region.Cuts side outside inside ∧
      region.cells = ((loops.filter fun loop => loop.isPacked side).map fun loop =>
        loop.stride side * (loop.size - 1)).sum + 1 ∧
      region.copy = StridedCopy.ofLoops (copyLoops side loops) 1 ∧
      (outside.getLast?.map Loop.isPrim) ≠ some true := by
  rw [← locate_reach side 0 loops]
  unfold ofLoops at h
  split at h
  · exact absurd h (by simp)
  · rename_i start reach hlocate
    obtain ⟨hkernel, h⟩ := guard_bind_eq_ok.1 h
    obtain ⟨⟨⟩, hinside, h⟩ := bind_eq_ok.1 h
    obtain rfl := Option.some.inj (pure_eq_ok.1 h)
    obtain ⟨outside, inside, rfl, rfl, houtside⟩ :=
      locate_eq_some (show (locate side 0 loops).1 = some start by rw [hlocate])
    rw [Nat.zero_add, List.drop_left] at hinside
    have hchecked := checkInside_eq_ok hinside
    refine ⟨outside, inside, rfl, ⟨Nat.zero_add _, houtside,
      fun loop hloop => (hchecked loop hloop).1, fun loop hloop => (hchecked loop hloop).2⟩,
      by rw [hlocate], rfl, fun hprim => hkernel ?_⟩
    -- the loop in front of the packing loop is the last one outside
    have hpos : 0 < outside.length := by
      rw [List.length_pos_iff]
      rintro rfl
      exact absurd hprim (by simp)
    rw [Nat.zero_add]
    refine ⟨hpos, ?_⟩
    rwa [List.getElem?_append_left (by omega), ← List.getLast?_eq_getElem?]

/-- Only packed inputs have a packed region. -/
theorem ofLoops_isSome {loops : List Loop} {region : Option PackedRegion}
    (h : ofLoops side loops = .ok region) :
    region.isSome = loops.any fun loop => loop.isPacked side := by
  rw [← isSome_locate side 0]
  unfold ofLoops at h
  split at h
  · rename_i hlocate
    obtain rfl := Except.ok.inj h
    rw [hlocate]
    rfl
  · rename_i start reach hlocate
    obtain ⟨-, h⟩ := guard_bind_eq_ok.1 h
    obtain ⟨⟨⟩, -, h⟩ := bind_eq_ok.1 h
    obtain rfl := pure_eq_ok.1 h
    rw [hlocate]
    rfl

/-- Parallel loops are not packed. -/
theorem isPacked_of_isParallel {loops : List Loop}
    {region : Option PackedRegion} (h : ofLoops side loops = .ok region) {loop : Loop}
    (hloop : loop ∈ loops) (hparallel : loop.isParallel = true) : loop.isPacked side = false := by
  cases region with
  | none =>
      have hnone := ofLoops_isSome h
      by_contra hpacked
      have hany : (loops.any fun loop => loop.isPacked side) = true :=
        List.any_eq_true.2 ⟨loop, hloop, by simpa using hpacked⟩
      rw [← hnone] at hany
      exact absurd hany (by simp)
  | some region =>
      obtain ⟨outside, inside, happend, hcuts, -⟩ := ofLoops_eq_some h
      rw [happend, List.mem_append] at hloop
      rcases hloop with hloop | hloop
      · exact hcuts.outside loop hloop
      · exact absurd hparallel (by rw [hcuts.sequential loop hloop]; simp)

/-! ## When a region is found -/

/-- A loop that may stand inside a packed region. -/
def MayEnclose (side : Side) (loop : Loop) : Prop :=
  loop.isParallel = false ∧ (loop.isPacked side = true ∨ loop.stride side = 0)

theorem checkInside_of_forall {index : Nat} {loops : List Loop}
    (h : ∀ loop ∈ loops, MayEnclose side loop) : checkInside side index loops = .ok () := by
  induction loops generalizing index with
  | nil => rfl
  | cons loop inner ih =>
      rw [List.forall_mem_cons] at h
      obtain ⟨⟨hparallel, hmoves⟩, hinner⟩ := h
      rw [checkInside, hparallel, if_neg (by simp), if_neg]
      · exact ih hinner
      · rintro ⟨hstride, hpacked⟩
        rcases hmoves with hpacked' | hzero
        · rw [hpacked'] at hpacked
          cases hpacked
        · exact hstride hzero

/-- Among loops that may all stand inside, the region begins with the first one. -/
theorem locate_of_forall (index : Nat) {loops : List Loop}
    (h : ∀ loop ∈ loops, MayEnclose side loop) :
    (locate side index loops).1 = none ∨ (locate side index loops).1 = some index := by
  induction loops generalizing index with
  | nil => exact .inl rfl
  | cons loop inner ih =>
      rw [List.forall_mem_cons] at h
      obtain ⟨⟨hparallel, hmoves⟩, hinner⟩ := h
      rw [locate_cons]
      split
      · exact .inr rfl
      · rename_i hpacked
        have hzero : loop.stride side = 0 := hmoves.resolve_left hpacked
        split
        · exact .inr rfl
        · rename_i hapart
          left
          rcases ih (index + 1) hinner with hnone | hsome
          · exact hnone
          · exact absurd ⟨hzero, hsome, by rw [hparallel]; rfl⟩ hapart

/-- A region reaches out as far as loops may stand inside it. -/
theorem locate_append {index : Nat} {front tail : List Loop}
    (hfront : ∀ loop ∈ front, loop.isPacked side = false)
    (htail : ∀ loop ∈ tail, MayEnclose side loop)
    (h : (locate side index (front ++ tail)).1 = some start) :
    ∃ outside inside, front ++ tail = outside ++ inside ∧ start = index + outside.length ∧
      (∀ loop ∈ inside, MayEnclose side loop) ∧
      ∀ loop, outside.getLast? = some loop → ¬MayEnclose side loop := by
  induction front generalizing index start with
  | nil =>
      rcases locate_of_forall index htail with hnone | hsome
      · rw [List.nil_append, hnone] at h
        cases h
      · rw [List.nil_append, hsome] at h
        obtain rfl := Option.some.inj h
        exact ⟨[], tail, rfl, rfl, htail, by simp⟩
  | cons loop front ih =>
      rw [List.forall_mem_cons] at hfront
      rw [List.cons_append, locate_cons, hfront.1, if_neg (by simp)] at h
      split at h
      · rename_i hjoin
        obtain rfl := Option.some.inj h
        obtain ⟨outside, inside, heq, hstart, hinside, -⟩ := ih hfront.2 hjoin.2.1
        obtain rfl : outside = [] := by
          apply List.eq_nil_of_length_eq_zero
          omega
        refine ⟨[], loop :: inside, by rw [List.cons_append, heq]; rfl, rfl, ?_, by simp⟩
        exact List.forall_mem_cons.2 ⟨⟨by simpa using hjoin.2.2, .inr hjoin.1⟩, hinside⟩
      · rename_i hapart
        obtain ⟨outside, inside, heq, hstart, hinside, hlast⟩ := ih hfront.2 h
        refine ⟨loop :: outside, inside, by rw [List.cons_append, heq]; rfl, ?_, hinside, ?_⟩
        · rw [List.length_cons]
          omega
        · intro l hl hmay
          cases outside with
          | nil =>
              -- the region begins right behind this loop, which would have joined it
              obtain rfl : loop = l := by simpa using hl
              apply hapart
              refine ⟨hmay.2.resolve_left (by rw [hfront.1]; simp), ?_, by rw [hmay.1]; rfl⟩
              rw [h, hstart]
              rfl
          | cons first rest =>
              rw [List.getLast?_cons_cons] at hl
              exact hlast l hl hmay

/-- If the loops in front are neither packed nor kernel loops, and all others may stand inside, the
input has a packed region, or none is needed. -/
theorem exists_ofLoops {front tail : List Loop}
    (hfront : ∀ loop ∈ front, loop.isPacked side = false ∧ loop.isPrim = false)
    (htail : ∀ loop ∈ tail, MayEnclose side loop) :
    ∃ region, ofLoops side (front ++ tail) = .ok region := by
  unfold ofLoops
  split
  · exact ⟨none, rfl⟩
  · rename_i start reach hlocate
    obtain ⟨outside, inside, heq, hstart, hinside, hlast⟩ := locate_append
      (fun loop hloop => (hfront loop hloop).1) htail
      (show (locate side 0 (front ++ tail)).1 = some start by rw [hlocate])
    rw [Nat.zero_add] at hstart
    subst hstart
    -- a kernel loop in front of the region would be its last outside loop
    have hkernel : ¬(0 < outside.length ∧
        (front ++ tail)[outside.length - 1]?.map Loop.isPrim = some true) := by
      rintro ⟨hpos, hprim⟩
      rw [heq, List.getElem?_append_left (by omega), ← List.getLast?_eq_getElem?,
        Option.map_eq_some_iff] at hprim
      obtain ⟨loop, hloop, hprim⟩ := hprim
      have hmem : loop ∈ front ++ tail := by
        rw [heq]
        exact List.mem_append_left _ (List.mem_of_getLast? hloop)
      rcases List.mem_append.1 hmem with hmem | hmem
      · rw [(hfront loop hmem).2] at hprim
        cases hprim
      · exact hlast loop hloop (htail loop hmem)
    have hchecked : checkInside side outside.length ((front ++ tail).drop outside.length) = .ok () := by
      rw [heq, List.drop_left]
      exact checkInside_of_forall hinside
    refine ⟨_, guard_bind_eq_ok.2 ⟨hkernel, bind_eq_ok.2 ⟨(), hchecked, rfl⟩⟩⟩

/-- An input that is not packed needs no region. -/
theorem ofLoops_of_unpacked {loops : List Loop} (h : ∀ loop ∈ loops, loop.isPacked side = false) :
    ofLoops side loops = .ok none := by
  have hnone : (locate side 0 loops).1 = none := by
    rw [← Option.not_isSome_iff_eq_none, isSome_locate, List.any_eq_true]
    rintro ⟨loop, hloop, hpacked⟩
    rw [h loop hloop] at hpacked
    cases hpacked
  unfold ofLoops
  split
  · rfl
  · rename_i start reach hlocate
    rw [hlocate] at hnone
    cases hnone

end PackedRegion

/-! ## The contents of a packed block -/

/-- The strides of a loop through the caller's buffer of an input and through its packing buffer. -/
def Loop.sideStrides (side : Side) (loop : Loop) : Int × Int :=
  (loop.bufferStride side, loop.stride side)

theorem map_snd_offsets (side : Side) (loops : List Loop) :
    (offsets (Loop.sideStrides side) loops).map Prod.snd =
      offsets (fun loop => loop.stride side) loops :=
  map_offsets _ (AddMonoidHom.snd Int Int) loops

/-- Where an input is not packed, loops move in the same way through both buffers. -/
theorem fst_eq_snd_of_mem_offsets {side : Side} {loops : List Loop}
    (h : ∀ loop ∈ loops, loop.isPacked side = false) {x : Int × Int}
    (hx : x ∈ offsets (Loop.sideStrides side) loops) : x.1 = x.2 := by
  have hsame : ∀ loop ∈ loops,
      ((AddMonoidHom.fst Int Int) - (AddMonoidHom.snd Int Int)) (loop.sideStrides side) = 0 := by
    intro loop hloop
    simp [Loop.sideStrides, Loop.bufferStride, h loop hloop]
  have hzero : x.1 - x.2 = 0 := eq_zero_of_mem_offsets _ _ hsame hx
  omega

/-- Loops whose packed strides move forward. -/
def PackedForward (side : Side) (loops : List Loop) : Prop :=
  ∀ loop ∈ loops, loop.isPacked side = true → 0 ≤ loop.stride side

/-- Loops whose packed strides move forward, and by which no two index tuples meet in the packing
buffer. -/
structure PackedApart (side : Side) (loops : List Loop) : Prop where
  nonneg : ∀ loop ∈ loops, loop.isPacked side = true → 0 ≤ loop.stride side
  nodup : (offsets (fun loop => loop.stride side)
    (loops.filter fun loop => loop.isPacked side)).Nodup

namespace PackedRegion

variable {region : PackedRegion} {side : Side} {outside inside : List Loop}

/-- A region cut in front of its packing loop, with the extent of its copy. -/
structure Located (region : PackedRegion) (side : Side) (outside inside : List Loop) : Prop where
  cuts : region.Cuts side outside inside
  sizes : ∀ loop ∈ outside ++ inside, 1 ≤ loop.size
  cells : region.cells = (((outside ++ inside).filter fun loop => loop.isPacked side).map
    fun loop => loop.stride side * (loop.size - 1)).sum + 1
  copy : region.copy = StridedCopy.ofLoops (copyLoops side (outside ++ inside)) 1

/-- A region that is filled forward. -/
structure Copies (region : PackedRegion) (side : Side) (outside inside : List Loop) : Prop extends
    region.Located side outside inside where
  forward : PackedForward side (outside ++ inside)

/-- The copy loops move by the offsets of the packed loops. -/
theorem steps_copyLoops (side : Side) (loops : List Loop) :
    StridedCopy.steps (copyLoops side loops) =
      offsets (Loop.sideStrides side) (loops.filter fun loop => loop.isPacked side) := by
  unfold copyLoops
  have hpacked : ∀ loop ∈ loops.filter fun loop => loop.isPacked side,
      loop.isPacked side = true := fun loop hloop => (List.mem_filter.1 hloop).2
  generalize (loops.filter fun loop => loop.isPacked side) = kept at hpacked ⊢
  induction kept with
  | nil => rfl
  | cons loop rest ih =>
      rw [List.forall_mem_cons] at hpacked
      rw [List.map_cons, StridedCopy.steps_cons, ih hpacked.2, offsets, Loop.sideStrides,
        Loop.bufferStride, if_pos hpacked.1]
      rfl

namespace Located

variable (h : region.Located side outside inside)

include h

theorem moves_perm : region.copy.moves.Perm (offsets (Loop.sideStrides side)
    ((outside ++ inside).filter fun loop => loop.isPacked side)) := by
  rw [h.copy, ← steps_copyLoops]
  refine StridedCopy.ofLoops_moves_perm fun copyLoop hmem => ?_
  obtain ⟨loop, hloop, rfl⟩ := List.mem_map.1 hmem
  exact h.sizes loop (List.mem_of_mem_filter hloop)

/-- The copy moves as the loops inside the region do. -/
theorem mem_moves_iff {x : Int × Int} :
    x ∈ region.copy.moves ↔ x ∈ offsets (Loop.sideStrides side) inside := by
  rw [h.moves_perm.mem_iff, List.filter_append,
    List.filter_eq_nil_iff.2 (fun loop hloop => by rw [h.cuts.outside loop hloop]; simp),
    List.nil_append]
  refine mem_offsets_filter _ (fun loop hloop => h.sizes loop (List.mem_append_right _ hloop))
    fun loop hloop hpacked => ?_
  have hfixed := h.cuts.fixed loop hloop hpacked
  simp [Loop.sideStrides, Loop.bufferStride, hpacked, hfixed]

theorem map_snd_moves_perm : (region.copy.moves.map Prod.snd).Perm (offsets
    (fun loop => loop.stride side) ((outside ++ inside).filter fun loop => loop.isPacked side)) :=
  (h.moves_perm.map _).trans (List.Perm.of_eq (map_snd_offsets side _))

/-- Where index tuples do not meet, each has its element of the block to itself. -/
theorem sourceOf_eq (hapart : PackedApart side (outside ++ inside)) {x : Int × Int}
    (hx : x ∈ offsets (Loop.sideStrides side) inside) : region.copy.sourceOf x.2 = some x.1 :=
  StridedCopy.sourceOf_of_nodup (h.map_snd_moves_perm.nodup_iff.2 hapart.nodup)
    (h.mem_moves_iff.2 hx)

end Located

namespace Copies

variable (h : region.Copies side outside inside)

include h

/-- The targets of a copy lie within its extent. -/
theorem snd_mem_moves {move : Int × Int} (hmove : move ∈ region.copy.moves) :
    0 ≤ move.2 ∧ move.2 < region.cells := by
  have hmem := h.map_snd_moves_perm.mem_iff.1 (List.mem_map_of_mem hmove)
  have hnonneg : ∀ loop ∈ (outside ++ inside).filter fun loop => loop.isPacked side,
      loop.size = 1 ∨ 0 ≤ loop.stride side := fun loop hloop =>
    .inr (h.forward loop (List.mem_of_mem_filter hloop) (List.mem_filter.1 hloop).2)
  obtain ⟨hlow, hhigh⟩ := offsets_bounds hnonneg hmem
  have hcells := h.cells
  exact ⟨hlow, by omega⟩

theorem cells_pos : 1 ≤ region.cells := by
  have hzero : ((0 : Int), (0 : Int)) ∈ region.copy.moves :=
    h.moves_perm.mem_iff.2 (zero_mem_offsets _ fun loop hloop =>
      h.sizes loop (List.mem_of_mem_filter hloop))
  have := (h.snd_mem_moves hzero).2
  omega

variable {α : Type} {target : Buffer α} {targetBase : Int}

/-- After the copy, every target holds the last element of the block that was moved there. -/
theorem read?_fill {cell : Int → α} (hlow : 0 ≤ targetBase)
    (hhigh : targetBase + region.cells ≤ target.size) {source offset : Int}
    (hsource : region.copy.sourceOf offset = some source) :
    Buffer.read? (region.copy.fill (fun i => some (cell i)) target targetBase)
      (targetBase + offset) = some (cell source) := by
  obtain ⟨hx0, hx1⟩ := h.snd_mem_moves (StridedCopy.mem_moves_of_sourceOf hsource)
  exact StridedCopy.read?_fill hsource (by omega) (by omega)

/-- The copy changes no cell outside its extent. -/
theorem read?_fill_frame {cell : Int → Option α} {address : Int}
    (haddress : address < targetBase ∨ targetBase + region.cells ≤ address) :
    Buffer.read? (region.copy.fill cell target targetBase) address =
      Buffer.read? target address := by
  refine StridedCopy.read?_fill_frame fun move hmove => ?_
  obtain ⟨hlow, hhigh⟩ := h.snd_mem_moves hmove
  omega

end Copies

end PackedRegion

end LoopNest
