import LoopNest.Proofs.Checked
import LoopNest.Proofs.Divisor
import LoopNest.Proofs.Planning.Reshape

/-!
# The passes of planning reshape the loop list

Each pass of `Nest.plan` is a chain of the changes of `Reshapes`. Before the inputs are packed all
loops are plain: at least one iteration, no source strides (`Plain`). After that the source strides
are not negative, and the loops that blocking may cut are plain again, because the packed loops stay
with the kernel.

The main statement is `plan_reshapes`: a planned nest is a reshaped form of the given loops.
-/

namespace LoopNest

/-- A loop with iterations along which no input is packed. -/
def Loop.IsPlain (loop : Loop) : Prop := 1 ≤ loop.size ∧ loop.IsUnpacked

/-- A list of loops with iterations along which no input is packed. -/
def Plain (loops : List Loop) : Prop := ∀ loop ∈ loops, loop.IsPlain

namespace Plain

variable {a b : List Loop}

theorem of_perm (h : a.Perm b) (ha : Plain a) : Plain b :=
  fun loop hloop => ha loop (h.mem_iff.2 hloop)

theorem append (ha : Plain a) (hb : Plain b) : Plain (a ++ b) := fun loop hloop =>
  (List.mem_append.1 hloop).elim (ha loop) (hb loop)

theorem right (h : Plain (a ++ b)) : Plain b := fun loop hloop =>
  h loop (List.mem_append_right a hloop)

theorem filter (q : Loop → Bool) (h : Plain a) : Plain (a.filter q) := fun loop hloop =>
  h loop (List.mem_of_mem_filter hloop)

theorem cons {loop : Loop} (hloop : loop.IsPlain) (h : Plain a) : Plain (loop :: a) :=
  List.forall_mem_cons.2 ⟨hloop, h⟩

end Plain

theorem isPlain_retag {loop : Loop} (mode : Mode) (h : loop.IsPlain) :
    ({ loop with mode := mode } : Loop).IsPlain := h

theorem isPlain_placeholder (axis : Axis) : (placeholder axis).IsPlain :=
  ⟨Int.le_refl 1, rfl, rfl⟩

/-! ## Splitting -/

theorem isSplit_of_split {loop : Loop} {target : Int} {mode : Mode} {pair : LoopPair}
    (hloop : loop.IsPlain) (h : loop.split target mode = .ok pair) :
    IsSplit loop pair.outer pair.inner := by
  obtain ⟨hsize, hunpacked⟩ := hloop
  obtain ⟨hpos, q, hqpos, hq, hquot⟩ := splitSize_cofactor target hsize
  have hne : splitSize loop.size target ≠ 0 := by omega
  rw [Loop.split, quotient_eq_ok hne, hquot] at h
  obtain rfl : _ = pair := by simpa [bind, Except.bind, pure, Except.pure] using h
  exact {
    outer_axis := rfl
    inner_axis := rfl
    size := by rw [mul_comm]; exact hq
    outer_pos := hqpos
    inner_pos := hpos
    outer_strides := rfl
    inner_strides := rfl
    unpacked := hunpacked
    outer_unpacked := hunpacked
    inner_unpacked := hunpacked }

theorem IsSplit.isPlain {loop outer inner : Loop} (h : IsSplit loop outer inner) :
    outer.IsPlain ∧ inner.IsPlain :=
  ⟨⟨h.outer_pos, h.outer_unpacked⟩, ⟨h.inner_pos, h.inner_unpacked⟩⟩

/-- A loop at an index stands first in a permuted list. -/
theorem perm_cons_eraseIdx {loops : List Loop} {index : Nat} {loop : Loop}
    (h : loops[index]? = some loop) : loops.Perm (loop :: loops.eraseIdx index) := by
  obtain ⟨hlt, rfl⟩ := List.getElem?_eq_some_iff.1 h
  exact (List.getElem_cons_eraseIdx_perm hlt).symm

theorem perm_set {loops : List Loop} {index : Nat} {loop : Loop} (new : Loop)
    (h : loops[index]? = some loop) :
    (loops.set index new).Perm (new :: loops.eraseIdx index) := by
  obtain ⟨hlt, -⟩ := List.getElem?_eq_some_iff.1 h
  exact List.set_perm_cons_eraseIdx hlt new

/-- A split replaces a loop of the list and appends the inner part. -/
theorem splitAt_eq_ok {loops result : List Loop} {index : Nat} {target : Int} {mode : Mode}
    (h : splitAt loops index target mode = .ok result) :
    ∃ loop pair, loops[index]? = some loop ∧ loop.split target mode = .ok pair ∧
      result = loops.set index pair.outer ++ [pair.inner] := by
  obtain ⟨loop, hloop, h⟩ := bind_eq_ok.1 h
  obtain ⟨pair, hpair, h⟩ := bind_eq_ok.1 h
  refine ⟨loop, pair, ?_, hpair, (pure_eq_ok.1 h).symm⟩
  unfold entry at hloop
  split at hloop
  · rename_i x hx
    rwa [Except.ok.inj hloop] at hx
  · cases hloop

theorem splitAt_reshapes {loops result : List Loop} {index : Nat} {target : Int} {mode : Mode}
    (hplain : Plain loops) (h : splitAt loops index target mode = .ok result) :
    Reshapes loops result ∧ Plain result := by
  obtain ⟨loop, pair, hget, hpair, rfl⟩ := splitAt_eq_ok h
  have hperm := perm_cons_eraseIdx hget
  have hplain' := Plain.of_perm hperm hplain
  have hsplit := isSplit_of_split (hplain' loop List.mem_cons_self) hpair
  have hresult : (pair.outer :: pair.inner :: loops.eraseIdx index).Perm
      (loops.set index pair.outer ++ [pair.inner]) :=
    (List.Perm.swap _ _ _).trans
      ((List.Perm.cons _ (perm_set pair.outer hget).symm).trans
        (List.perm_append_singleton _ _).symm)
  refine ⟨.of_perm hperm (.split _ hsplit) hresult, Plain.of_perm hresult ?_⟩
  obtain ⟨ho, hi⟩ := hsplit.isPlain
  exact Plain.cons ho (Plain.cons hi fun l hl => hplain' l (List.mem_cons_of_mem _ hl))

/-! ## Normal form -/

theorem dropUnits_reshapes (loops : List Loop) : Reshapes loops (dropUnits loops) := by
  induction loops with
  | nil => exact .refl []
  | cons loop loops ih =>
      rw [dropUnits, List.filter_cons]
      split
      · exact .cons loop ih
      · rename_i h
        have hsize : loop.size = 1 ∧ loop.isPrim = false := by simpa using h
        exact .trans (.drop loops hsize.1) ih

theorem isSplit_of_continues {outer inner : Loop} (houter : outer.IsPlain) (hinner : inner.IsPlain)
    (h : outer.continues inner = true) : IsSplit (outer.fuse inner) outer inner := by
  obtain ⟨haxis, hstrides⟩ : outer.axis = inner.axis ∧
      outer.strides = inner.strides.scale inner.size := by simpa [Loop.continues] using h
  exact {
    outer_axis := rfl
    inner_axis := haxis.symm
    size := rfl
    outer_pos := houter.1
    inner_pos := hinner.1
    outer_strides := hstrides
    inner_strides := rfl
    unpacked := houter.2
    outer_unpacked := houter.2
    inner_unpacked := hinner.2 }

theorem isPlain_fuse {outer inner : Loop} (houter : outer.IsPlain) (hinner : inner.IsPlain) :
    (outer.fuse inner).IsPlain := by
  refine ⟨?_, houter.2⟩
  have h := Int.mul_le_mul houter.1 hinner.1 (by decide) (by have := houter.1; omega)
  simpa [Loop.fuse] using h

theorem fuseFrom_reshapes {current : Loop} {rest : List Loop} (hplain : Plain (current :: rest)) :
    Reshapes (current :: rest) (fuseFrom current rest) ∧ Plain (fuseFrom current rest) := by
  induction rest generalizing current with
  | nil => exact ⟨.refl _, hplain⟩
  | cons next rest ih =>
      obtain ⟨hcurrent, hrest⟩ := List.forall_mem_cons.1 hplain
      obtain ⟨hnext, hrest'⟩ := List.forall_mem_cons.1 hrest
      unfold fuseFrom
      split
      · rename_i hcont
        have hfused : Plain (current.fuse next :: rest) :=
          Plain.cons (isPlain_fuse hcurrent hnext) hrest'
        obtain ⟨h, hp⟩ := ih hfused
        exact ⟨.trans (.join rest (isSplit_of_continues hcurrent hnext hcont)) h, hp⟩
      · obtain ⟨h, hp⟩ := ih hrest
        exact ⟨.cons current h, Plain.cons hcurrent hp⟩

theorem sortAndFuse_reshapes {loops : List Loop} (hplain : Plain loops) :
    Reshapes loops (sortAndFuse loops) ∧ Plain (sortAndFuse loops) := by
  have hperm := (sortBy_perm Loop.precedes loops).symm
  have hsorted := Plain.of_perm hperm hplain
  unfold sortAndFuse fuseLoops
  split
  · rename_i hnil
    rw [hnil] at hperm hsorted
    exact ⟨.perm hperm, hsorted⟩
  · rename_i loop rest hcons
    rw [hcons] at hperm hsorted
    obtain ⟨h, hp⟩ := fuseFrom_reshapes hsorted
    exact ⟨.trans (.perm hperm) h, hp⟩

/-! ## Searches -/

theorem mem_indexed {loops : List Loop} {found : Found} (h : found ∈ indexed loops) :
    loops[found.index]? = some found.loop := by
  obtain ⟨⟨loop, index⟩, hmem, rfl⟩ := List.mem_map.1 h
  obtain ⟨-, hlt, heq⟩ := List.mem_zipIdx hmem
  simp only [Nat.zero_add, Nat.sub_zero] at hlt heq
  exact List.getElem?_eq_some_iff.2 ⟨hlt, heq.symm⟩

/-- The search for the lightest loop only ever holds a loop of the axis that is not left out. -/
theorem mem_of_lightest {loops : List Loop} {axis : Axis} {exclude : Option Nat} {found : Found}
    (h : lightest loops axis exclude = some found) :
    found ∈ (indexed loops).filter fun found =>
      found.loop.axis = axis && some found.index ≠ exclude := by
  have key : ∀ (cs : List Found) (best : Option Found),
      cs.foldl (fun best found =>
        let bound := (best.map fun f => f.loop.weight).getD weightBound
        if found.loop.weight < bound then some found else best) best = some found →
      found ∈ cs ∨ best = some found := by
    intro cs
    induction cs with
    | nil => exact fun best hbest => Or.inr hbest
    | cons c cs ih =>
        intro best hbest
        rcases ih _ hbest with hmem | heq
        · exact Or.inl (List.mem_cons_of_mem c hmem)
        · dsimp only at heq
          split at heq
          · exact Or.inl (Option.some.inj heq ▸ List.mem_cons_self)
          · exact Or.inr heq
  rcases key _ none h with hmem | hnone
  · exact hmem
  · cases hnone

theorem lightest_spec {loops : List Loop} {axis : Axis} {exclude : Option Nat} {found : Found}
    (h : lightest loops axis exclude = some found) :
    loops[found.index]? = some found.loop ∧ found.loop.axis = axis := by
  obtain ⟨hmem, hq⟩ := List.mem_filter.1 (mem_of_lightest h)
  exact ⟨mem_indexed hmem, by simpa using (Bool.and_eq_true_iff.1 hq).1⟩

/-! ## Kernel loops -/

/-- A complex loop of two iterations is taken out for a complex product, and nothing for any other
product. -/
theorem takeComplex_cases {kernel : KernelTag} {loops rest : List Loop} {complex : Option Loop}
    (h : takeComplex kernel loops = .ok (complex, rest)) :
    (∃ found, lightest loops .cpx none = some found ∧ kernel = .cpxMadd ∧
      complex = some found.loop ∧ rest = loops.eraseIdx found.index) ∨
    kernel ≠ .cpxMadd ∧ complex = none ∧ rest = loops := by
  unfold takeComplex at h
  split at h
  · rename_i found hfound
    obtain ⟨hfits, h⟩ := guard_eq_ok.1 h
    obtain ⟨-, h⟩ := guard_eq_ok.1 h
    obtain ⟨rfl, rfl⟩ := Prod.mk.inj (Except.ok.inj h)
    rw [not_or, not_not, not_not] at hfits
    exact .inl ⟨found, hfound, hfits.2, rfl, rfl⟩
  · obtain ⟨hkernel, h⟩ := guard_eq_ok.1 h
    obtain ⟨rfl, rfl⟩ := Prod.mk.inj (Except.ok.inj h)
    exact .inr ⟨hkernel, rfl, rfl⟩

theorem takeComplex_perm {kernel : KernelTag} {loops rest : List Loop} {complex : Option Loop}
    (h : takeComplex kernel loops = .ok (complex, rest)) :
    loops.Perm (complex.toList ++ rest) := by
  rcases takeComplex_cases h with ⟨found, hfound, -, rfl, rfl⟩ | ⟨-, rfl, rfl⟩
  · exact perm_cons_eraseIdx (lightest_spec hfound).1
  · exact List.Perm.refl _

theorem append_placeholder_reshapes {loops : List Loop} (axis : Axis) (hplain : Plain loops) :
    Reshapes loops (loops ++ [placeholder axis]) ∧ Plain (loops ++ [placeholder axis]) := by
  have hperm := (List.perm_append_singleton (placeholder axis) loops).symm
  exact ⟨.trans (.add axis loops) (.perm hperm),
    Plain.of_perm hperm (Plain.cons (isPlain_placeholder axis) hplain)⟩

/-- How a slot is filled: with the inner part of the loop that was picked for it, if there is one that
is given more than one iteration; otherwise with a placeholder, or not at all. -/
inductive SlotFill (axis : Axis) (required : Bool) (candidate : Option Found) (target : Int)
    (loops : List Loop) : List Loop → Prop where
  | split {found : Found} {result : List Loop} (hfound : candidate = some found)
      (htarget : 1 < target) (hsplit : splitAt loops found.index target .prim = .ok result) :
      SlotFill axis required candidate target loops result
  | idle (hidle : (candidate.isSome && decide (1 < target)) = false) (hrequired : required = true) :
      SlotFill axis required candidate target loops (loops ++ [placeholder axis])
  | empty (hidle : (candidate.isSome && decide (1 < target)) = false)
      (hrequired : required = false) : SlotFill axis required candidate target loops loops

theorem slotFill_of_installSlot {axis : Axis} {required : Bool} {candidate : Option Found}
    {target : Int} {loops result : List Loop}
    (h : installSlot axis required candidate target loops = .ok result) :
    SlotFill axis required candidate target loops result := by
  have hfill : (candidate.isSome && decide (1 < target)) = false →
      (.ok (if required then loops ++ [placeholder axis] else loops) :
        Except Error (List Loop)) = .ok result →
      SlotFill axis required candidate target loops result := by
    intro hidle h
    obtain rfl := Except.ok.inj h
    cases required with
    | true => exact .idle hidle rfl
    | false => exact .empty hidle rfl
  cases candidate with
  | none => exact hfill rfl h
  | some found =>
      rw [installSlot] at h
      split at h
      · rename_i htarget
        exact .split rfl htarget h
      · rename_i htarget
        exact hfill (decide_eq_false htarget) h

theorem installExtra_cases {candidate : Option Found} {target : Int} {loops result : List Loop}
    (h : installExtra candidate target loops = .ok result) :
    (∃ found, candidate = some found ∧ splitAt loops found.index target .seq = .ok result) ∨
      candidate = none ∧ result = loops := by
  cases candidate with
  | none => exact .inr ⟨rfl, (Except.ok.inj h).symm⟩
  | some found => exact .inl ⟨found, rfl, h⟩

theorem installSlot_reshapes {axis : Axis} {required : Bool} {candidate : Option Found}
    {target : Int} {loops result : List Loop} (hplain : Plain loops)
    (h : installSlot axis required candidate target loops = .ok result) :
    Reshapes loops result ∧ Plain result := by
  cases slotFill_of_installSlot h with
  | split hfound htarget hsplit => exact splitAt_reshapes hplain hsplit
  | idle => exact append_placeholder_reshapes axis hplain
  | empty => exact ⟨.refl _, hplain⟩

theorem installExtra_reshapes {candidate : Option Found} {target : Int} {loops result : List Loop}
    (hplain : Plain loops) (h : installExtra candidate target loops = .ok result) :
    Reshapes loops result ∧ Plain result := by
  rcases installExtra_cases h with ⟨found, -, hsplit⟩ | ⟨-, rfl⟩
  · exact splitAt_reshapes hplain hsplit
  · exact ⟨.refl _, hplain⟩

/-- The kernel slots are filled one after the other. -/
theorem installSlots_eq_ok {chosen : Candidates} {targets : Slots Int} {loops result : List Loop}
    (h : installSlots chosen targets loops = .ok result) :
    ∃ withBr withC withM withN,
      installSlot .k chosen.batchRequired chosen.slots.br targets.br loops = .ok withBr ∧
      installSlot .c false chosen.slots.c targets.c withBr = .ok withC ∧
      installSlot .m true chosen.slots.m targets.m withC = .ok withM ∧
      installSlot .n true chosen.slots.n targets.n withM = .ok withN ∧
      installSlot .k true chosen.slots.k targets.k withN = .ok result := by
  obtain ⟨withBr, hbr, h⟩ := bind_eq_ok.1 h
  obtain ⟨withC, hc, h⟩ := bind_eq_ok.1 h
  obtain ⟨withM, hm, h⟩ := bind_eq_ok.1 h
  obtain ⟨withN, hn, h⟩ := bind_eq_ok.1 h
  exact ⟨withBr, withC, withM, withN, hbr, hc, hm, hn, h⟩

theorem installSlots_reshapes {chosen : Candidates} {targets : Slots Int}
    {loops result : List Loop} (hplain : Plain loops)
    (h : installSlots chosen targets loops = .ok result) :
    Reshapes loops result ∧ Plain result := by
  obtain ⟨_, _, _, _, h₁, h₂, h₃, h₄, h₅⟩ := installSlots_eq_ok h
  obtain ⟨r₁, p₁⟩ := installSlot_reshapes hplain h₁
  obtain ⟨r₂, p₂⟩ := installSlot_reshapes p₁ h₂
  obtain ⟨r₃, p₃⟩ := installSlot_reshapes p₂ h₃
  obtain ⟨r₄, p₄⟩ := installSlot_reshapes p₃ h₄
  obtain ⟨r₅, p₅⟩ := installSlot_reshapes p₄ h₅
  exact ⟨.trans r₁ (.trans r₂ (.trans r₃ (.trans r₄ r₅))), p₅⟩

/-! ## Packing strides -/

/-- A loop with iterations and without negative source strides. -/
def Loop.IsSound (loop : Loop) : Prop := 1 ≤ loop.size ∧ 0 ≤ loop.sourceLeft ∧ 0 ≤ loop.sourceRight

theorem isSound_of_isPlain {loop : Loop} (h : loop.IsPlain) : loop.IsSound :=
  ⟨h.1, h.2.1.ge, h.2.2.ge⟩

theorem stable_isSound : Stable Loop.IsSound where
  placeholder axis := isSound_of_isPlain (isPlain_placeholder axis)
  split hs _ := ⟨isSound_of_isPlain hs.isPlain.1, isSound_of_isPlain hs.isPlain.2⟩
  join hs ho hi := by
    refine ⟨?_, hs.unpacked.1.ge, hs.unpacked.2.ge⟩
    have h := Int.mul_le_mul ho.1 hi.1 (by decide) (by have := ho.1; omega)
    rw [hs.size]
    simpa using h
  retag _ _ h := h
  repack := by
    intro loop side stride _ hstride h
    cases side with
    | left => exact ⟨h.1, Int.le_of_lt hstride, h.2.2⟩
    | right => exact ⟨h.1, h.2.1, Int.le_of_lt hstride⟩

/-- What one step of packing can do: give the loop at the first distance the next buffer stride, or
leave the list as it is because there is no loop that moves forward. -/
theorem assign_cons_cases (side : Side) (d : Nat) (order : List Nat) (running : Int)
    (loops : List Loop) :
    (∃ loop, d ≤ loops.length ∧ loops[loops.length - d]? = some loop ∧ 0 < loop.stride side ∧
      assignBufferStrides side (d :: order) running loops =
        assignBufferStrides side order (running * loop.size)
          (loops.set (loops.length - d) (loop.repack side running))) ∨
    ((∀ loop, d ≤ loops.length → loops[loops.length - d]? = some loop → loop.stride side ≤ 0) ∧
      assignBufferStrides side (d :: order) running loops =
        assignBufferStrides side order running loops) := by
  by_cases hd : d ≤ loops.length
  · rw [assignBufferStrides, if_pos hd]
    dsimp only
    cases hloop : loops[loops.length - d]? with
    | none => exact .inr ⟨by simp, rfl⟩
    | some loop =>
        dsimp only
        by_cases hstride : 0 < loop.stride side
        · rw [if_pos hstride]
          exact .inl ⟨loop, hd, rfl, hstride, rfl⟩
        · rw [if_neg hstride]
          refine .inr ⟨fun l _ hl => ?_, rfl⟩
          obtain rfl := Option.some.inj hl
          omega
  · rw [assignBufferStrides, if_neg hd]
    exact .inr ⟨fun _ hle => absurd hle hd, rfl⟩

/-- What a step of packing respects, packing respects. -/
theorem assignBufferStrides_induction {P : List Loop → Prop} {side : Side}
    (hstep : ∀ loops index loop stride, loops[index]? = some loop → P loops →
      P (loops.set index (loop.repack side stride)))
    (order : List Nat) (running : Int) {loops : List Loop} (h : P loops) :
    P (assignBufferStrides side order running loops) := by
  induction order generalizing running loops with
  | nil => exact h
  | cons d order ih =>
      rcases assign_cons_cases side d order running loops with
        ⟨loop, -, hloop, -, heq⟩ | ⟨-, heq⟩
      · rw [heq]
        exact ih _ (hstep _ _ _ _ hloop h)
      · rw [heq]
        exact ih _ h

theorem forall_assignBufferStrides {p : Loop → Prop} {side : Side}
    (hp : ∀ loop stride, p loop → p (loop.repack side stride)) (order : List Nat) (running : Int)
    {loops : List Loop} (h : ∀ loop ∈ loops, p loop) :
    ∀ loop ∈ assignBufferStrides side order running loops, p loop := by
  apply assignBufferStrides_induction (P := fun packed => ∀ loop ∈ packed, p loop) _ order running h
  intro packed index loop stride hloop hpacked l hl
  rcases List.mem_or_eq_of_mem_set hl with hmem | rfl
  · exact hpacked l hmem
  · exact hp loop _ (hpacked loop (List.mem_of_getElem? hloop))

/-- Buffer strides are handed out at different distances from the end, so no loop is packed twice: what
a step respects that packs a loop for the first time, packing respects. -/
theorem assignBufferStrides_fresh {P : Int → List Loop → Prop} {side : Side}
    (hstep : ∀ running loops index loop, loops[index]? = some loop → loop.source side = 0 →
      0 < loop.stride side → P running loops →
        P (running * loop.size) (loops.set index (loop.repack side running)))
    {order : List Nat} (hnodup : order.Nodup) (running : Int) {loops : List Loop}
    (hsource : ∀ distance ∈ order, distance ≤ loops.length → ∀ loop,
      loops[loops.length - distance]? = some loop → loop.source side = 0)
    (h : P running loops) : ∃ cells, P cells (assignBufferStrides side order running loops) := by
  induction order generalizing running loops with
  | nil => exact ⟨running, h⟩
  | cons distance order ih =>
      obtain ⟨hnot, hnodup⟩ := List.nodup_cons.1 hnodup
      rw [List.forall_mem_cons] at hsource
      obtain ⟨hhead, htail⟩ := hsource
      rcases assign_cons_cases side distance order running loops with
        ⟨loop, hle, hloop, hstride, heq⟩ | ⟨-, heq⟩
      · rw [heq]
        refine ih hnodup _ (fun d hd hdle l hl => ?_)
          (hstep running loops _ loop hloop (hhead hle loop hloop) hstride h)
        rw [List.length_set] at hdle hl
        -- no other distance reaches the loop that was packed
        have hne : loops.length - distance ≠ loops.length - d := by
          intro heq
          exact hnot ((show distance = d by omega) ▸ hd)
        rw [List.getElem?_set_ne hne] at hl
        exact htail d hd hdle l hl
      · rw [heq]
        exact ih hnodup running htail h

theorem assignBufferStrides_reshapes {side : Side} {order : List Nat} (running : Int)
    {loops : List Loop} (hnodup : order.Nodup)
    (h : ∀ distance ∈ order, distance ≤ loops.length → ∀ loop,
      loops[loops.length - distance]? = some loop → loop.source side = 0) :
    Reshapes loops (assignBufferStrides side order running loops) := by
  have hall : ∃ _ : Int, Reshapes loops (assignBufferStrides side order running loops) := by
    apply assignBufferStrides_fresh (P := fun _ packed => Reshapes loops packed) _ hnodup running h
      (.refl loops)
    intro running packed index loop hloop hsource hstride hpacked
    refine .trans hpacked (.of_perm (perm_cons_eraseIdx hloop) ?_ (perm_set _ hloop).symm)
    exact .repack running _ hsource hstride
  exact hall.elim fun _ hpacked => hpacked

theorem nodup_bufferOrder (kernel : KernelTag) (lanes : LanePosition) (extra : Nat) :
    (bufferOrder kernel lanes extra).Nodup := by
  have hrange : ∀ start n, (List.range' start n).Nodup := fun start n => List.nodup_range'
  have hmem : ∀ {start n d : Nat}, d ∈ List.range' start n → start ≤ d := fun h =>
    (List.mem_range'_1.1 h).1
  unfold bufferOrder
  dsimp only
  refine List.nodup_append.2 ⟨?_, hrange _ _, ?_⟩
  · split
    · cases lanes <;> decide
    · decide
  · intro d hd e he heq
    subst heq
    have hge := hmem he
    split at hd
    · cases lanes <;> simp_all <;> omega
    · simp_all
      omega

theorem packInputs_reshapes {settings : Settings} {kernel : KernelTag} {chosen : Candidates}
    {loops : List Loop} (hplain : Plain loops) :
    Reshapes loops (packInputs settings kernel chosen loops) := by
  unfold packInputs
  dsimp only
  generalize (if settings.packedSupport = .allStrideOne then LanePosition.innermost
    else .outermost) = lanes
  generalize (chosen.extraLeft.toList ++ chosen.extraRight.toList).length = extra
  have hnodup := nodup_bufferOrder kernel lanes extra
  have hleft : Reshapes loops (if chosen.packLeft then
      assignBufferStrides .left (bufferOrder kernel lanes extra) 1 loops else loops) := by
    split
    · exact assignBufferStrides_reshapes 1 hnodup fun _ _ _ loop hloop =>
        (hplain loop (List.mem_of_getElem? hloop)).2.1
    · exact .refl loops
  -- packing the left input packs nothing of the right one
  have hright : ∀ loop ∈ (if chosen.packLeft then
      assignBufferStrides .left (bufferOrder kernel lanes extra) 1 loops else loops),
      loop.sourceRight = 0 := by
    have hbefore : ∀ loop ∈ loops, loop.sourceRight = 0 := fun loop hloop =>
      (hplain loop hloop).2.2
    split
    · exact forall_assignBufferStrides (p := fun loop => loop.sourceRight = 0)
        (fun loop stride h => show (loop.repack .left stride).sourceRight = 0 from h) _ _ hbefore
    · exact hbefore
  split
  · exact .trans hleft (assignBufferStrides_reshapes 1 hnodup fun _ _ _ loop hloop =>
      hright loop (List.mem_of_getElem? hloop))
  · exact hleft

/-- What the stages of installing the kernel loops hand on. -/
structure KernelStages where
  complex : Option Loop
  rest : List Loop
  chosen : Candidates
  targets : Targets
  /-- After the further packed loop of the right input was split. -/
  withRight : List Loop
  /-- After both further packed loops were split. -/
  withExtra : List Loop
  installed : List Loop

namespace KernelStages

/-- The list in which the slots are filled: the complex loop has become a kernel loop. -/
def base (s : KernelStages) : List Loop :=
  s.withExtra ++ (s.complex.map fun loop => { loop with mode := .prim }).toList

/-- The stages lead from a loop list to the list with its kernel loops. -/
structure Lead (s : KernelStages) (settings : Settings) (kernel : KernelTag) (loops : List Loop)
    (kerneled : Kerneled) : Prop where
  tag : kernel = .madd ∨ kernel = .cpxMadd
  takes : takeComplex kernel loops = .ok (s.complex, s.rest)
  chooses : candidates settings s.rest = .ok s.chosen
  aims : targetSizes settings s.chosen s.rest = .ok s.targets
  right : installExtra s.chosen.extraRight s.targets.extraPacking s.rest = .ok s.withRight
  left : installExtra s.chosen.extraLeft s.targets.extraPacking s.withRight = .ok s.withExtra
  slots : installSlots s.chosen s.targets.slots s.base = .ok s.installed
  loops : kerneled.loops = packInputs settings kerneled.kernel s.chosen s.installed
  kernel : kerneled.kernel = refineKernel kernel s.complex.isSome s.targets.slots

end KernelStages

/-- The kernel loops are installed in stages. -/
theorem installKernel_eq_ok {settings : Settings} {kernel : KernelTag} {loops : List Loop}
    {kerneled : Kerneled} (h : installKernel settings kernel loops = .ok kerneled) :
    ∃ s : KernelStages, s.Lead settings kernel loops kerneled := by
  unfold installKernel at h
  obtain ⟨htag, h⟩ := guard_bind_eq_ok.1 h
  obtain ⟨⟨complex, rest⟩, hcomplex, h⟩ := bind_eq_ok.1 h
  obtain ⟨chosen, hchosen, h⟩ := bind_eq_ok.1 h
  obtain ⟨targets, htargets, h⟩ := bind_eq_ok.1 h
  obtain ⟨l₁, h₁, h⟩ := bind_eq_ok.1 h
  obtain ⟨l₂, h₂, h⟩ := bind_eq_ok.1 h
  obtain ⟨l₃, h₃, h⟩ := bind_eq_ok.1 h
  obtain rfl := pure_eq_ok.1 h
  have htag : kernel = .madd ∨ kernel = .cpxMadd := by_contra fun hneither =>
    htag (not_or.1 hneither)
  exact ⟨⟨complex, rest, chosen, targets, l₁, l₂, l₃⟩, htag, hcomplex, hchosen, htargets, h₁, h₂, h₃,
    rfl, rfl⟩

namespace KernelStages.Lead

variable {s : KernelStages} {settings : Settings} {kernel : KernelTag} {loops : List Loop}
  {kerneled : Kerneled}

/-- Before the inputs are packed, all loops are plain. -/
theorem reshapes (h : s.Lead settings kernel loops kerneled) (hplain : Plain loops) :
    Reshapes loops s.installed ∧ Plain s.installed := by
  have hperm := takeComplex_perm h.takes
  have hsplit := Plain.of_perm hperm hplain
  obtain ⟨r₁, p₁⟩ := installExtra_reshapes hsplit.right h.right
  obtain ⟨r₂, p₂⟩ := installExtra_reshapes p₁ h.left
  have hretag : Reshapes s.complex.toList
      (s.complex.map fun loop : Loop => { loop with mode := .prim }).toList ∧
      Plain (s.complex.map fun loop : Loop => { loop with mode := .prim }).toList := by
    cases hcomplex : s.complex with
    | none => exact ⟨.refl [], by simp [Plain]⟩
    | some loop =>
        rw [hcomplex] at hsplit
        exact ⟨.retag loop .prim [],
          Plain.cons (isPlain_retag .prim (hsplit loop List.mem_cons_self)) (by simp [Plain])⟩
  obtain ⟨r₃, p₃⟩ := installSlots_reshapes (p₂.append hretag.2) h.slots
  refine ⟨?_, p₃⟩
  refine .trans (.perm hperm) (.trans (Reshapes.append_left _ (.trans r₁ r₂)) ?_)
  refine .trans (.perm List.perm_append_comm) (.trans (Reshapes.append_left _ hretag.1) r₃)

end KernelStages.Lead

theorem installKernel_reshapes {settings : Settings} {kernel : KernelTag} {loops : List Loop}
    {kerneled : Kerneled} (hplain : Plain loops)
    (h : installKernel settings kernel loops = .ok kerneled) : Reshapes loops kerneled.loops := by
  obtain ⟨s, hs⟩ := installKernel_eq_ok h
  obtain ⟨hreshapes, hinstalled⟩ := hs.reshapes hplain
  rw [hs.loops]
  exact .trans hreshapes (packInputs_reshapes hinstalled)

/-! ## Blocking -/

/-- One move: a loop of the axis is moved as a whole, or it is split and its inner part moved. An outer
part without a second iteration is dropped. -/
inductive MoveStep (axis : Axis) (mode : Mode) (state : Moved) : Moved → Prop where
  | whole {index : Nat} {loop : Loop} (hget : state.rest[index]? = some loop)
      (haxis : loop.axis = axis) :
      MoveStep axis mode state
        ⟨state.rest.eraseIdx index, { loop with mode := mode } :: state.moved⟩
  | split {index : Nat} {loop : Loop} {target : Int} {pair : LoopPair}
      (hget : state.rest[index]? = some loop) (haxis : loop.axis = axis)
      (hpair : loop.split target mode = .ok pair) :
      MoveStep axis mode state ⟨state.rest.set index pair.outer, pair.inner :: state.moved⟩
  | drop {index : Nat} {loop : Loop} {target : Int} {pair : LoopPair}
      (hget : state.rest[index]? = some loop) (haxis : loop.axis = axis)
      (hpair : loop.split target mode = .ok pair) (hone : pair.outer.size = 1) :
      MoveStep axis mode state ⟨state.rest.eraseIdx index, pair.inner :: state.moved⟩

/-- What every move keeps, moving loops keeps. -/
theorem moveInner_induction {motive : Moved → Prop} {axis : Axis} {mode : Mode}
    (hmove : ∀ {state next : Moved}, MoveStep axis mode state next → motive state → motive next)
    {count : Nat} {target : Int} {state result : Moved} (hstart : motive state)
    (h : moveInner axis mode count target state = .ok result) : motive result := by
  induction count generalizing target state with
  | zero =>
      obtain rfl := Except.ok.inj h
      exact hstart
  | succ count ih =>
      unfold moveInner at h
      split at h
      · obtain rfl := Except.ok.inj h
        exact hstart
      split at h
      · obtain rfl := Except.ok.inj h
        exact hstart
      rename_i found hfound
      obtain ⟨hget, haxis⟩ := lightest_spec hfound
      split at h
      · -- a loop that is split is the last one to be moved
        obtain ⟨pair, hpair, h⟩ := bind_eq_ok.1 h
        obtain rfl := pure_eq_ok.1 h
        split
        · rename_i hone
          exact hmove (.drop hget haxis hpair hone) hstart
        · exact hmove (.split hget haxis hpair) hstart
      · obtain ⟨left, -, h⟩ := bind_eq_ok.1 h
        exact ih (hmove (.whole hget haxis) hstart) h

/-- A move keeps the loops that stay and the loops that were moved together. -/
theorem MoveStep.reshapes {axis : Axis} {mode : Mode} {state next : Moved}
    (h : MoveStep axis mode state next) (hplain : Plain state.rest) :
    Reshapes (state.rest ++ state.moved) (next.rest ++ next.moved) ∧ Plain next.rest := by
  -- a split loop leaves its outer part in front of what stays, its inner part with what was moved
  have hsplits : ∀ {index : Nat} {loop : Loop} {pair : LoopPair},
      state.rest[index]? = some loop → IsSplit loop pair.outer pair.inner →
      Reshapes (state.rest ++ state.moved)
        (pair.outer :: state.rest.eraseIdx index ++ pair.inner :: state.moved) := by
    intro index loop pair hget hsplit
    have hparts := Reshapes.of_perm (perm_cons_eraseIdx hget) (.split _ hsplit) (List.Perm.refl _)
    refine .trans (hparts.append_right state.moved) (.perm ?_)
    exact List.Perm.cons _ List.perm_middle.symm
  have hothers : ∀ index, Plain (state.rest.eraseIdx index) := fun index l hl =>
    hplain l (List.mem_of_mem_eraseIdx hl)
  cases h with
  | @whole index loop hget haxis =>
      refine ⟨.trans ?_ (.perm List.perm_middle.symm), hothers index⟩
      exact (Reshapes.of_perm (perm_cons_eraseIdx hget) (.retag loop mode _)
        (List.Perm.refl _)).append_right state.moved
  | @split index loop target pair hget haxis hpair =>
      have hsplit := isSplit_of_split (hplain loop (List.mem_of_getElem? hget)) hpair
      have hset := perm_set pair.outer hget
      exact ⟨.trans (hsplits hget hsplit) (.perm (hset.symm.append_right _)),
        Plain.of_perm hset.symm (Plain.cons hsplit.isPlain.1 (hothers index))⟩
  | @drop index loop target pair hget haxis hpair hone =>
      have hsplit := isSplit_of_split (hplain loop (List.mem_of_getElem? hget)) hpair
      exact ⟨.trans (hsplits hget hsplit) (.drop _ hone), hothers index⟩

/-- Moving loops out keeps the loops that stay and the loops that were moved together. -/
theorem moveInner_reshapes {axis : Axis} {mode : Mode} {count : Nat} {target : Int}
    {state result : Moved} (hplain : Plain state.rest)
    (h : moveInner axis mode count target state = .ok result) :
    Reshapes (state.rest ++ state.moved) (result.rest ++ result.moved) ∧ Plain result.rest := by
  refine moveInner_induction (motive := fun current =>
    Reshapes (state.rest ++ state.moved) (current.rest ++ current.moved) ∧ Plain current.rest)
    ?_ ⟨.refl _, hplain⟩ h
  rintro current next hmove ⟨hreshapes, hplain⟩
  obtain ⟨hstep, hnext⟩ := hmove.reshapes hplain
  exact ⟨.trans hreshapes hstep, hnext⟩

theorem takeInner_reshapes {axis : Axis} {mode : Mode} {target : Int} {loops : List Loop}
    {result : Moved} (hplain : Plain loops)
    (h : takeInner axis mode target loops = .ok result) :
    Reshapes loops (result.rest ++ result.moved) ∧ Plain result.rest := by
  have hstart : Plain (Moved.mk loops []).rest := hplain
  simpa using moveInner_reshapes hstart h

theorem isUnpacked_of_not_staysWithKernel {loop : Loop} (hsound : loop.IsSound)
    (h : loop.staysWithKernel = false) : loop.IsUnpacked := by
  have hle : loop.sourceLeft ≤ 0 ∧ loop.sourceRight ≤ 0 := by
    simp only [Loop.staysWithKernel, Bool.or_eq_false_iff, decide_eq_false_iff_not, not_lt] at h
    exact ⟨h.1.2, h.2⟩
  exact ⟨Int.le_antisymm hle.1 hsound.2.1, Int.le_antisymm hle.2 hsound.2.2⟩

/-- What blocking moves for each axis, each time out of what is left, and how it puts the loops
together. -/
structure Blocking (settings : Settings) (loops : List Loop) (blocked : Blocked)
    (n m k c : Moved) : Prop where
  takesN : ∃ target, takeInner .n (if settings.curves then .sfc else .omp) target
    (loops.filter fun loop => !loop.staysWithKernel) = .ok n
  takesM : ∃ target, takeInner .m (if settings.curves then .sfc else .omp) target n.rest = .ok m
  takesK : ∃ target, takeInner .k .seq target m.rest = .ok k
  takesC : ∃ target, takeInner .c .omp target k.rest = .ok c
  loops : blocked.loops = sortBy (fun a b => b.weight ≤ a.weight) c.rest ++ k.moved ++ c.moved ++
    n.moved ++ m.moved ++ loops.filter Loop.staysWithKernel
  sfcM : blocked.sfcM = if settings.curves then totalSize m.moved else 1
  sfcN : blocked.sfcN = if settings.curves then totalSize n.moved else 1

theorem exists_blocking {settings : Settings} {element : ElementType} {loops : List Loop}
    {blocked : Blocked} (h : block settings element loops = .ok blocked) :
    ∃ n m k c, Blocking settings loops blocked n m k c := by
  obtain ⟨tiles, -, h⟩ := bind_eq_ok.1 h
  obtain ⟨⟨targetM, targetN⟩, -, h⟩ := bind_eq_ok.1 h
  obtain ⟨targetC, -, h⟩ := bind_eq_ok.1 h
  obtain ⟨n, hn, h⟩ := bind_eq_ok.1 h
  obtain ⟨m, hm, h⟩ := bind_eq_ok.1 h
  obtain ⟨k, hk, h⟩ := bind_eq_ok.1 h
  obtain ⟨c, hc, h⟩ := bind_eq_ok.1 h
  obtain rfl := pure_eq_ok.1 h
  exact ⟨n, m, k, c, ⟨_, hn⟩, ⟨_, hm⟩, ⟨_, hk⟩, ⟨_, hc⟩, rfl, rfl, rfl⟩

theorem block_reshapes {settings : Settings} {element : ElementType} {loops : List Loop}
    {blocked : Blocked} (hsound : ∀ loop ∈ loops, loop.IsSound)
    (h : block settings element loops = .ok blocked) : Reshapes loops blocked.loops := by
  obtain ⟨n, m, k, c, hsteps⟩ := exists_blocking h
  obtain ⟨_, hn⟩ := hsteps.takesN
  obtain ⟨_, hm⟩ := hsteps.takesM
  obtain ⟨_, hk⟩ := hsteps.takesK
  obtain ⟨_, hc⟩ := hsteps.takesC
  have hfree : Plain (loops.filter fun loop => !loop.staysWithKernel) := by
    intro loop hloop
    obtain ⟨hmem, hq⟩ := List.mem_filter.1 hloop
    exact ⟨(hsound loop hmem).1,
      isUnpacked_of_not_staysWithKernel (hsound loop hmem) (by simpa using hq)⟩
  obtain ⟨rn, pn⟩ := takeInner_reshapes hfree hn
  obtain ⟨rm, pm⟩ := takeInner_reshapes pn hm
  obtain ⟨rk, pk⟩ := takeInner_reshapes pm hk
  obtain ⟨rc, -⟩ := takeInner_reshapes pk hc
  -- the loops that stay with the kernel are put behind the others
  have hpart : loops.Perm ((loops.filter fun loop => !loop.staysWithKernel) ++
      loops.filter Loop.staysWithKernel) :=
    (List.perm_append_comm.trans
      (List.filter_append_perm Loop.staysWithKernel loops)).symm
  -- each axis takes its loops from what the ones before it left
  have hall : Reshapes (loops.filter fun loop => !loop.staysWithKernel)
      (c.rest ++ k.moved ++ c.moved ++ n.moved ++ m.moved) := by
    refine .trans rn (.trans (rm.append_right _) (.trans ((rk.append_right _).append_right _)
      (.trans (((rc.append_right _).append_right _).append_right _) (.perm ?_))))
    rw [← Multiset.coe_eq_coe]
    simp only [← Multiset.coe_add]
    abel
  rw [hsteps.loops]
  refine .trans (.perm hpart) (.trans (hall.append_right _) (.perm ?_))
  have hsort := (sortBy_perm (fun a b => decide (b.weight ≤ a.weight)) c.rest).symm
  exact ((((hsort.append_right _).append_right _).append_right _).append_right _).append_right _

/-! ## The whole plan -/

/-- The stages of a plan: the kernel is installed in the normal form, what is left of the loops is
blocked, and the threads are shared out. -/
structure PlanStages (settings : Settings) (kernel : KernelTag) (element : ElementType)
    (loops : List Loop) (nest : Nest) (kerneled : Kerneled) (blocked : Blocked) : Prop where
  sizes : ∀ loop ∈ loops, 1 ≤ loop.size
  install : installKernel settings kernel (sortAndFuse (dropUnits loops)) = .ok kerneled
  block : block settings element (dropUnits kerneled.loops) = .ok blocked
  share : splitThreads settings.resolvedThreads blocked.sfcM blocked.sfcN = .ok nest.threads
  loops : nest.loops = blocked.loops
  kernel : nest.kernel = kerneled.kernel

theorem exists_planStages {settings : Settings} {kernel : KernelTag} {element : ElementType}
    {loops : List Loop} {nest : Nest} (h : Nest.plan settings kernel element loops = .ok nest) :
    ∃ kerneled blocked, PlanStages settings kernel element loops nest kerneled blocked := by
  obtain ⟨-, -, h⟩ := bind_eq_ok.1 h
  obtain ⟨⟨⟩, hsizes, h⟩ := bind_eq_ok.1 h
  obtain ⟨kerneled, hkernel, h⟩ := bind_eq_ok.1 h
  obtain ⟨blocked, hblock, h⟩ := bind_eq_ok.1 h
  obtain ⟨threads, hthreads, h⟩ := bind_eq_ok.1 h
  obtain rfl := pure_eq_ok.1 h
  exact ⟨kerneled, blocked, size_pos_of_checkSizes hsizes, hkernel, hblock, hthreads, rfl, rfl⟩

/-- A planned nest is a reshaped form of the loops it was planned from. -/
theorem plan_reshapes {settings : Settings} {kernel : KernelTag} {element : ElementType}
    {loops : List Loop} {nest : Nest} (hunpacked : ∀ loop ∈ loops, loop.IsUnpacked)
    (h : Nest.plan settings kernel element loops = .ok nest) : Reshapes loops nest.loops := by
  obtain ⟨kerneled, blocked, hstages⟩ := exists_planStages h
  have hplain : Plain loops := fun loop hloop =>
    ⟨hstages.sizes loop hloop, hunpacked loop hloop⟩
  obtain ⟨hnormal, pnormal⟩ := sortAndFuse_reshapes (hplain.filter _ : Plain (dropUnits loops))
  have hinstall := Reshapes.trans (.trans (dropUnits_reshapes loops) hnormal)
    (.trans (installKernel_reshapes pnormal hstages.install) (dropUnits_reshapes _))
  have hsound := hinstall.forall_of_stable stable_isSound fun loop hloop =>
    isSound_of_isPlain (hplain loop hloop)
  rw [hstages.loops]
  exact .trans hinstall (block_reshapes hsound hstages.block)

end LoopNest
