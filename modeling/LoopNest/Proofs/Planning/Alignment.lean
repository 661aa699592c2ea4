import LoopNest.Proofs.Kernel.Contiguity
import LoopNest.Proofs.Planning.Choices
import LoopNest.Proofs.Planning.Product

/-!
# Strides of the chosen loops

In each of its blocks a kernel needs a direction that is contiguous, with a stride of one element or
of one vector of packed lanes (`Contiguous`). Where `candidates` finds no such loop for a slot, it
packs the input, and the packing buffer provides the direction.

`Candidates.Follows` says how the choice follows the innermost loops of the operands; every pick
keeps it. `candidates_aligned` reads off what the kernel loops are built on: the M loop fits the
output, an input that is not packed has a contiguous loop in one of its slots, and the loops of the
slots that count are not the further packed ones.
-/

namespace LoopNest

/-! ## Behind the packed lanes -/

/-- The innermost loops behind a lane loop: contiguous in their input, one vector of lanes apart in
the output. -/
structure Innermost.Behind (inner : Innermost) (lane : Option Found) : Prop where
  left : ∀ f, inner.left = some f → Contiguous (Found.size lane) f.loop.strides.left
  right : ∀ f, inner.right = some f → Contiguous (Found.size lane) f.loop.strides.right
  out : ∀ f, inner.out = some f → f.loop.strides.out = Found.size lane

/-- The lane loop is innermost in neither input. -/
structure Innermost.Avoids (inner : Innermost) (lane : Option Found) : Prop where
  left : ∀ f, inner.left = some f → lane ≠ some f
  right : ∀ f, inner.right = some f → lane ≠ some f

/-- If lanes need stride one in the output only, those that have it there do not have it in an
input. -/
def LanesApart (support : PackedSupport) (loops : List Loop) : Prop :=
  support = .outStrideOne → ∀ loop ∈ loops, loop.axis = .c → loop.strides.out = 1 →
    loop.strides.left ≠ 1 ∧ loop.strides.right ≠ 1

/-- The innermost loops stand in the list and have the strides that were asked for. -/
theorem innermost_spec {loops : List Loop} {left right out : Int} {f : Found} :
    ((innermost loops left right out).left = some f → f.In loops ∧ f.loop.strides.left = left) ∧
      ((innermost loops left right out).right = some f →
        f.In loops ∧ f.loop.strides.right = right) ∧
      ((innermost loops left right out).out = some f → f.In loops ∧ f.loop.strides.out = out) := by
  have hspec : ∀ (stride : Loop → Int) (wanted : Int),
      lastWith loops (fun loop => stride loop = wanted) = some f →
        f.In loops ∧ stride f.loop = wanted := by
    intro stride wanted hf
    obtain ⟨hin, hstride⟩ := lastWith_spec hf
    exact ⟨hin, of_decide_eq_true hstride⟩
  exact ⟨hspec (fun loop => loop.strides.left) left, hspec (fun loop => loop.strides.right) right,
    hspec (fun loop => loop.strides.out) out⟩

/-- A loop comes right behind the lanes, or has stride one. -/
theorem contiguous_of_eq_ite {behind : Bool} {lanes stride : Int}
    (h : stride = if behind then lanes else 1) : Contiguous lanes stride := by
  split at h
  · exact .inl h
  · exact .inr h

/-- If lanes have stride one everywhere, the search goes on behind the lane loop where that is
innermost, and finds another loop where it is not. -/
theorem ne_of_lastWith {loops : List Loop} (stride : Loop → Int) {lane : Found}
    {everywhere : Bool} (hsize : 2 ≤ lane.loop.size)
    (hapart : everywhere = false → stride lane.loop ≠ 1) {f : Found}
    (hf : lastWith loops (fun loop => stride loop =
      if everywhere && !(everywhere && lastWith loops (fun loop => stride loop = 1) ≠ some lane)
      then lane.loop.size else 1) = some f) : some lane ≠ some f := by
  have hstride := of_decide_eq_true (lastWith_spec hf).2
  intro heq
  obtain rfl := Option.some.inj heq
  cases everywhere with
  | false =>
      simp only [Bool.false_and, Bool.false_eq_true, if_false] at hstride
      exact hapart rfl hstride
  | true =>
      by_cases hlane : lastWith loops (fun loop => stride loop = 1) = some lane
      · have hone : stride lane.loop = 1 := of_decide_eq_true (lastWith_spec hlane).2
        simp only [hlane, ne_eq, not_true_eq_false, decide_false, Bool.and_false, Bool.not_false,
          Bool.and_true, if_true] at hstride
        omega
      · simp only [hlane, ne_eq, not_false_eq_true, decide_true, Bool.and_true, Bool.not_true,
          Bool.and_false, Bool.false_eq_true, if_false] at hf

/-- The loop that is left out of a search is not found. -/
theorem lightest_ne_exclude {loops : List Loop} {axis : Axis} {f : Found} :
    lightest loops axis (some f.index) ≠ some f := by
  intro h
  have hkept := (List.mem_filter.1 (mem_of_lightest h)).2
  simp at hkept

namespace Candidates

/-- No M loop has been chosen, and no input is transposed. -/
structure Upright (chosen : Candidates) : Prop where
  m : chosen.slots.m = none
  transposedLeft : chosen.transposedLeft = false
  transposedRight : chosen.transposedRight = false

/-- No K loop, no batch loop and no further packed loop have been chosen. -/
structure Unreduced (chosen : Candidates) : Prop where
  br : chosen.slots.br = none
  k : chosen.slots.k = none
  extraLeft : chosen.extraLeft = none
  extraRight : chosen.extraRight = none

/-- Choosing packed lanes decides on nothing else. -/
theorem lanes_fresh (support : PackedSupport) (loops : List Loop) :
    (lanes support loops).1.Upright ∧ (lanes support loops).1.Unreduced := by
  unfold lanes
  dsimp only
  split
  · split
    · exact ⟨⟨rfl, rfl, rfl⟩, ⟨rfl, rfl, rfl, rfl⟩⟩
    · exact ⟨⟨rfl, rfl, rfl⟩, ⟨rfl, rfl, rfl, rfl⟩⟩
  · exact ⟨⟨rfl, rfl, rfl⟩, ⟨rfl, rfl, rfl, rfl⟩⟩

/-- The search goes on behind the lanes, if there are any. -/
theorem lanes_behind (support : PackedSupport) (loops : List Loop) :
    (lanes support loops).2.Behind (lanes support loops).1.slots.c := by
  have hplain : (innermost loops 1 1 1).Behind none := by
    refine ⟨fun f hf => .inr ?_, fun f hf => .inr ?_, fun f hf => ?_⟩
    · exact (innermost_spec.1 hf).2
    · exact (innermost_spec.2.1 hf).2
    · exact (innermost_spec.2.2 hf).2
  unfold lanes
  dsimp only
  split
  · split
    · refine ⟨fun f hf => ?_, fun f hf => ?_, fun f hf => ?_⟩
      · exact contiguous_of_eq_ite (innermost_spec.1 hf).2
      · exact contiguous_of_eq_ite (innermost_spec.2.1 hf).2
      · exact (innermost_spec.2.2 hf).2
    · exact hplain
  · exact hplain

/-- Behind lanes that have stride one everywhere, or in no input, another loop is innermost. -/
theorem lanes_avoids {support : PackedSupport} {loops : List Loop}
    (hsize : ∀ loop ∈ loops, 2 ≤ loop.size) (hlanes : LanesApart support loops) :
    (lanes support loops).2.Avoids (lanes support loops).1.slots.c := by
  unfold lanes
  dsimp only
  split
  · rename_i lane hlane
    split
    · rename_i hpacked
      obtain ⟨hin, hout⟩ := innermost_spec.2.2 hlane
      have htwo := hsize lane.loop hin.mem
      -- such lanes have stride one in the output only
      have hapart : decide (support = .allStrideOne) = false →
          lane.loop.strides.left ≠ 1 ∧ lane.loop.strides.right ≠ 1 := by
        intro hnot
        apply hlanes _ lane.loop hin.mem hpacked.2 hout
        cases support with
        | none => exact absurd rfl hpacked.1
        | allStrideOne => simp at hnot
        | outStrideOne => rfl
      constructor
      · intro f hf
        exact ne_of_lastWith (fun loop => loop.strides.left) htwo
          (fun hnot => (hapart hnot).1) hf
      · intro f hf
        exact ne_of_lastWith (fun loop => loop.strides.right) htwo
          (fun hnot => (hapart hnot).2) hf
    · exact ⟨by simp, by simp⟩
  · exact ⟨by simp, by simp⟩

/-! ## Following the innermost loops -/

variable {chosen : Candidates} {loops : List Loop} {inner : Innermost}

/-- The M loop is the one innermost in the output. The left input is transposed exactly if another
loop is innermost there. -/
structure FollowsOut (chosen : Candidates) (inner : Innermost) : Prop where
  m : ∀ f, chosen.slots.m = some f →
    inner.out = some f ∧ (chosen.transposedLeft = false → inner.left = some f)
  transposed : chosen.transposedLeft = true → chosen.slots.m ≠ inner.left

/-- If the right input is transposed, the N loop is innermost there; if not, no N loop is. -/
structure FollowsRight (chosen : Candidates) (inner : Innermost) : Prop where
  transposed : chosen.transposedRight = true →
    ∃ f, chosen.slots.n = some f ∧ inner.right = some f
  straight : chosen.transposedRight = false → Found.hasAxis inner.right .n = false

/-- A slot that provides a contiguous direction of the right block: the N slot, an empty K slot, or
a K slot with a loop that no other part of the choice takes. -/
def Provides (chosen : Candidates) (inner : Innermost) : Prop :=
  (∃ f, chosen.slots.n = some f ∧ inner.right = some f) ∨ chosen.slots.k = none ∨
    ∃ f, chosen.slots.k = some f ∧ inner.right = some f ∧ chosen.extraLeft ≠ some f ∧
      chosen.slots.br ≠ some f

/-- The choice follows the innermost loops. A further packed loop is innermost in its input and does
not stand in the slot of M or N. -/
structure Follows (chosen : Candidates) (inner : Innermost) : Prop where
  m : ∀ f, chosen.slots.m = some f →
    inner.out = some f ∧ (chosen.transposedLeft = false → inner.left = some f)
  extraLeft : ∀ f, chosen.extraLeft = some f → inner.left = some f ∧ chosen.slots.m ≠ some f
  extraRight : ∀ f, chosen.extraRight = some f →
    inner.right = some f ∧ f.loop.axis ≠ .n ∧ chosen.packRight = true
  right : chosen.packRight = false → chosen.Provides inner

theorem pickM_followsOut (h : chosen.Upright) : (chosen.pickM inner).FollowsOut inner ∧
    (chosen.pickM inner).transposedRight = false := by
  unfold pickM
  split
  · refine ⟨⟨fun f hf => ⟨hf, fun hstraight => ?_⟩, fun htransposed => ?_⟩, h.transposedRight⟩
    · have heq : inner.out = inner.left := by simpa using hstraight
      rw [← heq]
      exact hf
    · simpa using htransposed
  · refine ⟨⟨fun f hf => ?_, fun htransposed => ?_⟩, h.transposedRight⟩
    · rw [h.m] at hf
      cases hf
    · rw [h.transposedLeft] at htransposed
      cases htransposed

theorem pickM_unreduced (h : chosen.Unreduced) : (chosen.pickM inner).Unreduced := by
  unfold pickM
  split
  · exact { h with }
  · exact h

theorem pickN_followsOut (h : chosen.FollowsOut inner) :
    (chosen.pickN loops inner).FollowsOut inner := by
  unfold pickN
  split
  · exact { h with }
  · exact { h with }

theorem pickN_followsRight (h : chosen.transposedRight = false) :
    (chosen.pickN loops inner).FollowsRight inner := by
  unfold pickN
  split
  · rename_i haxis
    obtain ⟨f, hf, -⟩ := hasAxis_eq_true.1 haxis
    exact ⟨fun _ => ⟨f, hf, hf⟩, fun hstraight => absurd hstraight (by simp)⟩
  · rename_i haxis
    refine ⟨fun htransposed => ?_, fun _ => by simpa using haxis⟩
    exact absurd (htransposed.symm.trans h) (by simp)

theorem pickN_unreduced (h : chosen.Unreduced) : (chosen.pickN loops inner).Unreduced := by
  unfold pickN
  split
  · exact { h with }
  · exact { h with }

/-- A loop innermost in the left input is not the M loop if that input is transposed. -/
theorem FollowsOut.ne_m (h : chosen.FollowsOut inner) (htransposed : chosen.transposedLeft = true)
    {f : Found} (hf : inner.left = some f) : chosen.slots.m ≠ some f := by
  rw [← hf]
  exact h.transposed htransposed

/-- A loop innermost in the right input is no N loop unless that input is transposed. -/
theorem FollowsRight.axis_ne_n (h : chosen.FollowsRight inner)
    (hstraight : chosen.transposedRight = false) {f : Found} (hf : inner.right = some f) :
    f.loop.axis ≠ .n := by
  intro haxis
  have hnot := h.straight hstraight
  rw [hasAxis_eq_true.2 ⟨f, hf, haxis⟩] at hnot
  cases hnot

/-- A right input that is transposed is read along its N loop. One that is not is packed along its
innermost loop. -/
theorem FollowsRight.follows (h : chosen.FollowsRight inner) (hout : chosen.FollowsOut inner)
    (hleft : ∀ f, chosen.extraLeft = some f → inner.left = some f ∧ chosen.slots.m ≠ some f)
    (hright : chosen.extraRight = none) :
    (if chosen.transposedRight then chosen else chosen.withExtraRight inner).Follows inner := by
  split
  · rename_i htransposed
    refine ⟨hout.m, hleft, fun f hf => ?_, fun _ => .inl (h.transposed htransposed)⟩
    rw [hright] at hf
    cases hf
  · rename_i hstraight
    refine ⟨hout.m, hleft, fun f hf => ⟨hf, ?_, rfl⟩, fun hpack => ?_⟩
    · exact h.axis_ne_n (by simpa using hstraight) hf
    · exact absurd hpack (by simp [withExtraRight])

/-- Whichever way the K loop is picked, an input that cannot be read contiguously is packed. -/
theorem pickK_follows (hout : chosen.FollowsOut inner) (hright : chosen.FollowsRight inner)
    (h : chosen.Unreduced) : (chosen.pickK loops inner).Follows inner := by
  have hnoLeft : ∀ f, chosen.extraLeft = some f → inner.left = some f ∧ chosen.slots.m ≠ some f := by
    intro f hf
    rw [h.extraLeft] at hf
    cases hf
  have hnoRight : ∀ f, chosen.extraRight = some f →
      inner.right = some f ∧ f.loop.axis ≠ .n ∧ chosen.packRight = true := by
    intro f hf
    rw [h.extraRight] at hf
    cases hf
  -- the slot of K has no influence on how M and N follow
  have houtK : ∀ k, Candidates.FollowsOut { chosen with slots := { chosen.slots with k := k } }
      inner := fun k => { hout with }
  have hrightK : ∀ k, Candidates.FollowsRight { chosen with slots := { chosen.slots with k := k } }
      inner := fun k => { hright with }
  unfold pickK
  split
  · -- K is innermost in the right input, so that is read as it is
    rename_i haxis
    obtain ⟨k, hk, -⟩ := hasAxis_eq_true.1 (Bool.and_eq_true_iff.1 haxis).2
    dsimp only
    split
    · rename_i hother
      rw [Bool.and_eq_true_iff, decide_eq_true_eq] at hother
      refine ⟨hout.m, fun f hf => ⟨hf, hout.ne_m hother.1 hf⟩, hnoRight, fun _ => .inr (.inr ?_)⟩
      refine ⟨k, hk, hk, fun heq => hother.2 ?_, by simp [withExtraLeft, h.br]⟩
      exact heq.trans hk.symm
    · exact ⟨hout.m, hnoLeft, hnoRight, fun _ =>
        .inr (.inr ⟨k, hk, hk, by simp [h.extraLeft], by simp [h.br]⟩)⟩
  · split
    · -- K is innermost in the transposed left input
      exact (hrightK _).follows (houtK _) hnoLeft h.extraRight
    · split
      · exact ⟨hout.m, hnoLeft, hnoRight, fun _ => .inr (.inl h.k)⟩
      · -- neither input has a K loop innermost, so each is packed unless it is read along M or N
        dsimp only
        split
        · rename_i hleft
          have hpacked : ∀ f, inner.left = some f →
              inner.left = some f ∧ chosen.slots.m ≠ some f := fun f hf => ⟨hf, hout.ne_m hleft hf⟩
          exact FollowsRight.follows { hrightK _ with } { houtK _ with } hpacked h.extraRight
        · exact (hrightK _).follows (houtK _) hnoLeft h.extraRight

/-- A further packed loop that becomes the batch loop is no longer packed in its own right, and the
batch loop is not the K loop. -/
theorem pickBatch_follows (h : chosen.Follows inner) (batchReduce : Bool) (loops : List Loop) :
    (chosen.pickBatch batchReduce loops).Follows inner := by
  have hnoLeft : ∀ f, (none : Option Found) = some f →
      inner.left = some f ∧ chosen.slots.m ≠ some f := by
    intro f hf
    cases hf
  have hnoRight : ∀ f, (none : Option Found) = some f →
      inner.right = some f ∧ f.loop.axis ≠ .n ∧ chosen.packRight = true := by
    intro f hf
    cases hf
  have hpicks := picksBatch_pickBatch chosen batchReduce loops
  generalize chosen.pickBatch batchReduce loops = picked at hpicks ⊢
  cases hpicks with
  | none => exact h
  | left _ hf haxis =>
      -- the loop that provided the direction cannot be the one that was packed further
      refine ⟨h.m, hnoLeft, h.extraRight, fun hpack => ?_⟩
      rcases h.right hpack with hn | hk | ⟨f, hf, hright, hextra, -⟩
      · exact .inl hn
      · exact .inr (.inl hk)
      · exact .inr (.inr ⟨f, hf, hright, by simp, hextra⟩)
  | right _ hf haxis =>
      refine ⟨h.m, h.extraLeft, hnoRight, fun hpack => ?_⟩
      exact absurd (hpack.symm.trans (h.extraRight _ hf).2.2) (by simp)
  | @lightest k _ hk =>
      refine ⟨h.m, h.extraLeft, h.extraRight, fun hpack => ?_⟩
      rcases h.right hpack with hn | hnone | ⟨f, hf, hright, hextra, -⟩
      · exact .inl hn
      · exact .inr (.inl hnone)
      · obtain rfl := Option.some.inj (hk.symm.trans hf)
        exact .inr (.inr ⟨k, hf, hright, hextra, lightest_ne_exclude⟩)

theorem pickBatch_lane (chosen : Candidates) (batchReduce : Bool) (loops : List Loop) :
    (chosen.pickBatch batchReduce loops).slots.c = chosen.slots.c := by
  have hpicks := picksBatch_pickBatch chosen batchReduce loops
  generalize chosen.pickBatch batchReduce loops = picked at hpicks ⊢
  cases hpicks with
  | none => rfl
  | left => rfl
  | right => rfl
  | lightest => rfl

/-- Packing against aliasing packs a transposed left input, and unpacks none. -/
theorem packAliasing_follows {aliasing : Int} {result : Candidates} (h : chosen.Follows inner)
    (hresult : chosen.packAliasing aliasing = .ok result) :
    result.Follows inner ∧ (result.transposedLeft = true → result.packLeft = true) := by
  obtain ⟨left, right, rfl⟩ := packAliasing_eq_ok hresult
  refine ⟨⟨h.m, h.extraLeft, fun f hf => ?_, fun hpack => ?_⟩, fun htransposed => ?_⟩
  · obtain ⟨hright, haxis, hpacked⟩ := h.extraRight f hf
    refine ⟨hright, haxis, ?_⟩
    dsimp only
    rw [hpacked, Bool.true_or]
  · rw [Bool.or_eq_false_iff] at hpack
    exact h.right hpack.1
  · dsimp only at htransposed ⊢
    rw [htransposed, Bool.or_true]

end Candidates

/-! ## Alignment of the choice -/

/-- The lane loop is no further packed loop, so that it is not cut before it becomes the lanes. -/
def Candidates.LanesWhole (chosen : Candidates) : Prop :=
  ∀ f, chosen.slots.c = some f → chosen.extraLeft ≠ some f ∧ chosen.extraRight ≠ some f

/-- What the kernel loops are built on. The M loop fits the output, and the left input unless that is
packed; the right input is packed, or a slot provides a contiguous direction; and no slot that
counts holds a further packed loop. -/
structure Candidates.Aligned (chosen : Candidates) : Prop where
  m : ∀ f, chosen.slots.m = some f → f.loop.strides.out = chosen.sizes.c ∧
    (chosen.packLeft = false → Contiguous chosen.sizes.c f.loop.strides.left)
  right : chosen.packRight = false →
    (∃ f, chosen.slots.n = some f ∧ Contiguous chosen.sizes.c f.loop.strides.right) ∨
      chosen.slots.k = none ∨
        ∃ f, chosen.slots.k = some f ∧ Contiguous chosen.sizes.c f.loop.strides.right ∧
          chosen.extraLeft ≠ some f ∧ chosen.extraRight ≠ some f ∧ chosen.slots.br ≠ some f
  extra : ∀ f, chosen.extraLeft = some f ∨ chosen.extraRight = some f →
    chosen.slots.c ≠ some f ∧ chosen.slots.m ≠ some f ∧ chosen.slots.n ≠ some f

/-- A choice that follows the innermost loops behind whole lanes is aligned, once a transposed left
input is packed. -/
theorem Candidates.Follows.aligned {chosen : Candidates} {inner : Innermost} {loops : List Loop}
    (h : chosen.Follows inner) (hbehind : inner.Behind chosen.slots.c) (hsits : chosen.Sits loops)
    (hlanes : 1 ≤ chosen.sizes.c) (hwhole : chosen.LanesWhole)
    (hstrides : ∀ loop ∈ loops, loop.axis.Multiplies loop.strides)
    (htransposed : chosen.transposedLeft = true → chosen.packLeft = true) : chosen.Aligned := by
  refine ⟨fun f hf => ?_, fun hpack => ?_, fun f hf => ?_⟩
  · obtain ⟨hout, hleft⟩ := h.m f hf
    refine ⟨hbehind.out f hout, fun hpack => hbehind.left f (hleft ?_)⟩
    rw [← Bool.not_eq_true]
    intro htrue
    rw [htransposed htrue] at hpack
    cases hpack
  · rcases h.right hpack with ⟨f, hf, hright⟩ | hnone | ⟨f, hf, hright, hextra, hbr⟩
    · exact .inl ⟨f, hf, hbehind.right f hright⟩
    · exact .inr (.inl hnone)
    · refine .inr (.inr ⟨f, hf, hbehind.right f hright, hextra, fun heq => ?_, hbr⟩)
      exact absurd (hpack.symm.trans (h.extraRight f heq).2.2) (by simp)
  · -- a further packed loop moves through its input, so it has another axis than M or N
    rcases hf with hf | hf
    · obtain ⟨hleft, hm⟩ := h.extraLeft f hf
      refine ⟨fun hc => (hwhole f hc).1 hf, hm, fun hn => ?_⟩
      obtain ⟨hin, haxis⟩ := hsits.n f hn
      have hzero := (hstrides f.loop hin.mem).n haxis
      have hpos := (hbehind.left f hleft).pos hlanes
      omega
    · obtain ⟨hright, haxis, -⟩ := h.extraRight f hf
      refine ⟨fun hc => (hwhole f hc).2 hf, fun hm => ?_, fun hn => haxis (hsits.n f hn).2⟩
      obtain ⟨hin, haxisM⟩ := hsits.m f hm
      have hzero := (hstrides f.loop hin.mem).m haxisM
      have hpos := (hbehind.right f hright).pos hlanes
      omega

/-- A slot has at least one iteration, whether it is empty or not. -/
theorem one_le_size_of_foundFor {loops : List Loop} {axis : Axis} {found : Option Found}
    (hsize : ∀ loop ∈ loops, 2 ≤ loop.size) (h : FoundFor loops axis found) :
    1 ≤ Found.size found := by
  cases found with
  | none => exact Int.le_refl 1
  | some f =>
      have htwo := hsize f.loop (h f rfl).1.mem
      show 1 ≤ f.loop.size
      omega

/-- The candidates follow the innermost loops behind the lanes picked first, and a transposed left
input is packed. -/
theorem candidates_follows {settings : Settings} {loops : List Loop} {chosen : Candidates}
    (h : candidates settings loops = .ok chosen) :
    chosen.Follows (Candidates.lanes settings.packedSupport loops).2 ∧
      (chosen.transposedLeft = true → chosen.packLeft = true) ∧
      chosen.slots.c = (Candidates.lanes settings.packedSupport loops).1.slots.c := by
  obtain ⟨hupright, hunreduced⟩ := Candidates.lanes_fresh settings.packedSupport loops
  have hlane := (Candidates.pickMNK_slots (Candidates.lanes settings.packedSupport loops).1 loops
    (Candidates.lanes settings.packedSupport loops).2).2.1
  unfold candidates at h
  generalize Candidates.lanes settings.packedSupport loops = first at *
  obtain ⟨lanes, inner⟩ := first
  dsimp only at *
  -- each pick in turn, from the lanes on
  have hm : (lanes.pickM inner).FollowsOut inner ∧ (lanes.pickM inner).transposedRight = false :=
    Candidates.pickM_followsOut hupright
  have hk : (((lanes.pickM inner).pickN loops inner).pickK loops inner).Follows inner :=
    Candidates.pickK_follows (Candidates.pickN_followsOut hm.1) (Candidates.pickN_followsRight hm.2)
      (Candidates.pickN_unreduced (Candidates.pickM_unreduced hunreduced))
  have hbatch := Candidates.pickBatch_follows hk settings.batchReduce loops
  obtain ⟨hfollows, htransposed⟩ := Candidates.packAliasing_follows hbatch h
  refine ⟨hfollows, htransposed, ?_⟩
  obtain ⟨left, right, rfl⟩ := Candidates.packAliasing_eq_ok h
  dsimp only
  rw [Candidates.pickBatch_lane, hlane]

/-- The candidates of a list of longer loops with the strides of a product are aligned, if the lanes
are whole. -/
theorem candidates_aligned {settings : Settings} {loops : List Loop} {chosen : Candidates}
    (hsize : ∀ loop ∈ loops, 2 ≤ loop.size)
    (hstrides : ∀ loop ∈ loops, loop.axis.Multiplies loop.strides) (hwhole : chosen.LanesWhole)
    (h : candidates settings loops = .ok chosen) : chosen.Aligned := by
  have hsits := (candidates_spec h).1
  obtain ⟨hfollows, htransposed, hlane⟩ := candidates_follows h
  apply hfollows.aligned _ hsits (one_le_size_of_foundFor hsize hsits.c) hwhole hstrides htransposed
  rw [hlane]
  exact Candidates.lanes_behind settings.packedSupport loops

/-- Lanes are whole if they have stride one everywhere or in the output only. -/
theorem lanesWhole_of_lanesApart {settings : Settings} {loops : List Loop} {chosen : Candidates}
    (hsize : ∀ loop ∈ loops, 2 ≤ loop.size) (hlanes : LanesApart settings.packedSupport loops)
    (h : candidates settings loops = .ok chosen) : chosen.LanesWhole := by
  obtain ⟨hfollows, -, hlane⟩ := candidates_follows h
  have havoids := Candidates.lanes_avoids hsize hlanes
  rw [← hlane] at havoids
  intro f hf
  constructor
  · intro hextra
    exact havoids.left f (hfollows.extraLeft f hextra).1 hf
  · intro hextra
    exact havoids.right f (hfollows.extraRight f hextra).1 hf

end LoopNest
