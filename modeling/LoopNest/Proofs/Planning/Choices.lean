import LoopNest.Planning.KernelLoops
import LoopNest.Proofs.Planning.Passes

/-!
# The chosen kernel loops

`candidates` fills the slots of a kernel step by step. Whatever it puts into a slot stands in the
loop list at the index that was remembered, and has the axis of the slot (`Candidates.Sits`). The
batch slot stays empty unless kernels reduce over batches, and where there are packed lanes
(`Candidates.Batches`). Each step is shown to keep these two facts; `candidates_spec` puts the steps
together.

`targetSizes_spec` says which targets exceed one.
-/

namespace LoopNest

/-! ## Searches -/

/-- A found loop stands in a list at its index. -/
def Found.In (found : Found) (loops : List Loop) : Prop := loops[found.index]? = some found.loop

namespace Found.In

variable {found found' : Found} {loops : List Loop}

theorem mem (h : found.In loops) : found.loop ∈ loops := List.mem_of_getElem? h

theorem eq_of_index (h : found.In loops) (h' : found'.In loops) (hindex : found.index = found'.index) :
    found = found' := by
  have hloop : some found.loop = some found'.loop := by
    rw [← h, ← h', hindex]
  cases found
  cases found'
  simp_all

end Found.In

theorem lastWith_spec {loops : List Loop} {p : Loop → Bool} {found : Found}
    (h : lastWith loops p = some found) : found.In loops ∧ p found.loop = true :=
  ⟨mem_indexed (List.mem_reverse.1 (List.mem_of_find?_eq_some h)), by
    simpa using List.find?_some h⟩

theorem hasAxis_eq_true {found : Option Found} {axis : Axis} :
    Found.hasAxis found axis = true ↔ ∃ f, found = some f ∧ f.loop.axis = axis := by
  cases found with
  | none => simp [Found.hasAxis]
  | some f => simp [Found.hasAxis]

/-- What is found for a slot stands in the list and has the axis of the slot. -/
def FoundFor (loops : List Loop) (axis : Axis) (found : Option Found) : Prop :=
  ∀ f, found = some f → f.In loops ∧ f.loop.axis = axis

theorem foundFor_none (loops : List Loop) (axis : Axis) : FoundFor loops axis none := by
  intro f hf
  cases hf

theorem foundFor_lightest (loops : List Loop) (axis : Axis) (exclude : Option Nat) :
    FoundFor loops axis (lightest loops axis exclude) := by
  intro f hf
  exact lightest_spec hf

/-- The innermost loops of all streams stand in the list. -/
structure Innermost.Sits (inner : Innermost) (loops : List Loop) : Prop where
  left : ∀ f, inner.left = some f → f.In loops
  right : ∀ f, inner.right = some f → f.In loops
  out : ∀ f, inner.out = some f → f.In loops

theorem innermost_sits (loops : List Loop) (left right out : Int) :
    (innermost loops left right out).Sits loops where
  left _ hf := (lastWith_spec (p := fun loop => loop.strides.left = left) hf).1
  right _ hf := (lastWith_spec (p := fun loop => loop.strides.right = right) hf).1
  out _ hf := (lastWith_spec (p := fun loop => loop.strides.out = out) hf).1

theorem foundFor_of_hasAxis {loops : List Loop} {axis : Axis} {found : Option Found}
    (hin : ∀ f, found = some f → f.In loops) (haxis : Found.hasAxis found axis = true) :
    FoundFor loops axis found := by
  intro f hf
  obtain ⟨f', hf', hloop⟩ := hasAxis_eq_true.1 haxis
  obtain rfl := Option.some.inj (hf.symm.trans hf')
  exact ⟨hin f hf, hloop⟩

/-! ## Steps of the choice -/

/-- The chosen loops stand in the list, each with the axis of its slot. -/
structure Candidates.Sits (chosen : Candidates) (loops : List Loop) : Prop where
  br : FoundFor loops .k chosen.slots.br
  c : FoundFor loops .c chosen.slots.c
  m : FoundFor loops .m chosen.slots.m
  n : FoundFor loops .n chosen.slots.n
  k : FoundFor loops .k chosen.slots.k
  extraLeft : ∀ f, chosen.extraLeft = some f → f.In loops
  extraRight : ∀ f, chosen.extraRight = some f → f.In loops

/-- No batch loop has been chosen. -/
structure Candidates.Unbatched (chosen : Candidates) : Prop where
  br : chosen.slots.br = none
  required : chosen.batchRequired = false

/-- The batch slot is filled if it has to be, and stays empty if kernels do not reduce over batches or
have packed lanes. -/
structure Candidates.Batches (chosen : Candidates) (batchReduce : Bool) : Prop where
  required : chosen.batchRequired = true → chosen.slots.br.isSome = true
  idle : batchReduce = false ∨ 1 < Found.size chosen.slots.c → chosen.Unbatched

namespace Candidates

variable {chosen : Candidates} {loops : List Loop} {inner : Innermost}

theorem lanes_spec (support : PackedSupport) (loops : List Loop) :
    ((lanes support loops).1.Sits loops ∧ (lanes support loops).1.Unbatched) ∧
      (lanes support loops).2.Sits loops := by
  have hnone : ({} : Candidates).Sits loops ∧ ({} : Candidates).Unbatched := by
    refine ⟨⟨foundFor_none _ _, foundFor_none _ _, foundFor_none _ _, foundFor_none _ _,
      foundFor_none _ _, ?_, ?_⟩, rfl, rfl⟩ <;> intro f hf <;> cases hf
  have hinner := innermost_sits loops 1 1 1
  unfold lanes
  dsimp only
  split
  · rename_i found hfound
    split
    · rename_i hlane
      refine ⟨⟨{ hnone.1 with c := fun f hf => ?_ }, rfl, rfl⟩, innermost_sits _ _ _ _⟩
      obtain rfl := Option.some.inj hf
      exact ⟨hinner.out _ hfound, hlane.2⟩
    · exact ⟨hnone, hinner⟩
  · exact ⟨hnone, hinner⟩

theorem pickM_sits (h : chosen.Sits loops) (hinner : inner.Sits loops) :
    (chosen.pickM inner).Sits loops := by
  unfold pickM
  split
  · rename_i hm
    exact { h with m := foundFor_of_hasAxis hinner.out hm }
  · exact h

theorem pickN_sits (h : chosen.Sits loops) (hinner : inner.Sits loops) :
    (chosen.pickN loops inner).Sits loops := by
  unfold pickN
  split
  · rename_i hn
    exact { h with n := foundFor_of_hasAxis hinner.right hn }
  · exact { h with n := foundFor_lightest loops .n none }

theorem withExtraLeft_sits (h : chosen.Sits loops) (hinner : inner.Sits loops) :
    (chosen.withExtraLeft inner).Sits loops :=
  { h with extraLeft := hinner.left }

theorem withExtraRight_sits (h : chosen.Sits loops) (hinner : inner.Sits loops) :
    (chosen.withExtraRight inner).Sits loops :=
  { h with extraRight := hinner.right }

theorem pickK_sits (h : chosen.Sits loops) (hinner : inner.Sits loops) :
    (chosen.pickK loops inner).Sits loops := by
  have hk : ∀ {k : Option Found}, FoundFor loops .k k →
      ({ chosen with slots := { chosen.slots with k := k } } : Candidates).Sits loops :=
    fun hk => { h with k := hk }
  -- K comes from an innermost loop, else from the lightest loop of its axis
  unfold pickK
  split
  · rename_i haxis
    have hright := hk (foundFor_of_hasAxis hinner.right (Bool.and_eq_true_iff.1 haxis).2)
    dsimp only
    split
    · exact withExtraLeft_sits hright hinner
    · exact hright
  · split
    · rename_i haxis
      have hleft := hk (foundFor_of_hasAxis hinner.left (Bool.and_eq_true_iff.1 haxis).2)
      dsimp only
      split
      · exact hleft
      · exact withExtraRight_sits hleft hinner
    · split
      · exact h
      · rename_i found hfound
        have hlightest := hk (hfound ▸ foundFor_lightest loops .k none)
        dsimp only
        split
        · split
          · exact withExtraLeft_sits hlightest hinner
          · exact withExtraRight_sits (withExtraLeft_sits hlightest hinner) hinner
        · split
          · exact hlightest
          · exact withExtraRight_sits hlightest hinner

/-- Choosing M, N and K loops does not touch the batch loop and the packed lanes. -/
theorem pickMNK_slots (chosen : Candidates) (loops : List Loop) (inner : Innermost) :
    (((chosen.pickM inner).pickN loops inner).pickK loops inner).slots.br = chosen.slots.br ∧
      (((chosen.pickM inner).pickN loops inner).pickK loops inner).slots.c = chosen.slots.c ∧
      (((chosen.pickM inner).pickN loops inner).pickK loops inner).batchRequired =
        chosen.batchRequired := by
  have hm : (chosen.pickM inner).slots.br = chosen.slots.br ∧
      (chosen.pickM inner).slots.c = chosen.slots.c ∧
      (chosen.pickM inner).batchRequired = chosen.batchRequired := by
    unfold pickM
    split <;> exact ⟨rfl, rfl, rfl⟩
  have hn : ∀ chosen : Candidates, (chosen.pickN loops inner).slots.br = chosen.slots.br ∧
      (chosen.pickN loops inner).slots.c = chosen.slots.c ∧
      (chosen.pickN loops inner).batchRequired = chosen.batchRequired := by
    intro chosen
    unfold pickN
    split <;> exact ⟨rfl, rfl, rfl⟩
  have hk : ∀ chosen : Candidates, (chosen.pickK loops inner).slots.br = chosen.slots.br ∧
      (chosen.pickK loops inner).slots.c = chosen.slots.c ∧
      (chosen.pickK loops inner).batchRequired = chosen.batchRequired := by
    intro chosen
    unfold pickK withExtraLeft withExtraRight
    dsimp only
    split
    · split <;> exact ⟨rfl, rfl, rfl⟩
    · split
      · split <;> exact ⟨rfl, rfl, rfl⟩
      · split
        · exact ⟨rfl, rfl, rfl⟩
        · split <;> split <;> exact ⟨rfl, rfl, rfl⟩
  rw [(hk _).1, (hk _).2.1, (hk _).2.2, (hn _).1, (hn _).2.1, (hn _).2.2]
  exact hm

/-- How the batch loop is picked: not at all, from the further packed loops, or as the lightest K loop
besides the one in the K slot. -/
inductive PicksBatch (chosen : Candidates) (batchReduce : Bool) (loops : List Loop) :
    Candidates → Prop where
  | none (hnone : batchReduce = false ∨ 1 < Found.size chosen.slots.c ∨ chosen.slots.k = none) :
      PicksBatch chosen batchReduce loops chosen
  | left {f : Found} (hbusy : ¬(batchReduce = false ∨ 1 < Found.size chosen.slots.c))
      (hf : chosen.extraLeft = some f) (haxis : f.loop.axis = .k) :
      PicksBatch chosen batchReduce loops
        { chosen with
          slots := { chosen.slots with br := chosen.extraLeft }
          extraLeft := none
          batchRequired := true }
  | right {f : Found} (hbusy : ¬(batchReduce = false ∨ 1 < Found.size chosen.slots.c))
      (hf : chosen.extraRight = some f) (haxis : f.loop.axis = .k) :
      PicksBatch chosen batchReduce loops
        { chosen with
          slots := { chosen.slots with br := chosen.extraRight }
          extraRight := none
          batchRequired := true }
  | lightest {k : Found} (hbusy : ¬(batchReduce = false ∨ 1 < Found.size chosen.slots.c))
      (hk : chosen.slots.k = some k) :
      PicksBatch chosen batchReduce loops
        { chosen with
          slots := { chosen.slots with br := LoopNest.lightest loops .k (some k.index) } }

theorem picksBatch_pickBatch (chosen : Candidates) (batchReduce : Bool) (loops : List Loop) :
    chosen.PicksBatch batchReduce loops (chosen.pickBatch batchReduce loops) := by
  unfold pickBatch
  split
  · rename_i hbatch
    rw [Bool.and_eq_true_iff, decide_eq_true_eq] at hbatch
    have hbusy : ¬(batchReduce = false ∨ 1 < Found.size chosen.slots.c) := by
      rw [hbatch.1]
      simp [hbatch.2]
    split
    · rename_i hleft
      obtain ⟨f, hf, haxis⟩ := hasAxis_eq_true.1 hleft
      exact .left hbusy hf haxis
    split
    · rename_i hright
      obtain ⟨f, hf, haxis⟩ := hasAxis_eq_true.1 hright
      exact .right hbusy hf haxis
    split
    · rename_i k hk
      exact .lightest hbusy hk
    · rename_i hk
      exact .none (.inr (.inr hk))
  · rename_i hidle
    rw [Bool.and_eq_true_iff, decide_eq_true_eq, not_and_or, Bool.not_eq_true, not_le] at hidle
    exact .none (hidle.imp_right .inl)

theorem pickBatch_sits (h : chosen.Sits loops) (batchReduce : Bool) :
    (chosen.pickBatch batchReduce loops).Sits loops := by
  have hnone : ∀ f, (none : Option Found) = some f → f.In loops := by
    intro f hf
    cases hf
  have hpicks := picksBatch_pickBatch chosen batchReduce loops
  generalize chosen.pickBatch batchReduce loops = picked at hpicks ⊢
  cases hpicks with
  | none => exact h
  | left _ hf haxis =>
      exact { h with
        br := foundFor_of_hasAxis h.extraLeft (hasAxis_eq_true.2 ⟨_, hf, haxis⟩)
        extraLeft := hnone }
  | right _ hf haxis =>
      exact { h with
        br := foundFor_of_hasAxis h.extraRight (hasAxis_eq_true.2 ⟨_, hf, haxis⟩)
        extraRight := hnone }
  | lightest => exact { h with br := foundFor_lightest loops .k _ }

theorem pickBatch_batches (h : chosen.Unbatched) (batchReduce : Bool) (loops : List Loop) :
    (chosen.pickBatch batchReduce loops).Batches batchReduce := by
  have hfree : chosen.batchRequired = true → False := fun hrequired =>
    absurd (h.required.symm.trans hrequired) (by simp)
  have hpicks := picksBatch_pickBatch chosen batchReduce loops
  generalize chosen.pickBatch batchReduce loops = picked at hpicks ⊢
  cases hpicks with
  | none => exact ⟨fun hrequired => (hfree hrequired).elim, fun _ => h⟩
  | left hbusy hf => exact ⟨fun _ => by rw [hf]; rfl, fun hidle => absurd hidle hbusy⟩
  | right hbusy hf => exact ⟨fun _ => by rw [hf]; rfl, fun hidle => absurd hidle hbusy⟩
  | lightest hbusy =>
      exact ⟨fun hrequired => (hfree hrequired).elim, fun hidle => absurd hidle hbusy⟩

/-- Packing against aliasing decides on nothing but what is packed. -/
theorem packAliasing_eq_ok {aliasing : Int} {result : Candidates}
    (h : chosen.packAliasing aliasing = .ok result) :
    ∃ left right, result = { chosen with
      packLeft := chosen.packLeft || left || chosen.transposedLeft
      packRight := chosen.packRight || right } := by
  obtain ⟨kLeft, -, h⟩ := bind_eq_ok.1 h
  obtain ⟨mLeft, -, h⟩ := bind_eq_ok.1 h
  obtain ⟨kRight, -, h⟩ := bind_eq_ok.1 h
  obtain ⟨nRight, -, h⟩ := bind_eq_ok.1 h
  obtain rfl := pure_eq_ok.1 h
  exact ⟨kLeft || mLeft, kRight || nRight, by simp only [Bool.or_assoc]⟩

end Candidates

/-- The chosen loops stand in the list, and the batch slot follows the settings. -/
theorem candidates_spec {settings : Settings} {loops : List Loop} {chosen : Candidates}
    (h : candidates settings loops = .ok chosen) :
    chosen.Sits loops ∧ chosen.Batches settings.batchReduce := by
  obtain ⟨⟨hlanes, hbatch⟩, hinner⟩ := Candidates.lanes_spec settings.packedSupport loops
  have hsits := Candidates.pickBatch_sits (Candidates.pickK_sits
    (Candidates.pickN_sits (Candidates.pickM_sits hlanes hinner) hinner) hinner) settings.batchReduce
  obtain ⟨hbr, -, hrequired⟩ := Candidates.pickMNK_slots
    (Candidates.lanes settings.packedSupport loops).1 loops
    (Candidates.lanes settings.packedSupport loops).2
  have hbatches := Candidates.pickBatch_batches ⟨hbr.trans hbatch.br, hrequired.trans hbatch.required⟩
    settings.batchReduce loops
  obtain ⟨left, right, rfl⟩ := Candidates.packAliasing_eq_ok h
  exact ⟨{ hsits with }, { hbatches with idle := fun hidle => ⟨(hbatches.idle hidle).br,
    (hbatches.idle hidle).required⟩ }⟩

/-! ## Targets -/

/-- A slot gets its target, or its candidate if that is shorter. -/
theorem passOn_eq_ok {size target heir : Int} {result : Int × Int}
    (h : passOn size target heir = .ok result) : result.1 = min size target := by
  unfold passOn at h
  split at h
  · obtain ⟨q, -, h⟩ := bind_eq_ok.1 h
    obtain rfl := pure_eq_ok.1 h
    exact (min_eq_left (by omega)).symm
  · obtain rfl := Except.ok.inj h
    exact (min_eq_right (by omega)).symm

/-- Packed lanes are taken whole, and the batch loop gets no more than its candidate has, unless it
stands in for a further packed loop. -/
theorem targetSizes_spec {settings : Settings} {chosen : Candidates} {loops : List Loop}
    {targets : Targets} (h : targetSizes settings chosen loops = .ok targets) :
    targets.slots.c = (if 1 < chosen.sizes.c then chosen.sizes.c else 1) ∧
      (chosen.batchRequired = false → targets.slots.br ≤ chosen.sizes.br) ∧
      (chosen.batchRequired = true → 1 < chosen.sizes.br → 1 < settings.extraPacking →
        1 < targets.slots.br) := by
  unfold targetSizes at h
  obtain ⟨passed, hpassed, h⟩ := bind_eq_ok.1 h
  obtain ⟨⟨m, n⟩, -, h⟩ := bind_eq_ok.1 h
  obtain ⟨reuseM, -, h⟩ := bind_eq_ok.1 h
  obtain ⟨reuseN, -, h⟩ := bind_eq_ok.1 h
  obtain rfl := pure_eq_ok.1 h
  obtain ⟨⟨k, br⟩, -, hpassed⟩ := bind_eq_ok.1 hpassed
  obtain ⟨⟨br', m'⟩, hbr, hpassed⟩ := bind_eq_ok.1 hpassed
  obtain ⟨⟨m'', n'⟩, -, hpassed⟩ := bind_eq_ok.1 hpassed
  obtain rfl := pure_eq_ok.1 hpassed
  have hle : br' ≤ chosen.sizes.br := by
    have hmin : br' = min chosen.sizes.br br := passOn_eq_ok hbr
    omega
  refine ⟨rfl, fun hrequired => ?_, fun hrequired hsize hextra => ?_⟩
  · simp only [hrequired, Bool.false_and, Bool.false_eq_true, if_false]
    exact hle
  · simp only [hrequired, Bool.true_and, Bool.and_eq_true, decide_eq_true_eq]
    split <;> omega

end LoopNest
