import LoopNest.Proofs.Planning.Alignment
import LoopNest.Proofs.Planning.KernelRun

/-!
# The loops that planning appends

Kernel loops and further packed loops are split off loops of the list and appended at its end. The
list in front keeps its length: a split replaces one loop by an outer part of the same kind, and
leaves every other loop in its place (`Replaced`).

`KernelStages.Lead.cuts` follows the stages, lists the appended loops in the order in which they
stand (`Appended`), and notes for each slot which candidates had their turn before it
(`Loop.CutAfter`). A loop that none of them has taken is still whole when its turn comes, so its
inner part has the strides of the candidate. For an aligned choice this holds of all slots that
count (`KernelStages.Lead.appends`).
-/

namespace LoopNest

/-! ## Replacing loops -/

/-- A list in which the loops of some candidates were replaced by others of the same kind. -/
structure Replaced (candidates : List (Option Found)) (front front' : List Loop) : Prop where
  kinds : front'.map Loop.kind = front.map Loop.kind
  others : ∀ index, (∀ f, some f ∈ candidates → f.index ≠ index) → front'[index]? = front[index]?

namespace Replaced

variable {candidates candidates' : List (Option Found)} {front front' front'' : List Loop}

theorem refl (candidates : List (Option Found)) (front : List Loop) :
    Replaced candidates front front := ⟨rfl, fun _ _ => rfl⟩

theorem trans (h : Replaced candidates front front') (h' : Replaced candidates' front' front'') :
    Replaced (candidates ++ candidates') front front'' := by
  refine ⟨h'.kinds.trans h.kinds, fun index hother => ?_⟩
  rw [h'.others index fun f hf => hother f (List.mem_append_right _ hf),
    h.others index fun f hf => hother f (List.mem_append_left _ hf)]

theorem length_eq (h : Replaced candidates front front') : front'.length = front.length := by
  rw [← List.length_map (f := Loop.kind), h.kinds, List.length_map]

/-- A loop that is none of the candidates stays in its place. -/
theorem kept (h : Replaced candidates front front')
    (hin : ∀ f, some f ∈ candidates → f.In front) {f : Found} (hf : f.In front)
    (hnot : some f ∉ candidates) : f.In front' := by
  show front'[f.index]? = some f.loop
  rw [h.others f.index]
  · exact hf
  · intro c hc hindex
    apply hnot
    rw [← (hin c hc).eq_of_index hf hindex]
    exact hc

end Replaced

/-- The inner part of what stands at the index of a candidate. -/
def Loop.InnerOf (loop : Loop) (front : List Loop) (candidate : Option Found) (target : Int) :
    Prop :=
  ∃ f whole, candidate = some f ∧ front[f.index]? = some whole ∧ loop.strides = whole.strides ∧
    loop.size = splitSize whole.size target

/-- A candidate that still stands in its place is cut as it was found. -/
theorem Loop.InnerOf.exists_found {loop : Loop} {front : List Loop} {candidate : Option Found}
    {target : Int} (h : loop.InnerOf front candidate target)
    (hkept : ∀ f, candidate = some f → f.In front) :
    ∃ f, candidate = some f ∧ loop.strides = f.loop.strides ∧
      loop.size = splitSize f.loop.size target := by
  obtain ⟨f, whole, hf, hwhole, hstrides, hsize⟩ := h
  obtain rfl := Option.some.inj (hwhole.symm.trans (hkept f hf))
  exact ⟨f, hf, hstrides, hsize⟩

/-- The inner part of a candidate that was cut off after the loops of other candidates. -/
def Loop.CutAfter (loop : Loop) (taken : List (Option Found)) (rest : List Loop)
    (candidate : Option Found) (target : Int) : Prop :=
  ∃ front, Replaced taken rest front ∧ loop.InnerOf front candidate target

/-- A loop of one iteration that does not move. -/
def Loop.IsIdle (loop : Loop) : Prop := loop.size = 1 ∧ loop.strides = 0

/-- An idle loop, or one with the strides of a candidate. -/
def Loop.Fits (loop : Loop) (candidate : Option Found) : Prop :=
  loop.IsIdle ∨ ∃ f, candidate = some f ∧ loop.strides = f.loop.strides

/-! ## One split -/

/-- A split of a loop in front of appended loops appends one more. -/
theorem splitAt_append {front tail result : List Loop} {f : Found} {target : Int} {mode : Mode}
    (hindex : f.index < front.length)
    (h : splitAt (front ++ tail) f.index target mode = .ok result) :
    ∃ front' loop, result = front' ++ (tail ++ [loop]) ∧ Replaced [some f] front front' ∧
      loop.mode = mode ∧ loop.InnerOf front (some f) target := by
  obtain ⟨whole, pair, hwhole, hpair, rfl⟩ := splitAt_eq_ok h
  rw [List.getElem?_append_left hindex] at hwhole
  have hinner : pair.inner.strides = whole.strides ∧
      pair.inner.size = splitSize whole.size target := by
    obtain ⟨size, -, hpair⟩ := bind_eq_ok.1 hpair
    obtain rfl := pure_eq_ok.1 hpair
    exact ⟨rfl, rfl⟩
  refine ⟨front.set f.index pair.outer, pair.inner, ?_, ⟨?_, ?_⟩, (mode_of_split hpair).2,
    f, whole, rfl, hwhole, hinner.1, hinner.2⟩
  · rw [List.set_append_left _ _ hindex, List.append_assoc]
  · exact map_set_eq Loop.kind hwhole (kind_of_split hpair).1
  · intro index hother
    exact List.getElem?_set_ne (hother f List.mem_cons_self)

/-! ## One slot -/

section Slot

variable {candidate : Option Found} {target : Int} {front tail result : List Loop}

/-- Filling a slot appends a loop of the kernel or none. -/
theorem installSlot_append {axis : Axis} {required : Bool}
    (hin : ∀ f, candidate = some f → f.index < front.length)
    (h : installSlot axis required candidate target (front ++ tail) = .ok result) :
    ∃ front' slot, result = front' ++ (tail ++ slot) ∧ Replaced [candidate] front front' ∧
      slot.length = (slotAxes axis required candidate target).length ∧
      ∀ loop ∈ slot, loop.mode = .prim ∧
        (required = true ∧ loop.IsIdle ∨ loop.InnerOf front candidate target) := by
  -- a slot is filled by a part of its loop, by a placeholder, or not at all
  cases slotFill_of_installSlot h with
  | @split f _ hfound htarget hsplit =>
      obtain ⟨front', loop, rfl, hreplaced, hmode, hinner⟩ := splitAt_append (hin f hfound) hsplit
      subst hfound
      refine ⟨front', [loop], rfl, hreplaced, ?_, ?_⟩
      · rw [slotAxes, decide_eq_true htarget]
        simp
      · intro l hl
        obtain rfl := List.mem_singleton.1 hl
        exact ⟨hmode, .inr hinner⟩
  | idle hidle hrequired =>
      rw [slotAxes, hidle, hrequired]
      refine ⟨front, [placeholder axis], List.append_assoc .., .refl _ _, rfl, ?_⟩
      intro loop hloop
      obtain rfl := List.mem_singleton.1 hloop
      exact ⟨rfl, .inl ⟨rfl, rfl, rfl⟩⟩
  | empty hidle hrequired =>
      rw [slotAxes, hidle, hrequired]
      exact ⟨front, [], by simp, .refl _ _, rfl, by simp⟩

/-- A slot that may not stay empty gets one loop. -/
theorem installSlot_append_one {axis : Axis}
    (hin : ∀ f, candidate = some f → f.index < front.length)
    (h : installSlot axis true candidate target (front ++ tail) = .ok result) :
    ∃ front' loop, result = front' ++ (tail ++ [loop]) ∧ Replaced [candidate] front front' ∧
      loop.mode = .prim ∧ (loop.IsIdle ∨ loop.InnerOf front candidate target) := by
  obtain ⟨front', slot, rfl, hreplaced, hlength, hslot⟩ := installSlot_append hin h
  obtain ⟨loop, rfl⟩ := List.length_eq_one_iff.1 (show slot.length = 1 from hlength)
  obtain ⟨hmode, hloop⟩ := hslot loop List.mem_cons_self
  exact ⟨front', loop, rfl, hreplaced, hmode, hloop.imp_left And.right⟩

/-- A further packed loop is appended in front of the kernel loops. -/
theorem installExtra_append (hin : ∀ f, candidate = some f → f.index < front.length)
    (h : installExtra candidate target (front ++ tail) = .ok result) :
    ∃ front' extra, result = front' ++ (tail ++ extra) ∧ Replaced [candidate] front front' ∧
      extra.length = candidate.toList.length ∧ ∀ loop ∈ extra, loop.mode = .seq := by
  rcases installExtra_cases h with ⟨f, rfl, hsplit⟩ | ⟨rfl, rfl⟩
  · obtain ⟨front', loop, rfl, hreplaced, hmode, -⟩ := splitAt_append (hin f rfl) hsplit
    refine ⟨front', [loop], rfl, hreplaced, rfl, ?_⟩
    intro l hl
    obtain rfl := List.mem_singleton.1 hl
    exact hmode
  · exact ⟨front, [], by simp, .refl _ _, rfl, by simp⟩

end Slot

/-! ## All slots -/

/-- The loops that planning appends, outermost first. The slots of a batch loop and of packed lanes
may stay empty. -/
structure Appended where
  extra : List Loop
  br : List Loop
  lane : List Loop
  m : Loop
  n : Loop
  k : Loop

namespace Appended

/-- The appended loops in front of M. -/
def outer (appended : Appended) : List Loop := appended.extra ++ (appended.br ++ appended.lane)

/-- All appended loops. -/
def loops (appended : Appended) : List Loop :=
  appended.outer ++ [appended.m, appended.n, appended.k]

end Appended

/-- The installed list, and what each appended loop was split off. The K loop has the strides of its
candidate unless an earlier slot has taken the same loop. -/
structure KernelStages.Appends (s : KernelStages) (front : List Loop) (appended : Appended) :
    Prop where
  installed : s.installed = front ++ appended.loops
  front : front.map Loop.kind = s.rest.map Loop.kind
  extra : ∀ loop ∈ appended.extra, loop.mode = .seq
  length : appended.extra.length =
    (s.chosen.extraLeft.toList ++ s.chosen.extraRight.toList).length
  prims : ∀ loop ∈ appended.br ++ appended.lane ++ [appended.m, appended.n, appended.k],
    loop.mode = .prim
  lane : 1 < s.chosen.sizes.c → ∃ lane, appended.lane = [lane] ∧ lane.size = s.chosen.sizes.c
  m : appended.m.Fits s.chosen.slots.m
  n : appended.n.Fits s.chosen.slots.n
  kNone : s.chosen.slots.k = none → appended.k.size = 1
  k : ∀ f, s.chosen.slots.k = some f → s.chosen.extraLeft ≠ some f →
    s.chosen.extraRight ≠ some f → s.chosen.slots.br ≠ some f → appended.k.Fits (some f)

/-- A loop that is to be as long as it is, is taken whole. -/
theorem splitSize_self {size : Int} (hsize : 1 ≤ size) : splitSize size size = size := by
  unfold splitSize nearestDivisorBy
  rw [if_pos ⟨hsize, hsize, Int.emod_self⟩]

/-- Loops of different axes are different. -/
theorem FoundFor.ne {loops : List Loop} {axis axis' : Axis} {found found' : Option Found}
    (h : FoundFor loops axis found) (h' : FoundFor loops axis' found') (hne : axis ≠ axis') :
    ∀ f, found' = some f → found ≠ some f := by
  intro f hf' hf
  exact hne ((h f hf).2.symm.trans (h' f hf').2)

namespace Candidates

variable {chosen : Candidates} {rest front : List Loop}

/-- The candidates in the order in which they are split. -/
def order (chosen : Candidates) : List (Option Found) :=
  [chosen.extraRight, chosen.extraLeft, chosen.slots.br, chosen.slots.c, chosen.slots.m,
    chosen.slots.n, chosen.slots.k]

theorem Sits.mem_order (h : chosen.Sits rest) : ∀ f, some f ∈ chosen.order → f.In rest := by
  intro f hf
  simp only [order, List.mem_cons, List.not_mem_nil, or_false] at hf
  rcases hf with hf | hf | hf | hf | hf | hf | hf
  · exact h.extraRight f hf.symm
  · exact h.extraLeft f hf.symm
  · exact (h.br f hf.symm).1
  · exact (h.c f hf.symm).1
  · exact (h.m f hf.symm).1
  · exact (h.n f hf.symm).1
  · exact (h.k f hf.symm).1

/-- Candidates are found in the list however many loops were taken before. -/
theorem Sits.index_lt (h : chosen.Sits rest) {taken : List (Option Found)}
    (hreplaced : Replaced taken rest front) (turn : Nat) {candidate : Option Found}
    (hturn : chosen.order[turn]? = some candidate) :
    ∀ f, candidate = some f → f.index < front.length := by
  intro f hf
  rw [hreplaced.length_eq]
  have hin := h.mem_order f (hf ▸ List.mem_of_getElem? hturn)
  exact (List.getElem?_eq_some_iff.1 hin).1

/-- A loop that no earlier slot has taken is cut as it was found. -/
theorem Sits.exists_found (h : chosen.Sits rest) (turn : Nat) {candidate : Option Found}
    (hturn : chosen.order[turn]? = some candidate)
    (hfree : ∀ f, candidate = some f → some f ∉ chosen.order.take turn) {loop : Loop} {target : Int}
    (hcut : loop.CutAfter (chosen.order.take turn) rest candidate target) :
    ∃ f, candidate = some f ∧ loop.strides = f.loop.strides ∧
      loop.size = splitSize f.loop.size target := by
  obtain ⟨front, hreplaced, hinner⟩ := hcut
  apply hinner.exists_found
  intro f hf
  apply hreplaced.kept _ _ (hfree f hf)
  · intro c hc
    exact h.mem_order c (List.mem_of_mem_take hc)
  · exact h.mem_order f (hf ▸ List.mem_of_getElem? hturn)

theorem Sits.fits (h : chosen.Sits rest) (turn : Nat) {candidate : Option Found}
    (hturn : chosen.order[turn]? = some candidate)
    (hfree : ∀ f, candidate = some f → some f ∉ chosen.order.take turn) {loop : Loop} {target : Int}
    (hcut : loop.IsIdle ∨ loop.CutAfter (chosen.order.take turn) rest candidate target) :
    loop.Fits candidate := by
  rcases hcut with hidle | hcut
  · exact .inl hidle
  · obtain ⟨f, hf, hstrides, -⟩ := h.exists_found turn hturn hfree hcut
    exact .inr ⟨f, hf, hstrides⟩

/-! ### Which loops are free when their turn comes -/

/-- The loops of the lanes, M and N are no further packed loops. -/
theorem Aligned.ne_extra (h : chosen.Aligned) {f : Found}
    (hslot : chosen.slots.c = some f ∨ chosen.slots.m = some f ∨ chosen.slots.n = some f) :
    some f ≠ chosen.extraRight ∧ some f ≠ chosen.extraLeft := by
  have hnot : ¬(chosen.extraLeft = some f ∨ chosen.extraRight = some f) := by
    intro hextra
    obtain ⟨hc, hm, hn⟩ := h.extra f hextra
    exact hslot.elim hc fun hslot => hslot.elim hm hn
  exact ⟨fun heq => hnot (.inr heq.symm), fun heq => hnot (.inl heq.symm)⟩

variable (hsits : chosen.Sits rest) (haligned : chosen.Aligned)

include hsits haligned

theorem free_c : ∀ f, chosen.slots.c = some f → some f ∉ chosen.order.take 3 := by
  intro f hf
  obtain ⟨hright, hleft⟩ := haligned.ne_extra (.inl hf)
  have hbr := (hsits.br.ne hsits.c (by simp) f hf).symm
  simpa [order] using ⟨hright, hleft, hbr⟩

theorem free_m : ∀ f, chosen.slots.m = some f → some f ∉ chosen.order.take 4 := by
  intro f hf
  obtain ⟨hright, hleft⟩ := haligned.ne_extra (.inr (.inl hf))
  have hbr := (hsits.br.ne hsits.m (by simp) f hf).symm
  have hc := (hsits.c.ne hsits.m (by simp) f hf).symm
  simpa [order] using ⟨hright, hleft, hbr, hc⟩

theorem free_n : ∀ f, chosen.slots.n = some f → some f ∉ chosen.order.take 5 := by
  intro f hf
  obtain ⟨hright, hleft⟩ := haligned.ne_extra (.inr (.inr hf))
  have hbr := (hsits.br.ne hsits.n (by simp) f hf).symm
  have hc := (hsits.c.ne hsits.n (by simp) f hf).symm
  have hm := (hsits.m.ne hsits.n (by simp) f hf).symm
  simpa [order] using ⟨hright, hleft, hbr, hc, hm⟩

omit haligned

/-- The K loop is free unless it is a further packed loop or the batch loop. -/
theorem free_k {f : Found} (hf : chosen.slots.k = some f) (hleft : chosen.extraLeft ≠ some f)
    (hright : chosen.extraRight ≠ some f) (hbr : chosen.slots.br ≠ some f) :
    some f ∉ chosen.order.take 6 := by
  have hc := (hsits.c.ne hsits.k (by simp) f hf).symm
  have hm := (hsits.m.ne hsits.k (by simp) f hf).symm
  have hn := (hsits.n.ne hsits.k (by simp) f hf).symm
  simpa [order] using ⟨hright.symm, hleft.symm, hbr.symm, hc, hm, hn⟩

end Candidates

namespace KernelStages

variable {s : KernelStages} {settings : Settings} {kernel : KernelTag} {loops : List Loop}
  {kerneled : Kerneled} {front : List Loop} {appended : Appended}

/-- The installed list, and after which other loops the loop of each slot was cut off its
candidate. -/
structure Cuts (s : KernelStages) (front : List Loop) (appended : Appended) : Prop where
  installed : s.installed = front ++ appended.loops
  front : front.map Loop.kind = s.rest.map Loop.kind
  extra : ∀ loop ∈ appended.extra, loop.mode = .seq
  length : appended.extra.length =
    (s.chosen.extraLeft.toList ++ s.chosen.extraRight.toList).length
  prims : ∀ loop ∈ appended.br ++ appended.lane ++ [appended.m, appended.n, appended.k],
    loop.mode = .prim
  laneCount : appended.lane.length =
    (slotAxes .c false s.chosen.slots.c s.targets.slots.c).length
  lane : ∀ loop ∈ appended.lane,
    loop.CutAfter (s.chosen.order.take 3) s.rest s.chosen.slots.c s.targets.slots.c
  m : appended.m.IsIdle ∨
    appended.m.CutAfter (s.chosen.order.take 4) s.rest s.chosen.slots.m s.targets.slots.m
  n : appended.n.IsIdle ∨
    appended.n.CutAfter (s.chosen.order.take 5) s.rest s.chosen.slots.n s.targets.slots.n
  k : appended.k.IsIdle ∨
    appended.k.CutAfter (s.chosen.order.take 6) s.rest s.chosen.slots.k s.targets.slots.k

/-- The stages append loops slot by slot. -/
theorem Lead.cuts (h : s.Lead settings kernel loops kerneled) (hreal : s.complex = none) :
    ∃ front appended, s.Cuts front appended := by
  obtain ⟨hsits, -⟩ := candidates_spec h.chooses
  -- the further packed loops, right and left
  have hright := h.right
  rw [← List.append_nil s.rest] at hright
  obtain ⟨f₁, right, hl₁, r₁, hlengthRight, hseqRight⟩ :=
    installExtra_append (hsits.index_lt (.refl [] s.rest) 0 rfl) hright
  have hleft := h.left
  rw [hl₁] at hleft
  obtain ⟨f₂, left, hl₂, r, hlengthLeft, hseqLeft⟩ :=
    installExtra_append (hsits.index_lt r₁ 1 rfl) hleft
  have r₂ : Replaced (s.chosen.order.take 2) s.rest f₂ := r₁.trans r
  -- the slots from the batch loop to K
  have hslots := h.slots
  rw [show s.base = s.withExtra by simp [base, hreal], hl₂] at hslots
  obtain ⟨l₃, hslot, hslots⟩ := bind_eq_ok.1 hslots
  obtain ⟨f₃, br, rfl, r, -, hbr⟩ := installSlot_append (hsits.index_lt r₂ 2 rfl) hslot
  have r₃ : Replaced (s.chosen.order.take 3) s.rest f₃ := r₂.trans r
  obtain ⟨l₄, hslot, hslots⟩ := bind_eq_ok.1 hslots
  obtain ⟨f₄, lane, rfl, r, hcount, hlane⟩ :=
    installSlot_append (hsits.index_lt r₃ 3 rfl) hslot
  have r₄ : Replaced (s.chosen.order.take 4) s.rest f₄ := r₃.trans r
  obtain ⟨l₅, hslot, hslots⟩ := bind_eq_ok.1 hslots
  obtain ⟨f₅, m, rfl, r, hmodeM, hm⟩ := installSlot_append_one (hsits.index_lt r₄ 4 rfl) hslot
  have r₅ : Replaced (s.chosen.order.take 5) s.rest f₅ := r₄.trans r
  obtain ⟨l₆, hslot, hslots⟩ := bind_eq_ok.1 hslots
  obtain ⟨f₆, n, rfl, r, hmodeN, hn⟩ := installSlot_append_one (hsits.index_lt r₅ 5 rfl) hslot
  have r₆ : Replaced (s.chosen.order.take 6) s.rest f₆ := r₅.trans r
  obtain ⟨f₇, k, hl₇, r, hmodeK, hk⟩ := installSlot_append_one (hsits.index_lt r₆ 6 rfl) hslots
  refine ⟨f₇, ⟨right ++ left, br, lane, m, n, k⟩, ?_, (r₆.trans r).kinds, ?_, ?_, ?_, hcount, ?_,
    hm.imp_right fun hm => ⟨f₄, r₄, hm⟩, hn.imp_right fun hn => ⟨f₅, r₅, hn⟩,
    hk.imp_right fun hk => ⟨f₆, r₆, hk⟩⟩
  · rw [hl₇]
    simp [Appended.loops, Appended.outer]
  · exact List.forall_mem_append.2 ⟨hseqRight, hseqLeft⟩
  · rw [List.length_append, List.length_append, hlengthRight, hlengthLeft, add_comm]
  · rw [List.forall_mem_append, List.forall_mem_append]
    refine ⟨⟨fun loop hloop => (hbr loop hloop).1, fun loop hloop => (hlane loop hloop).1⟩, ?_⟩
    simp [hmodeM, hmodeN, hmodeK]
  · intro loop hloop
    exact ⟨f₃, r₃, (hlane loop hloop).2.resolve_left (by simp)⟩

/-- Lanes of more than one iteration are taken whole. -/
theorem Cuts.exists_lane (hcuts : s.Cuts front appended) (h : s.Lead settings kernel loops kerneled)
    (hsits : s.chosen.Sits s.rest) (haligned : s.chosen.Aligned) (hone : 1 < s.chosen.sizes.c) :
    ∃ lane, appended.lane = [lane] ∧ lane.size = s.chosen.sizes.c := by
  have htarget : s.targets.slots.c = s.chosen.sizes.c := by
    rw [(targetSizes_spec h.aims).1, if_pos hone]
  have hsome : s.chosen.slots.c.isSome = true := by
    rw [← Option.ne_none_iff_isSome]
    intro hnone
    rw [Candidates.sizes, Slots.map, hnone] at hone
    exact absurd hone (lt_irrefl (1 : Int))
  -- the slot is filled, with a loop that is as long as its candidate
  have hcount := hcuts.laneCount
  rw [slotAxes, hsome, htarget, decide_eq_true hone] at hcount
  obtain ⟨lane, hlane⟩ := List.length_eq_one_iff.1 (show appended.lane.length = 1 from hcount)
  refine ⟨lane, hlane, ?_⟩
  have hcut := hcuts.lane lane (by simp [hlane])
  obtain ⟨f, hf, -, hsplit⟩ :=
    hsits.exists_found 3 rfl (Candidates.free_c hsits haligned) hcut
  have hsize : s.chosen.sizes.c = f.loop.size := by
    rw [Candidates.sizes, Slots.map, hf]
    rfl
  rw [hsplit, htarget, hsize, splitSize_self (by omega)]

/-- If the choice is aligned, the slots that count are cut off their candidates as these were
found. -/
theorem Lead.appends (h : s.Lead settings kernel loops kerneled) (hreal : s.complex = none)
    (haligned : s.chosen.Aligned) : ∃ front appended, s.Appends front appended := by
  obtain ⟨hsits, -⟩ := candidates_spec h.chooses
  obtain ⟨front, appended, hcuts⟩ := h.cuts hreal
  refine ⟨front, appended, hcuts.installed, hcuts.front, hcuts.extra, hcuts.length, hcuts.prims,
    hcuts.exists_lane h hsits haligned, ?_, ?_, ?_, ?_⟩
  · exact hsits.fits 4 rfl (Candidates.free_m hsits haligned) hcuts.m
  · exact hsits.fits 5 rfl (Candidates.free_n hsits haligned) hcuts.n
  · intro hnone
    rcases hcuts.k with hidle | ⟨-, -, f, -, hf, -⟩
    · exact hidle.1
    · rw [hnone] at hf
      cases hf
  · intro f hf hleft hright hbr
    rw [← hf]
    apply hsits.fits 6 rfl _ hcuts.k
    intro f' hf'
    obtain rfl := Option.some.inj (hf.symm.trans hf')
    exact Candidates.free_k hsits hf hleft hright hbr

end KernelStages

end LoopNest
