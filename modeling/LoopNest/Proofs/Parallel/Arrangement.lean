import LoopNest.Proofs.Parallel.Runs

/-!
# Which loop lists have a layout

A loop list has a layout exactly if its parallel loops are arranged (`Arranged`): OMP loops on any
axis but K, SFC loops on N, M and K in this order, each of the two kinds without a gap, the SFC loops
right behind the OMP loops, and none of them with an index too large for a movement code. The rules
speak of indices and do not mention the scan (`ofLoops_iff_arranged`).

What a loop must satisfy by itself and against the loops in front of it is checked where the loop
stands; these rules are `Admissible`. That there are no gaps is found out at the end by counting. For
this the scan keeps spans that are tight: both ends of a span are loops of its kind (`Span.Ends`), so
that a span is as long as the number of its loops exactly if they are consecutive
(`Span.Covers.length_eq_iff`).
-/

namespace LoopNest

/-- The place of an axis in the order of the SFC loops. -/
def Axis.curveRank : Axis → Nat
  | .n => 1
  | .m => 2
  | .k => 3
  | _ => 0

/-- The loop with an index exists and has a property. -/
def LoopAt (p : Loop → Bool) (loops : List Loop) (i : Nat) : Prop :=
  ∃ loop, loops[i]? = some loop ∧ p loop = true

/-- Between two loops with a property all loops have it. -/
def Consecutive (p : Loop → Bool) (loops : List Loop) : Prop :=
  ∀ i j k, i ≤ j → j ≤ k → LoopAt p loops i → LoopAt p loops k → LoopAt p loops j

/-- The rules for parallel loops that concern a loop and those in front of it. -/
structure Admissible (loops : List Loop) : Prop where
  ompAxis : ∀ loop ∈ loops, loop.isOmp = true → loop.axis ≠ .k
  sfcAxis : ∀ loop ∈ loops, loop.isSfc = true → loop.axis = .n ∨ loop.axis = .m ∨ loop.axis = .k
  sfcOrder : loops.Pairwise fun a b =>
    a.isSfc = true → b.isSfc = true → a.axis.curveRank ≤ b.axis.curveRank
  small : ∀ i (h : i < loops.length), loops[i].isParallel = true → i ≤ Layout.maxLoopIndex

/-- The rules for the parallel loops of a list. -/
structure Arranged (loops : List Loop) : Prop extends Admissible loops where
  ompRun : Consecutive Loop.isOmp loops
  sfcRun : Consecutive Loop.isSfc loops
  attached : ∀ i j, LoopAt Loop.isOmp loops i → (∀ x, LoopAt Loop.isOmp loops x → x ≤ i) →
    LoopAt Loop.isSfc loops j → (∀ x, LoopAt Loop.isSfc loops x → j ≤ x) → j = i + 1

section Indices

variable {p q : Loop → Bool} {loops : List Loop}

theorem LoopAt.imp (hpq : ∀ loop, p loop = true → q loop = true) {i : Nat}
    (h : LoopAt p loops i) : LoopAt q loops i := by
  obtain ⟨loop, hloop, hp⟩ := h
  exact ⟨loop, hloop, hpq loop hp⟩

theorem LoopAt.snoc {i : Nat} (h : LoopAt p loops i) (loop : Loop) :
    LoopAt p (loops ++ [loop]) i := by
  obtain ⟨x, hx, hp⟩ := h
  obtain ⟨hi, -⟩ := List.getElem?_eq_some_iff.1 hx
  exact ⟨x, (List.getElem?_append_left hi).trans hx, hp⟩

theorem loopAt_length {loop : Loop} (h : p loop = true) :
    LoopAt p (loops ++ [loop]) loops.length :=
  ⟨loop, List.getElem?_concat_length, h⟩

end Indices

/-! ## Tight spans -/

namespace Span

/-- A span that is untouched, or whose first and last loop have a property. -/
def Ends (span : Span) (p : Loop → Bool) (loops : List Loop) : Prop :=
  span = {} ∨ span.start < span.stop ∧ LoopAt p loops span.start ∧ LoopAt p loops (span.stop - 1)

variable {span : Span} {p : Loop → Bool} {loops : List Loop}

theorem Ends.snoc_of_not (h : span.Ends p loops) (loop : Loop) : span.Ends p (loops ++ [loop]) := by
  rcases h with rfl | ⟨hlt, hstart, hstop⟩
  · exact Or.inl rfl
  · exact Or.inr ⟨hlt, hstart.snoc loop, hstop.snoc loop⟩

theorem Ends.snoc (h : span.Ends p loops) (hle : span.stop ≤ loops.length) {loop : Loop}
    (hloop : p loop = true) : (span.extend loops.length).Ends p (loops ++ [loop]) := by
  apply Or.inr
  rcases h with rfl | ⟨hlt, hstart, -⟩
  · exact ⟨Nat.lt_succ_self _, loopAt_length hloop, loopAt_length hloop⟩
  · have hempty : span.isEmpty = false := decide_eq_false hlt.ne
    have hextend : span.extend loops.length = ⟨span.start, loops.length + 1⟩ := by
      rw [extend, hempty]
      rfl
    rw [hextend]
    exact ⟨by dsimp only; omega, hstart.snoc loop, loopAt_length hloop⟩

/-- The loops with a property lie in a span that covers them. -/
theorem Covers.bounds (h : Covers span p loops) {i : Nat} (hi : LoopAt p loops i) :
    span.start ≤ i ∧ i < span.stop := by
  obtain ⟨loop, hloop, hp⟩ := hi
  obtain ⟨hlt, rfl⟩ := List.getElem?_eq_some_iff.1 hloop
  constructor
  · by_contra hlow
    have hmem : loops[i] ∈ loops.take span.start :=
      List.mem_take_iff_getElem.2 ⟨i, by omega, rfl⟩
    rw [h.before _ hmem] at hp
    cases hp
  · by_contra hhigh
    have hmem : loops[i] ∈ loops.drop span.stop :=
      List.mem_drop_iff_getElem.2 ⟨i - span.stop, by omega, by congr 1; omega⟩
    rw [h.after _ hmem] at hp
    cases hp

/-- The span of marked loops is the interval of their indices. -/
theorem Marks.loopAt_iff (h : Marks span p loops) (i : Nat) :
    LoopAt p loops i ↔ span.start ≤ i ∧ i < span.stop := by
  constructor
  · exact h.toCovers.bounds
  · rintro ⟨hlow, hhigh⟩
    have hlt : i < loops.length := hhigh.trans_le h.stop_le
    refine ⟨loops[i], List.getElem?_eq_getElem hlt, h.inside _ ?_⟩
    rw [slice, List.mem_take_iff_getElem]
    refine ⟨i - span.start, ?_, ?_⟩
    · rw [List.length_drop, length]
      omega
    · rw [List.getElem_drop]
      congr 1
      omega

/-- A tight span is as long as the number of its loops exactly if they are consecutive. -/
theorem Covers.length_eq_iff (h : Covers span p loops) (hends : span.Ends p loops) :
    span.length = loops.countP p ↔ Consecutive p loops := by
  constructor
  · intro hlength i j k hij hjk hi hk
    have hmarks := h.marks hlength.le
    rw [hmarks.loopAt_iff] at hi hk ⊢
    omega
  · intro hrun
    rcases hends with rfl | ⟨hlt, hstart, hstop⟩
    · exact (Nat.le_zero.1 h.countP_le).symm
    · -- every index of the span lies between its two ends
      have hinside : ∀ loop ∈ span.slice loops, p loop = true := by
        intro loop hloop
        obtain ⟨i, hi, rfl⟩ := List.mem_iff_getElem.1 hloop
        rw [h.length_slice, length] at hi
        obtain ⟨x, hx, hp⟩ := hrun _ (span.start + i) _ (by omega) (by omega) hstart hstop
        obtain ⟨hbound, rfl⟩ := List.getElem?_eq_some_iff.1 hx
        have hget : (span.slice loops)[i] = loops[span.start + i] := by
          simp only [slice, List.getElem_take, List.getElem_drop]
        rw [hget]
        exact hp
      have hmarks : Marks span p loops := ⟨h, hinside⟩
      rw [List.countP_eq_length_filter, hmarks.filter_eq, h.length_slice]

end Span

/-! ## What the scan admits -/

/-- A loop may stand behind admissible loops. -/
structure Loop.Follows (loop : Loop) (seen : List Loop) : Prop where
  ompAxis : loop.isOmp = true → loop.axis ≠ .k
  sfcAxis : loop.isSfc = true → loop.axis = .n ∨ loop.axis = .m ∨ loop.axis = .k
  sfcOrder : loop.isSfc = true → ∀ x ∈ seen, x.isSfc = true →
    x.axis.curveRank ≤ loop.axis.curveRank
  small : loop.isParallel = true → seen.length ≤ Layout.maxLoopIndex

theorem admissible_nil : Admissible [] :=
  ⟨by simp, by simp, List.Pairwise.nil, by simp⟩

theorem admissible_snoc_iff {seen : List Loop} {loop : Loop} :
    Admissible (seen ++ [loop]) ↔ Admissible seen ∧ loop.Follows seen := by
  constructor
  · rintro ⟨homp, hsfc, horder, hsmall⟩
    -- the order is asked of the pairs that end in the new loop
    rw [List.pairwise_append] at horder
    obtain ⟨hseen, -, hcross⟩ := horder
    have hlast : loop ∈ seen ++ [loop] := by simp
    refine ⟨⟨fun x hx => homp x (by simp [hx]), fun x hx => hsfc x (by simp [hx]), hseen, ?_⟩,
      ⟨homp loop hlast, hsfc loop hlast, fun hloop x hx hp => ?_, fun hparallel => ?_⟩⟩
    · intro i hi hparallel
      refine hsmall i (by simp; omega) ?_
      rwa [List.getElem_append_left hi]
    · exact hcross x hx loop (List.mem_singleton_self loop) hp hloop
    · refine hsmall seen.length (by simp) ?_
      rw [List.getElem_concat_length rfl]
      exact hparallel
  · rintro ⟨hseen, hloop⟩
    refine ⟨fun x hx hp => ?_, fun x hx hp => ?_, ?_, fun i hi hparallel => ?_⟩
    · rcases List.mem_append.1 hx with hx | hx
      · exact hseen.ompAxis x hx hp
      · obtain rfl := List.mem_singleton.1 hx
        exact hloop.ompAxis hp
    · rcases List.mem_append.1 hx with hx | hx
      · exact hseen.sfcAxis x hx hp
      · obtain rfl := List.mem_singleton.1 hx
        exact hloop.sfcAxis hp
    · rw [List.pairwise_append]
      refine ⟨hseen.sfcOrder, List.pairwise_singleton _ _, fun x hx y hy hp hq => ?_⟩
      obtain rfl := List.mem_singleton.1 hy
      exact hloop.sfcOrder hq x hx hp
    · rcases Nat.lt_or_ge i seen.length with hlt | hge
      · rw [List.getElem_append_left hlt] at hparallel
        exact hseen.small i hlt hparallel
      · have hlast : i = seen.length := by
          rw [List.length_append, List.length_singleton] at hi
          omega
        subst hlast
        rw [List.getElem_concat_length rfl] at hparallel
        exact hloop.small hparallel

theorem Admissible.of_append {seen rest : List Loop} (h : Admissible (seen ++ rest)) :
    Admissible seen := by
  induction rest using List.reverseRecOn with
  | nil => rwa [List.append_nil] at h
  | append_singleton rest loop ih =>
      rw [← List.append_assoc] at h
      exact ih (admissible_snoc_iff.1 h).1

namespace Layout.Scan

/-- What a scan knows of the ends of its spans and of the order of the SFC loops. -/
structure Tight (scan : Scan) (seen : List Loop) : Prop where
  omp : scan.layout.omp.Ends Loop.isOmp seen
  sfc : ∀ axis, (scan.layout.sfcSpan axis).Ends (Loop.isSfcOn axis) seen
  first : ∀ first, scan.sfcFirst = some first → LoopAt Loop.isSfc seen first
  rankLe : ∀ loop ∈ seen, loop.isSfc = true → loop.axis.curveRank ≤ scan.sfcRank
  rankMet : scan.sfcRank = 0 ∨
    ∃ loop ∈ seen, loop.isSfc = true ∧ scan.sfcRank = loop.axis.curveRank

theorem tight_nil (loops : List Loop) (threads : ThreadGrid) :
    Tight { layout := { loops := loops, threads := threads } } [] where
  omp := Or.inl rfl
  sfc axis := by cases axis <;> exact Or.inl rfl
  first _ h := by cases h
  rankLe _ h := by cases h
  rankMet := Or.inl rfl

variable {scan next : Scan} {seen : List Loop} {loop : Loop}

/-- An SFC loop has a place on the curve if its axis is N, M or K. -/
theorem sfcLayout_rank {layout result : Layout} {index rank : Nat}
    (h : sfcLayout layout index loop = some (rank, result)) : rank = loop.axis.curveRank := by
  unfold sfcLayout at h
  split at h
  case h_4 => cases h
  all_goals
    rename_i haxis
    obtain ⟨rfl, -⟩ := Prod.mk.inj (Option.some.inj h)
    rw [haxis]
    rfl

theorem exists_sfcLayout_iff (layout : Layout) (index : Nat) :
    (∃ result, sfcLayout layout index loop = some (loop.axis.curveRank, result)) ↔
      loop.axis = .n ∨ loop.axis = .m ∨ loop.axis = .k := by
  unfold sfcLayout
  cases haxis : loop.axis <;> simp [Axis.curveRank]

/-- A loop is below the rank of the scan exactly if it is below the rank of an SFC loop. -/
theorem Tight.sfcRank_le_iff (h : scan.Tight seen) {rank : Nat} :
    scan.sfcRank ≤ rank ↔ ∀ x ∈ seen, x.isSfc = true → x.axis.curveRank ≤ rank := by
  constructor
  · intro hrank x hx hp
    exact (h.rankLe x hx hp).trans hrank
  · intro hall
    rcases h.rankMet with hzero | ⟨x, hx, hp, heq⟩
    · rw [hzero]
      exact Nat.zero_le rank
    · rw [heq]
      exact hall x hx hp

/-- A loop that is no SFC loop leaves what is known of the order. -/
theorem Tight.snoc_of_not (h : scan.Tight seen) (hloop : loop.isSfc = false)
    (homp : next.layout.omp.Ends Loop.isOmp (seen ++ [loop]))
    (hspan : ∀ axis, next.layout.sfcSpan axis = scan.layout.sfcSpan axis)
    (hfirst : next.sfcFirst = scan.sfcFirst) (hrank : next.sfcRank = scan.sfcRank) :
    next.Tight (seen ++ [loop]) where
  omp := homp
  sfc axis := hspan axis ▸ (h.sfc axis).snoc_of_not loop
  first first hsome := (h.first first (hfirst ▸ hsome)).snoc loop
  rankLe := by
    intro x hx hp
    rcases List.mem_append.1 hx with hx | hx
    · exact hrank ▸ h.rankLe x hx hp
    · rw [List.mem_singleton.1 hx, hloop] at hp
      cases hp
  rankMet := by
    rw [hrank]
    rcases h.rankMet with hzero | ⟨x, hx, hmet⟩
    · exact Or.inl hzero
    · exact Or.inr ⟨x, List.mem_append_left _ hx, hmet⟩

theorem sfc_tight (h : scan.Tight seen) (hreads : scan.ReadsSfc seen) (hloop : loop.isSfc = true)
    (hnext : scan.sfc seen.length loop = .ok next) : next.Tight (seen ++ [loop]) := by
  obtain ⟨rank, layout, hlayout, hle, rfl⟩ := sfc_eq_ok_iff.1 hnext
  obtain ⟨⟨homp, -, -, -⟩, haxes⟩ := sfcLayout_spec hlayout
  obtain rfl := sfcLayout_rank hlayout
  refine ⟨homp ▸ h.omp.snoc_of_not loop, fun axis => ?_, ?_, ?_, ?_⟩
  · rw [(haxes axis).1]
    split
    · rename_i haxis
      exact (h.sfc axis).snoc (hreads.covers axis).stop_le (by simp [Loop.isSfcOn, hloop, haxis])
    · exact (h.sfc axis).snoc_of_not loop
  · intro first hfirst
    obtain rfl := Option.some.inj hfirst
    cases hold : scan.sfcFirst with
    | none => exact loopAt_length hloop
    | some old => exact (h.first old hold).snoc loop
  · -- the rank of the scan never falls, so that it bounds the earlier loops as well
    intro x hx hp
    rcases List.mem_append.1 hx with hx | hx
    · exact (h.rankLe x hx hp).trans hle
    · rw [List.mem_singleton.1 hx]
  · exact Or.inr ⟨loop, by simp, hloop, rfl⟩

/-- One step keeps the spans tight. -/
theorem step_tight (h : scan.Tight seen) (hreads : scan.Reads seen)
    (hnext : scan.step seen.length loop = .ok next) : next.Tight (seen ++ [loop]) := by
  obtain ⟨hmiddle, -⟩ := step_eq_ok hnext
  cases hmode : loop.mode with
  | omp =>
      simp only [hmode] at hmiddle
      obtain ⟨-, hmiddle⟩ := guard_eq_ok.1 hmiddle
      obtain rfl := Except.ok.inj hmiddle
      have hends := h.omp.snoc hreads.omp.covers.stop_le
        (show loop.isOmp = true by simp [Loop.isOmp, hmode])
      exact h.snoc_of_not (by simp [Loop.isSfc, hmode]) hends (fun _ => rfl) rfl rfl
  | sfc =>
      simp only [hmode] at hmiddle
      exact sfc_tight h hreads.sfc (by simp [Loop.isSfc, hmode]) hmiddle
  | seq | prim =>
      simp only [hmode] at hmiddle
      obtain rfl := Except.ok.inj hmiddle
      exact h.snoc_of_not (by simp [Loop.isSfc, hmode]) (h.omp.snoc_of_not loop) (fun _ => rfl)
        rfl rfl

/-- An SFC loop is taken in if its axis has a place on the curve and is not too late. -/
theorem exists_sfc_iff {index : Nat} :
    (∃ next, scan.sfc index loop = .ok next) ↔
      (loop.axis = .n ∨ loop.axis = .m ∨ loop.axis = .k) ∧
        scan.sfcRank ≤ loop.axis.curveRank := by
  rw [← exists_sfcLayout_iff scan.layout index]
  constructor
  · rintro ⟨next, hnext⟩
    obtain ⟨rank, layout, hlayout, hle, -⟩ := sfc_eq_ok_iff.1 hnext
    obtain rfl := sfcLayout_rank hlayout
    exact ⟨⟨layout, hlayout⟩, hle⟩
  · rintro ⟨⟨layout, hlayout⟩, hle⟩
    exact ⟨_, sfc_eq_ok_iff.2 ⟨_, layout, hlayout, hle, rfl⟩⟩

/-- A step that is refused afterwards under a condition. -/
theorem exists_bind_guard_iff {x : Except Error Scan} {c : Prop} [Decidable c] {e : Error} :
    (∃ next, (x >>= fun a => if c then .error e else .ok a) = .ok next) ↔
      (∃ next, x = .ok next) ∧ ¬c := by
  constructor
  · rintro ⟨next, hnext⟩
    obtain ⟨middle, hmiddle, hnext⟩ := bind_eq_ok.1 hnext
    exact ⟨⟨middle, hmiddle⟩, (guard_eq_ok.1 hnext).1⟩
  · rintro ⟨⟨next, hnext⟩, hc⟩
    exact ⟨next, bind_eq_ok.2 ⟨next, hnext, if_neg hc⟩⟩

/-- One step takes in exactly the loops that may stand where they stand. -/
theorem exists_step_iff (h : scan.Tight seen) :
    (∃ next, scan.step seen.length loop = .ok next) ↔ loop.Follows seen := by
  have hindex : ¬((loop.isParallel && decide (maxLoopIndex < seen.length)) = true) ↔
      (loop.isParallel = true → seen.length ≤ maxLoopIndex) := by simp
  cases hmode : loop.mode with
  | omp =>
      have homp : loop.isOmp = true := by simp [Loop.isOmp, hmode]
      have hsfc : loop.isSfc = false := by simp [Loop.isSfc, hmode]
      simp only [step, hmode]
      rw [exists_bind_guard_iff, hindex]
      constructor
      · rintro ⟨⟨next, hnext⟩, hsmall⟩
        obtain ⟨haxis, -⟩ := guard_eq_ok.1 hnext
        exact ⟨fun _ => haxis, by simp [hsfc], by simp [hsfc], hsmall⟩
      · rintro ⟨haxis, -, -, hsmall⟩
        exact ⟨⟨_, if_neg (haxis homp)⟩, hsmall⟩
  | sfc =>
      have homp : loop.isOmp = false := by simp [Loop.isOmp, hmode]
      have hsfc : loop.isSfc = true := by simp [Loop.isSfc, hmode]
      simp only [step, hmode]
      -- the stage that the scan keeps stands for the loops it has seen
      rw [exists_bind_guard_iff, hindex, exists_sfc_iff, h.sfcRank_le_iff]
      constructor
      · rintro ⟨⟨haxis, horder⟩, hsmall⟩
        exact ⟨by simp [homp], fun _ => haxis, fun _ => horder, hsmall⟩
      · rintro ⟨-, haxis, horder, hsmall⟩
        exact ⟨⟨haxis hsfc, horder hsfc⟩, hsmall⟩
  | seq | prim =>
      have homp : loop.isOmp = false := by simp [Loop.isOmp, hmode]
      have hsfc : loop.isSfc = false := by simp [Loop.isSfc, hmode]
      simp only [step, hmode]
      rw [exists_bind_guard_iff, hindex]
      constructor
      · rintro ⟨-, hsmall⟩
        exact ⟨by simp [homp], by simp [hsfc], by simp [hsfc], hsmall⟩
      · rintro ⟨-, -, -, hsmall⟩
        exact ⟨⟨scan, rfl⟩, hsmall⟩

/-- A scan ends exactly for admissible loops. -/
theorem exists_run_iff (rest : List Loop) (h : scan.Tight seen) (hreads : scan.Reads seen)
    (hseen : Admissible seen) :
    (∃ next, scan.run seen.length rest = .ok next) ↔ Admissible (seen ++ rest) := by
  -- induction on what is left, with the scan tight for what was seen
  induction rest generalizing scan seen with
  | nil =>
      rw [List.append_nil]
      exact ⟨fun _ => hseen, fun _ => ⟨scan, rfl⟩⟩
  | cons loop rest ih =>
      have hcons : seen ++ loop :: rest = (seen ++ [loop]) ++ rest := by simp
      have hlength : seen.length + 1 = (seen ++ [loop]).length := by simp
      constructor
      · rintro ⟨next, hnext⟩
        obtain ⟨middle, hmiddle, hnext⟩ := bind_eq_ok.1 hnext
        have hloop := (exists_step_iff h).1 ⟨middle, hmiddle⟩
        rw [hcons, ← ih (step_tight h hreads hmiddle) (step_reads hreads hmiddle)
          (admissible_snoc_iff.2 ⟨hseen, hloop⟩), ← hlength]
        exact ⟨next, hnext⟩
      · intro hall
        rw [hcons] at hall
        have hsnoc := hall.of_append
        obtain ⟨middle, hmiddle⟩ := (exists_step_iff h).2 (admissible_snoc_iff.1 hsnoc).2
        obtain ⟨next, hnext⟩ :=
          (ih (step_tight h hreads hmiddle) (step_reads hreads hmiddle) hsnoc).2 hall
        rw [← hlength] at hnext
        exact ⟨next, bind_eq_ok.2 ⟨middle, hmiddle, hnext⟩⟩

theorem run_tight {rest : List Loop} (h : scan.Tight seen) (hreads : scan.Reads seen)
    (hnext : scan.run seen.length rest = .ok next) : next.Tight (seen ++ rest) := by
  induction rest generalizing scan seen with
  | nil =>
      obtain rfl := Except.ok.inj hnext
      rwa [List.append_nil]
  | cons loop rest ih =>
      obtain ⟨middle, hmiddle, hnext⟩ := bind_eq_ok.1 hnext
      have hlength : seen.length + 1 = (seen ++ [loop]).length := by simp
      rw [hlength] at hnext
      have htight := ih (step_tight h hreads hmiddle) (step_reads hreads hmiddle) hnext
      rwa [List.append_assoc, List.singleton_append] at htight

/-! ## What the counts admit -/

theorem isSfcOn_imp {axis : Axis} (loop : Loop) (h : loop.isSfcOn axis = true) :
    loop.isSfc = true := (Bool.and_eq_true_iff.1 h).1

end Layout.Scan

/-- Ordered SFC loops without a gap have none on any axis. -/
theorem Admissible.consecutive_isSfcOn {loops : List Loop} (h : Admissible loops)
    (hrun : Consecutive Loop.isSfc loops) (axis : Axis) :
    Consecutive (Loop.isSfcOn axis) loops := by
  intro i j k hij hjk hi hk
  obtain ⟨y, hy, hsfc⟩ :=
    hrun i j k hij hjk (hi.imp Layout.Scan.isSfcOn_imp) (hk.imp Layout.Scan.isSfcOn_imp)
  obtain ⟨x, hx, hpx⟩ := hi
  obtain ⟨z, hz, hpz⟩ := hk
  -- the rank of the loop between lies between equal ranks
  have hle : ∀ {a b : Nat} {u v : Loop}, a ≤ b → loops[a]? = some u → loops[b]? = some v →
      u.isSfc = true → v.isSfc = true → u.axis.curveRank ≤ v.axis.curveRank := by
    intro a b u v hab hu hv hpu hpv
    obtain ⟨ha, rfl⟩ := List.getElem?_eq_some_iff.1 hu
    obtain ⟨hb, rfl⟩ := List.getElem?_eq_some_iff.1 hv
    rcases Nat.eq_or_lt_of_le hab with rfl | hlt
    · exact Nat.le_refl _
    · exact List.pairwise_iff_getElem.1 h.sfcOrder a b ha hb hlt hpu hpv
  simp only [Loop.isSfcOn, Bool.and_eq_true, decide_eq_true_eq] at hpx hpz ⊢
  have hlow := hle hij hx hy hpx.1 hsfc
  have hhigh := hle hjk hy hz hsfc hpz.1
  rw [hpx.2] at hlow
  rw [hpz.2] at hhigh
  have hranks : y.axis.curveRank = axis.curveRank := Nat.le_antisymm hhigh hlow
  have hyaxis := h.sfcAxis y (List.mem_of_getElem? hy) hsfc
  have hxaxis := h.sfcAxis x (List.mem_of_getElem? hx) hpx.1
  rw [hpx.2] at hxaxis
  have haxis : y.axis = axis := by
    rcases hyaxis with hyaxis | hyaxis | hyaxis <;> rcases hxaxis with rfl | rfl | rfl <;>
      simp [hyaxis, Axis.curveRank] at hranks ⊢
  exact ⟨y, hy, by simp [Loop.isSfcOn, hsfc, haxis]⟩

namespace Layout

namespace Scan

variable {scan : Scan} {loops : List Loop}

/-- The first SFC loop is in front of all others. -/
theorem ReadsSfc.first_le (h : scan.ReadsSfc loops) {first : Nat}
    (hfirst : scan.sfcFirst = some first) {i : Nat} (hi : LoopAt Loop.isSfc loops i) :
    first ≤ i := by
  obtain ⟨-, -, hbefore⟩ := h.firstMet first hfirst
  obtain ⟨loop, hloop, hp⟩ := hi
  obtain ⟨hlt, rfl⟩ := List.getElem?_eq_some_iff.1 hloop
  by_contra hlow
  have hmem : loops[i] ∈ loops.take first := List.mem_take_iff_getElem.2 ⟨i, by omega, rfl⟩
  rw [hbefore _ hmem] at hp
  cases hp

theorem exists_stop_eq_sfcLast (scan : Scan) :
    ∃ axis, (scan.layout.sfcSpan axis).stop = scan.sfcLast := by
  have hmax : scan.sfcLast = scan.layout.n.stop ∨ scan.sfcLast = scan.layout.m.stop ∨
      scan.sfcLast = scan.layout.k.stop := by
    unfold sfcLast
    omega
  rcases hmax with h | h | h
  · exact ⟨.n, h.symm⟩
  · exact ⟨.m, h.symm⟩
  · exact ⟨.k, h.symm⟩

/-- The span from the first SFC loop to the last stop covers the SFC loops and is tight. -/
theorem curve_ends (hreads : scan.ReadsSfc loops) (h : scan.Tight loops) {first : Nat}
    (hfirst : scan.sfcFirst = some first) :
    Span.Covers ⟨first, scan.sfcLast⟩ Loop.isSfc loops ∧
      Span.Ends ⟨first, scan.sfcLast⟩ Loop.isSfc loops := by
  have hmet := h.first first hfirst
  have hlt : first < scan.sfcLast := by
    obtain ⟨loop, hloop, hp⟩ := hmet
    have hon : LoopAt (Loop.isSfcOn loop.axis) loops first :=
      ⟨loop, hloop, by simp [Loop.isSfcOn, hp]⟩
    exact ((hreads.covers loop.axis).bounds hon).2.trans_le (scan.sfcSpan_stop_le loop.axis)
  refine ⟨hreads.covers_curve hfirst hlt.le, Or.inr ⟨hlt, hmet, ?_⟩⟩
  obtain ⟨axis, hstop⟩ := scan.exists_stop_eq_sfcLast
  rcases h.sfc axis with hempty | ⟨-, -, hlast⟩
  · rw [hempty] at hstop
    exact absurd hstop (Nat.ne_of_lt (Nat.zero_lt_of_lt hlt))
  · rw [hstop] at hlast
    exact hlast.imp isSfcOn_imp

/-- Some loop is an OMP loop if the scan counts any. -/
theorem ompLoops_pos_iff (hreads : scan.Reads loops) :
    0 < scan.ompLoops ↔ ∃ i, LoopAt Loop.isOmp loops i := by
  rw [hreads.omp.count, List.countP_pos_iff]
  constructor
  · rintro ⟨loop, hloop, hp⟩
    obtain ⟨i, hi⟩ := List.mem_iff_getElem?.1 hloop
    exact ⟨i, loop, hi, hp⟩
  · rintro ⟨i, loop, hi, hp⟩
    exact ⟨loop, List.mem_of_getElem? hi, hp⟩

/-- Without a first SFC loop there is none. -/
theorem not_isSfcAt (hreads : scan.Reads loops) (hfirst : scan.sfcFirst = none) (i : Nat) :
    ¬LoopAt Loop.isSfc loops i := by
  rintro ⟨loop, hloop, hp⟩
  have hzero := List.countP_eq_zero.1 (hreads.sfc.count.symm.trans (hreads.sfc.noneMet hfirst).1)
  exact hzero loop (List.mem_of_getElem? hloop) hp

/-- OMP loops are a tight span, of which the last one ends the span. -/
theorem exists_last_omp (hreads : scan.Reads loops) (h : scan.Tight loops) {i : Nat}
    (hi : LoopAt Loop.isOmp loops i) :
    0 < scan.layout.omp.stop ∧ LoopAt Loop.isOmp loops (scan.layout.omp.stop - 1) ∧
      ∀ x, LoopAt Loop.isOmp loops x → x ≤ scan.layout.omp.stop - 1 := by
  have hbound := fun x hx => (hreads.omp.covers.bounds (i := x) hx).2
  refine ⟨Nat.zero_lt_of_lt (hbound i hi), ?_, fun x hx => Nat.le_sub_one_of_lt (hbound x hx)⟩
  rcases h.omp with hempty | ⟨-, -, hend⟩
  · have hlt := hbound i hi
    rw [hempty] at hlt
    exact absurd hlt (Nat.not_lt_zero i)
  · exact hend

/-- A scan of admissible loops is closed exactly if they are arranged. -/
theorem closed_iff (hreads : scan.Reads loops) (h : scan.Tight loops) (hloops : Admissible loops) :
    scan.Closed ↔ Arranged loops := by
  have homp : scan.layout.omp.length = scan.ompLoops ↔ Consecutive Loop.isOmp loops := by
    rw [hreads.omp.count]
    exact hreads.omp.covers.length_eq_iff h.omp
  have hcurve : ∀ first, scan.sfcFirst = some first →
      (scan.sfcLast - first = scan.sfcLoops ↔ Consecutive Loop.isSfc loops) := by
    intro first hfirst
    obtain ⟨hcovers, hends⟩ := curve_ends hreads.sfc h hfirst
    rw [hreads.sfc.count]
    exact hcovers.length_eq_iff hends
  constructor
  · intro hclosed
    refine ⟨hloops, homp.1 hclosed.omp, ?_, fun i j hi hlast hj hleast => ?_⟩
    · cases hfirst : scan.sfcFirst with
      | none => exact fun i _ _ _ _ hi => absurd hi (not_isSfcAt hreads hfirst i)
      | some first => exact (hcurve first hfirst).1 (hclosed.sfc first hfirst).2
    · cases hfirst : scan.sfcFirst with
      | none => exact absurd hj (not_isSfcAt hreads hfirst j)
      | some first =>
          -- the two loops are the end of the OMP span and the first SFC loop
          obtain ⟨hpos, hend, -⟩ := exists_last_omp hreads h hi
          have hstop := hclosed.attached first hfirst ((ompLoops_pos_iff hreads).2 ⟨i, hi⟩)
          have hbound := (hreads.omp.covers.bounds hi).2
          have hle := hlast _ hend
          have hj' : j = first :=
            Nat.le_antisymm (hleast first (h.first first hfirst)) (hreads.sfc.first_le hfirst hj)
          omega
  · intro harranged
    refine ⟨homp.2 harranged.ompRun, fun first hfirst => ⟨?_, ?_⟩, fun first hfirst hlt => ?_⟩
    · have hlength : ∀ axis, (scan.layout.sfcSpan axis).length =
          loops.countP (Loop.isSfcOn axis) := fun axis =>
        ((hreads.sfc.covers axis).length_eq_iff (h.sfc axis)).2
          (hloops.consecutive_isSfcOn harranged.sfcRun axis)
      rw [hreads.sfc.count, hreads.sfc.countP_eq, ← hlength, ← hlength, ← hlength]
      rfl
    · exact (hcurve first hfirst).2 harranged.sfcRun
    · obtain ⟨i, hi⟩ := (ompLoops_pos_iff hreads).1 hlt
      obtain ⟨hpos, hend, hlast⟩ := exists_last_omp hreads h hi
      have hjoin := harranged.attached _ first hend hlast (h.first first hfirst)
        fun x hx => hreads.sfc.first_le hfirst hx
      omega

end Scan

/-- The layout of a loop list exists exactly if the loops are arranged. -/
theorem exists_ofLoops_iff {loops : List Loop} {threads : ThreadGrid} :
    (∃ layout, Layout.ofLoops loops threads = .ok layout) ↔ Arranged loops := by
  have htight := Scan.tight_nil loops threads.atLeastOne
  have hreads := Scan.reads_nil loops threads.atLeastOne
  have hrun := Scan.exists_run_iff loops htight hreads admissible_nil
  rw [List.nil_append] at hrun
  have hclosed : ∀ {scan : Scan},
      Scan.run { layout := { loops := loops, threads := threads.atLeastOne } } 0 loops = .ok scan →
      (scan.Closed ↔ Arranged loops) := by
    intro scan hscan
    have hreads' := (Scan.run_reads hreads rfl hscan).1
    have htight' := Scan.run_tight htight hreads hscan
    rw [List.nil_append] at hreads' htight'
    exact Scan.closed_iff hreads' htight' (hrun.1 ⟨scan, hscan⟩)
  constructor
  · rintro ⟨layout, hlayout⟩
    obtain ⟨scan, hscan, hlayout⟩ := bind_eq_ok.1 hlayout
    exact (hclosed hscan).1 (Scan.finish_eq_ok_iff.1 hlayout).1
  · intro harranged
    obtain ⟨scan, hscan⟩ := hrun.2 harranged.toAdmissible
    have hfinish : scan.finish = .ok scan.layout :=
      Scan.finish_eq_ok_iff.2 ⟨(hclosed hscan).2 harranged, rfl⟩
    exact ⟨scan.layout, bind_eq_ok.2 ⟨scan, hscan, hfinish⟩⟩

/-- The spans and the numbers of tasks of a layout are those of a loop list: the span of a kind of
loops is the interval of their indices, the number of its tasks the product of their sizes. -/
structure Describes (layout : Layout) (loops : List Loop) : Prop where
  omp : ∀ i, LoopAt Loop.isOmp loops i ↔ layout.omp.start ≤ i ∧ i < layout.omp.stop
  m : ∀ i, LoopAt (Loop.isSfcOn .m) loops i ↔ layout.m.start ≤ i ∧ i < layout.m.stop
  n : ∀ i, LoopAt (Loop.isSfcOn .n) loops i ↔ layout.n.start ≤ i ∧ i < layout.n.stop
  k : ∀ i, LoopAt (Loop.isSfcOn .k) loops i ↔ layout.k.start ≤ i ∧ i < layout.k.stop
  ompTasks : layout.ompTasks = Program.sizeWhere loops Loop.isOmp
  mTasks : layout.mTasks = Program.sizeWhere loops (Loop.isSfcOn .m)
  nTasks : layout.nTasks = Program.sizeWhere loops (Loop.isSfcOn .n)
  kTasks : layout.kTasks = Program.sizeWhere loops (Loop.isSfcOn .k)

theorem Sound.describes {layout : Layout} (h : layout.Sound) : layout.Describes layout.loops where
  omp := h.omp.loopAt_iff
  m := (h.sfc .m).loopAt_iff
  n := (h.sfc .n).loopAt_iff
  k := (h.sfc .k).loopAt_iff
  ompTasks := h.ompTasks
  mTasks := h.sfcTasks .m
  nTasks := h.sfcTasks .n
  kTasks := h.sfcTasks .k

/-- A loop list has a layout, for any numbers of threads, exactly if its parallel loops are arranged,
and the layout is that of the list. -/
theorem ofLoops_iff_arranged (loops : List Loop) (threads : ThreadGrid) :
    ((∃ layout, Layout.ofLoops loops threads = .ok layout) ↔ Arranged loops) ∧
      ∀ layout, Layout.ofLoops loops threads = .ok layout →
        layout.Describes loops ∧ layout.loops = loops ∧ layout.threads = threads.atLeastOne := by
  refine ⟨exists_ofLoops_iff, fun layout hlayout => ?_⟩
  obtain ⟨hsound, hloops, hthreads⟩ := ofLoops_sound hlayout
  exact ⟨hloops ▸ hsound.describes, hloops, hthreads⟩

/-- Two OMP loops, an N loop and a K loop of the curve between two sequential loops. -/
def twoRuns : List Loop :=
  [⟨.k, .seq, 2, ⟨8, 1, 0, 0⟩, 0, 0⟩, ⟨.m, .omp, 4, ⟨2, 0, 0, 1⟩, 0, 0⟩,
    ⟨.n, .omp, 3, ⟨0, 4, 0, 4⟩, 0, 0⟩, ⟨.n, .sfc, 5, ⟨0, 4, 0, 4⟩, 0, 0⟩,
    ⟨.k, .sfc, 7, ⟨1, 1, 0, 0⟩, 0, 0⟩, ⟨.m, .seq, 2, ⟨1, 0, 0, 1⟩, 0, 0⟩]

/-- The layout of `twoRuns` for no thread in any direction, which means one. -/
def twoRunsLayout : Layout :=
  ⟨twoRuns, ⟨1, 1, 1⟩, ⟨1, 3⟩, {}, ⟨3, 4⟩, ⟨4, 5⟩, 12, 1, 5, 7⟩

theorem ofLoops_iff_arranged_twoRuns :
    Layout.ofLoops twoRuns ⟨0, 0, 0⟩ = .ok twoRunsLayout ∧ Arranged twoRuns ∧
      twoRunsLayout.Describes twoRuns := by
  have hlayout : Layout.ofLoops twoRuns ⟨0, 0, 0⟩ = .ok twoRunsLayout := by rfl
  obtain ⟨hiff, hdescribes⟩ := ofLoops_iff_arranged twoRuns ⟨0, 0, 0⟩
  exact ⟨hlayout, hiff.1 ⟨_, hlayout⟩, (hdescribes _ hlayout).1⟩

end Layout

end LoopNest
