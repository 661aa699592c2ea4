import LoopNest.Program
import LoopNest.Proofs.Checked
import LoopNest.Proofs.Offsets

/-!
# The runs of a loop list

A layout that was accepted cuts its loop list into runs: sequential loops, OMP loops, SFC loops,
sequential loops, kernel loops (`Layout.Sound.exists_cut`).

The scan of the list keeps, for every kind of parallel loops, a span outside which there is no loop
of the kind (`Span.Covers`). A span that is not longer than the number of these loops holds nothing
else (`Span.Covers.marks`). Counting is all that the scan does at its end, and it is enough.
-/

namespace LoopNest

namespace Loop

/-- Whether a loop belongs to the flat index. -/
def isOmp (loop : Loop) : Bool := loop.mode = .omp

/-- Whether a loop belongs to the curve. -/
def isSfc (loop : Loop) : Bool := loop.mode = .sfc

/-- Whether a loop belongs to an axis of the curve. -/
def isSfcOn (axis : Axis) (loop : Loop) : Bool := loop.isSfc && loop.axis = axis

end Loop

/-! ## Spans -/

namespace Span

/-- The loops of a span. -/
def slice (span : Span) (loops : List Loop) : List Loop :=
  (loops.drop span.start).take span.length

/-- A span outside which no loop has a property. -/
structure Covers (span : Span) (p : Loop → Bool) (loops : List Loop) : Prop where
  le : span.start ≤ span.stop
  stop_le : span.stop ≤ loops.length
  before : ∀ loop ∈ loops.take span.start, p loop = false
  after : ∀ loop ∈ loops.drop span.stop, p loop = false

/-- A span that holds exactly the loops with a property. -/
structure Marks (span : Span) (p : Loop → Bool) (loops : List Loop) : Prop extends
    Covers span p loops where
  inside : ∀ loop ∈ span.slice loops, p loop = true

namespace Covers

variable {span : Span} {p : Loop → Bool} {loops : List Loop}

theorem nil (p : Loop → Bool) : Covers {} p [] :=
  ⟨Nat.le_refl 0, Nat.le_refl 0, by simp, by simp⟩

/-- A loop without the property may follow. -/
theorem snoc_of_not (h : Covers span p loops) {loop : Loop} (hloop : p loop = false) :
    Covers span p (loops ++ [loop]) := by
  have hstart : span.start ≤ loops.length := h.le.trans h.stop_le
  refine ⟨h.le, h.stop_le.trans (by simp), ?_, ?_⟩
  · rw [List.take_append_of_le_length hstart]
    exact h.before
  · rw [List.drop_append_of_le_length h.stop_le]
    intro x hx
    rcases List.mem_append.1 hx with hx | hx
    · exact h.after x hx
    · exact (List.mem_singleton.1 hx) ▸ hloop

/-- A loop that follows is covered by the extended span. -/
theorem snoc (h : Covers span p loops) (loop : Loop) :
    Covers (span.extend loops.length) p (loops ++ [loop]) := by
  have hstart : span.start ≤ loops.length := h.le.trans h.stop_le
  have hafter : ∀ x ∈ (loops ++ [loop]).drop (loops.length + 1), p x = false := by
    simp [List.drop_eq_nil_of_le]
  unfold extend
  by_cases hempty : span.isEmpty = true
  · have heq : span.start = span.stop := of_decide_eq_true hempty
    rw [if_pos hempty]
    refine ⟨Nat.le_succ _, by simp, ?_, hafter⟩
    rw [List.take_left' rfl]
    intro x hx
    rw [← List.take_append_drop span.start loops] at hx
    rcases List.mem_append.1 hx with hx | hx
    · exact h.before x hx
    · exact h.after x (heq ▸ hx)
  · rw [if_neg hempty]
    refine ⟨by dsimp only; omega, by simp, ?_, hafter⟩
    rw [List.take_append_of_le_length hstart]
    exact h.before

theorem append_slice (h : Covers span p loops) :
    loops.take span.start ++ (span.slice loops ++ loops.drop span.stop) = loops := by
  have hstop : span.stop = span.start + span.length := by
    have := h.le
    unfold length
    omega
  rw [hstop, ← List.drop_drop, slice, List.take_append_drop, List.take_append_drop]

theorem length_slice (h : Covers span p loops) : (span.slice loops).length = span.length := by
  have hle := h.le
  have hstop := h.stop_le
  unfold slice length
  rw [List.length_take, List.length_drop]
  omega

/-- All loops with the property are in the span. -/
theorem filter_eq (h : Covers span p loops) : loops.filter p = (span.slice loops).filter p := by
  have hnone : ∀ {xs : List Loop}, (∀ x ∈ xs, p x = false) → xs.filter p = [] := fun hxs =>
    List.filter_eq_nil_iff.2 fun x hx => by simp [hxs x hx]
  conv_lhs => rw [← h.append_slice, List.filter_append, List.filter_append, hnone h.before,
    hnone h.after, List.append_nil, List.nil_append]

theorem countP_le (h : Covers span p loops) : loops.countP p ≤ span.length := by
  rw [List.countP_eq_length_filter, h.filter_eq, ← h.length_slice]
  exact List.length_filter_le _ _

/-- A span that is no longer than the number of the loops it covers holds nothing else. -/
theorem marks (h : Covers span p loops) (hcount : span.length ≤ loops.countP p) :
    Marks span p loops := by
  refine ⟨h, fun loop hloop => List.length_filter_eq_length_iff.1 ?_ loop hloop⟩
  rw [← h.filter_eq, ← List.countP_eq_length_filter, h.length_slice]
  exact Nat.le_antisymm h.countP_le hcount

end Covers

theorem Marks.filter_eq {span : Span} {p : Loop → Bool} {loops : List Loop}
    (h : Marks span p loops) : loops.filter p = span.slice loops := by
  rw [h.toCovers.filter_eq, List.filter_eq_self]
  exact h.inside

/-- A span without loops marks a property that no loop has. -/
theorem Marks.eq_false_of_length {span : Span} {p : Loop → Bool} {loops : List Loop}
    (h : Marks span p loops) (hzero : span.length = 0) : ∀ loop ∈ loops, p loop = false := by
  intro loop hloop
  have hfilter := h.filter_eq
  rw [List.eq_nil_of_length_eq_zero (h.toCovers.length_slice.trans hzero),
    List.filter_eq_nil_iff] at hfilter
  simpa using hfilter loop hloop

end Span

/-! ## The scan -/

namespace Layout

/-- The span of an SFC axis; other axes have none. -/
def sfcSpan (layout : Layout) : Axis → Span
  | .m => layout.m
  | .n => layout.n
  | .k => layout.k
  | _ => {}

/-- Number of tasks of an SFC axis. -/
def sfcTasks (layout : Layout) : Axis → Int
  | .m => layout.mTasks
  | .n => layout.nTasks
  | .k => layout.kTasks
  | _ => 1

end Layout

theorem sizeWhere_eq_prod (loops : List Loop) (p : Loop → Bool) :
    Program.sizeWhere loops p = ((loops.filter p).map Loop.size).prod := List.prod_eq_foldl.symm

theorem sizeWhere_snoc (loops : List Loop) (p : Loop → Bool) (loop : Loop) :
    Program.sizeWhere (loops ++ [loop]) p =
      if p loop then Program.sizeWhere loops p * loop.size else Program.sizeWhere loops p := by
  rw [sizeWhere_eq_prod, sizeWhere_eq_prod, List.filter_append]
  cases h : p loop with
  | true => simp [h]
  | false => simp [h]

namespace Layout.Scan

/-- What a scan knows of the OMP loops among those it has taken in. -/
structure ReadsOmp (scan : Scan) (seen : List Loop) : Prop where
  covers : scan.layout.omp.Covers Loop.isOmp seen
  tasks : scan.layout.ompTasks = Program.sizeWhere seen Loop.isOmp
  count : scan.ompLoops = seen.countP Loop.isOmp
  axis : ∀ loop ∈ seen, loop.isOmp = true → loop.axis ≠ .k

/-- What a scan knows of the SFC loops among those it has taken in. -/
structure ReadsSfc (scan : Scan) (seen : List Loop) : Prop where
  covers : ∀ axis, (scan.layout.sfcSpan axis).Covers (Loop.isSfcOn axis) seen
  tasks : ∀ axis, scan.layout.sfcTasks axis = Program.sizeWhere seen (Loop.isSfcOn axis)
  count : scan.sfcLoops = seen.countP Loop.isSfc
  noneMet : scan.sfcFirst = none → scan.sfcLoops = 0 ∧ scan.layout.sfcCount = 0
  firstMet : ∀ first, scan.sfcFirst = some first →
    0 < scan.sfcLoops ∧ first ≤ seen.length ∧ ∀ loop ∈ seen.take first, loop.isSfc = false

/-- What a scan knows of the loops it has taken in. -/
structure Reads (scan : Scan) (seen : List Loop) : Prop where
  omp : scan.ReadsOmp seen
  sfc : scan.ReadsSfc seen
  small : ∀ i (h : i < seen.length), seen[i].isParallel = true → i ≤ maxLoopIndex

theorem reads_nil (loops : List Loop) (threads : ThreadGrid) :
    Reads { layout := { loops := loops, threads := threads } } [] where
  omp := ⟨.nil _, rfl, rfl, by simp⟩
  sfc := {
    covers := fun axis => by cases axis <;> exact .nil _
    tasks := fun axis => by cases axis <;> rfl
    count := rfl
    noneMet := fun _ => ⟨rfl, rfl⟩
    firstMet := fun _ h => by cases h }
  small i h := by simp at h

variable {scan next : Scan} {seen : List Loop} {loop : Loop}

/-- A loop that is no OMP loop leaves what is known of the OMP loops. -/
theorem ReadsOmp.snoc_of_not (h : scan.ReadsOmp seen) (hloop : loop.isOmp = false)
    (hspan : next.layout.omp = scan.layout.omp)
    (htasks : next.layout.ompTasks = scan.layout.ompTasks)
    (hcount : next.ompLoops = scan.ompLoops) : next.ReadsOmp (seen ++ [loop]) where
  covers := hspan ▸ h.covers.snoc_of_not hloop
  tasks := by rw [htasks, h.tasks, sizeWhere_snoc, hloop]; rfl
  count := by rw [hcount, h.count, List.countP_append]; simp [hloop]
  axis := by
    intro x hx hp
    rcases List.mem_append.1 hx with hx | hx
    · exact h.axis x hx hp
    · rw [List.mem_singleton.1 hx, hloop] at hp
      cases hp

/-- A loop that is no SFC loop leaves what is known of the SFC loops. -/
theorem ReadsSfc.snoc_of_not (h : scan.ReadsSfc seen) (hloop : loop.isSfc = false)
    (hspan : ∀ axis, next.layout.sfcSpan axis = scan.layout.sfcSpan axis)
    (htasks : ∀ axis, next.layout.sfcTasks axis = scan.layout.sfcTasks axis)
    (hcount : next.sfcLoops = scan.sfcLoops) (hfirst : next.sfcFirst = scan.sfcFirst) :
    next.ReadsSfc (seen ++ [loop]) := by
  have hon : ∀ axis, loop.isSfcOn axis = false := fun axis => by simp [Loop.isSfcOn, hloop]
  have hsum : next.layout.sfcCount = scan.layout.sfcCount := by
    have hn : next.layout.n = scan.layout.n := hspan .n
    have hm : next.layout.m = scan.layout.m := hspan .m
    have hk : next.layout.k = scan.layout.k := hspan .k
    rw [sfcCount, sfcCount, hn, hm, hk]
  refine ⟨fun axis => ?_, fun axis => ?_, ?_, ?_, fun first => ?_⟩
  · exact hspan axis ▸ (h.covers axis).snoc_of_not (hon axis)
  · rw [htasks, h.tasks, sizeWhere_snoc, hon]
    rfl
  · rw [hcount, h.count, List.countP_append]
    simp [hloop]
  · rw [hfirst, hcount, hsum]
    exact h.noneMet
  · rw [hfirst, hcount]
    intro hsome
    obtain ⟨hpos, hle, hbefore⟩ := h.firstMet first hsome
    refine ⟨hpos, hle.trans (by simp), ?_⟩
    rwa [List.take_append_of_le_length hle]

theorem omp_reads {index : Nat} (h : scan.ReadsOmp seen) (hloop : loop.isOmp = true)
    (hindex : index = seen.length) (hnext : scan.omp index loop = .ok next) :
    next.ReadsOmp (seen ++ [loop]) := by
  obtain ⟨haxis, hnext⟩ := guard_eq_ok.1 hnext
  obtain rfl := Except.ok.inj hnext
  subst hindex
  refine ⟨h.covers.snoc loop, ?_, ?_, ?_⟩
  · rw [sizeWhere_snoc, hloop, ← h.tasks]
    rfl
  · rw [List.countP_append, ← h.count]
    simp [hloop]
  · intro x hx hp
    rcases List.mem_append.1 hx with hx | hx
    · exact h.axis x hx hp
    · rw [List.mem_singleton.1 hx]
      exact haxis

/-- An SFC loop extends the span of its axis and leaves everything else. -/
theorem sfcLayout_spec {layout result : Layout} {index rank : Nat}
    (h : sfcLayout layout index loop = some (rank, result)) :
    (result.omp = layout.omp ∧ result.ompTasks = layout.ompTasks ∧ result.loops = layout.loops ∧
      result.threads = layout.threads) ∧
    ∀ axis,
      result.sfcSpan axis = (if loop.axis = axis then (layout.sfcSpan axis).extend index
        else layout.sfcSpan axis) ∧
      result.sfcTasks axis = if loop.axis = axis then layout.sfcTasks axis * loop.size
        else layout.sfcTasks axis := by
  unfold sfcLayout at h
  split at h
  case h_4 => cases h
  all_goals
    rename_i haxis
    obtain ⟨-, rfl⟩ := Prod.mk.inj (Option.some.inj h)
    refine ⟨⟨rfl, rfl, rfl, rfl⟩, fun axis => ?_⟩
    cases axis <;> exact ⟨by simp [haxis, sfcSpan], by simp [haxis, sfcTasks]⟩

/-- An SFC loop is taken in if its axis has a place on the curve and is not too late there. -/
theorem sfc_eq_ok_iff {index : Nat} :
    scan.sfc index loop = .ok next ↔
      ∃ rank layout, sfcLayout scan.layout index loop = some (rank, layout) ∧
        scan.sfcRank ≤ rank ∧ next = { scan with
          layout := layout
          sfcLoops := scan.sfcLoops + 1
          sfcFirst := some (scan.sfcFirst.getD index)
          sfcRank := rank } := by
  unfold Scan.sfc
  cases hlayout : sfcLayout scan.layout index loop with
  | none => simp
  | some found =>
      dsimp only
      rw [guard_eq_ok, not_lt]
      constructor
      · rintro ⟨hle, hnext⟩
        exact ⟨found.1, found.2, rfl, hle, (Except.ok.inj hnext).symm⟩
      · rintro ⟨rank, layout, hfound, hle, rfl⟩
        obtain rfl := Option.some.inj hfound
        exact ⟨hle, rfl⟩

theorem sfc_reads {index : Nat} (h : scan.ReadsSfc seen) (hloop : loop.isSfc = true)
    (hindex : index = seen.length) (hnext : scan.sfc index loop = .ok next) :
    next.ReadsSfc (seen ++ [loop]) ∧ next.layout.omp = scan.layout.omp ∧
      next.layout.ompTasks = scan.layout.ompTasks ∧ next.ompLoops = scan.ompLoops := by
  subst hindex
  obtain ⟨rank, layout, hlayout, -, rfl⟩ := sfc_eq_ok_iff.1 hnext
  obtain ⟨⟨homp, htasks, -, -⟩, haxes⟩ := sfcLayout_spec hlayout
  refine ⟨⟨fun axis => ?_, fun axis => ?_, ?_, ?_, ?_⟩, homp, htasks, rfl⟩
  · rw [(haxes axis).1]
    split
    · exact (h.covers axis).snoc loop
    · rename_i hne
      exact (h.covers axis).snoc_of_not (by simp [Loop.isSfcOn, hne])
  · rw [(haxes axis).2, sizeWhere_snoc, h.tasks axis, Loop.isSfcOn, hloop]
    simp
  · rw [List.countP_append, ← h.count]
    simp [hloop]
  · intro hnone
    cases hnone
  · intro first hfirst
    obtain rfl := Option.some.inj hfirst
    refine ⟨Nat.succ_pos _, ?_⟩
    -- the first SFC loop of the prefix stays the first one
    cases hold : scan.sfcFirst with
    | none =>
        have hzero : seen.countP Loop.isSfc = 0 := h.count ▸ (h.noneMet hold).1
        rw [Option.getD_none]
        refine ⟨by simp, ?_⟩
        rw [List.take_left' rfl]
        intro x hx
        simpa using List.countP_eq_zero.1 hzero x hx
    | some old =>
        obtain ⟨-, hle, hbefore⟩ := h.firstMet old hold
        rw [Option.getD_some]
        refine ⟨hle.trans (by simp), ?_⟩
        rwa [List.take_append_of_le_length hle]

/-- A step takes in the loop by its mode, and refuses a parallel loop with a large index. -/
theorem step_eq_ok {index : Nat} (h : scan.step index loop = .ok next) :
    (match loop.mode with
      | .omp => scan.omp index loop
      | .sfc => scan.sfc index loop
      | .seq | .prim => .ok scan) = .ok next ∧
      (loop.isParallel = true → index ≤ maxLoopIndex) := by
  unfold step at h
  cases hmode : loop.mode <;> simp only [hmode] at h ⊢ <;>
    obtain ⟨middle, hmiddle, h⟩ := bind_eq_ok.1 h <;>
    obtain ⟨hindex, h⟩ := guard_eq_ok.1 h <;>
    obtain rfl := Except.ok.inj h <;>
    exact ⟨hmiddle, fun hparallel => by simpa [hparallel] using hindex⟩

/-- The scan of one more loop. -/
theorem step_reads (h : scan.Reads seen) (hnext : scan.step seen.length loop = .ok next) :
    next.Reads (seen ++ [loop]) := by
  obtain ⟨hmiddle, hindex⟩ := step_eq_ok hnext
  have hsmall : ∀ i (hi : i < (seen ++ [loop]).length), (seen ++ [loop])[i].isParallel = true →
      i ≤ maxLoopIndex := by
    intro i hi hparallel
    rcases Nat.lt_or_ge i seen.length with hlt | hge
    · rw [List.getElem_append_left hlt] at hparallel
      exact h.small i hlt hparallel
    · have hlast : i = seen.length := by
        rw [List.length_append, List.length_singleton] at hi
        omega
      subst hlast
      rw [List.getElem_append_right (Nat.le_refl _)] at hparallel
      exact hindex (by simpa using hparallel)
  -- a run is extended by a loop of its own mode and kept by all others
  cases hmode : loop.mode with
  | omp =>
      simp only [hmode] at hmiddle
      have hreads := omp_reads h.omp (by simp [Loop.isOmp, hmode]) rfl hmiddle
      obtain ⟨-, hmiddle⟩ := guard_eq_ok.1 hmiddle
      obtain rfl := Except.ok.inj hmiddle
      exact ⟨hreads, h.sfc.snoc_of_not (by simp [Loop.isSfc, hmode]) (fun _ => rfl)
        (fun _ => rfl) rfl rfl, hsmall⟩
  | sfc =>
      simp only [hmode] at hmiddle
      obtain ⟨hreads, homp, htasks, hcount⟩ :=
        sfc_reads h.sfc (by simp [Loop.isSfc, hmode]) rfl hmiddle
      exact ⟨h.omp.snoc_of_not (by simp [Loop.isOmp, hmode]) homp htasks hcount, hreads, hsmall⟩
  | seq | prim =>
      simp only [hmode] at hmiddle
      obtain rfl := Except.ok.inj hmiddle
      exact ⟨h.omp.snoc_of_not (by simp [Loop.isOmp, hmode]) rfl rfl rfl,
        h.sfc.snoc_of_not (by simp [Loop.isSfc, hmode]) (fun _ => rfl) (fun _ => rfl) rfl rfl,
        hsmall⟩

/-- A scan keeps the loop list and the threads of its layout. -/
theorem step_config {index : Nat} (hnext : scan.step index loop = .ok next) :
    next.layout.loops = scan.layout.loops ∧ next.layout.threads = scan.layout.threads := by
  obtain ⟨hmiddle, -⟩ := step_eq_ok hnext
  cases hmode : loop.mode with
  | omp =>
      simp only [hmode] at hmiddle
      obtain ⟨-, hmiddle⟩ := guard_eq_ok.1 hmiddle
      obtain rfl := Except.ok.inj hmiddle
      exact ⟨rfl, rfl⟩
  | sfc =>
      simp only [hmode] at hmiddle
      obtain ⟨rank, layout, hlayout, -, rfl⟩ := sfc_eq_ok_iff.1 hmiddle
      obtain ⟨⟨-, -, hloops, hthreads⟩, -⟩ := sfcLayout_spec hlayout
      exact ⟨hloops, hthreads⟩
  | seq =>
      simp only [hmode] at hmiddle
      exact Except.ok.inj hmiddle ▸ ⟨rfl, rfl⟩
  | prim =>
      simp only [hmode] at hmiddle
      exact Except.ok.inj hmiddle ▸ ⟨rfl, rfl⟩

/-- The scan of all further loops. -/
theorem run_reads {index : Nat} {loops : List Loop} (h : scan.Reads seen)
    (hindex : index = seen.length) (hnext : scan.run index loops = .ok next) :
    next.Reads (seen ++ loops) ∧ next.layout.loops = scan.layout.loops ∧
      next.layout.threads = scan.layout.threads := by
  induction loops generalizing scan seen index with
  | nil =>
      obtain rfl := Except.ok.inj hnext
      rw [List.append_nil]
      exact ⟨h, rfl, rfl⟩
  | cons loop rest ih =>
      subst hindex
      obtain ⟨middle, hmiddle, hnext⟩ := bind_eq_ok.1 hnext
      obtain ⟨hloops, hthreads⟩ := step_config hmiddle
      obtain ⟨hreads, hloops', hthreads'⟩ := ih (step_reads h hmiddle) (by simp) hnext
      rw [List.append_assoc, List.singleton_append] at hreads
      exact ⟨hreads, hloops'.trans hloops, hthreads'.trans hthreads⟩

/-- SFC loops have one of the axes N, M and K. -/
theorem ReadsSfc.countP_eq (h : scan.ReadsSfc seen) :
    seen.countP Loop.isSfc = seen.countP (Loop.isSfcOn .n) + seen.countP (Loop.isSfcOn .m) +
      seen.countP (Loop.isSfcOn .k) := by
  have haxis : ∀ loop ∈ seen, loop.isSfc = true → loop.axis = .n ∨ loop.axis = .m ∨
      loop.axis = .k := by
    intro loop hloop hsfc
    have hnone := (h.covers loop.axis).after loop
    cases haxis : loop.axis <;> simp_all [sfcSpan, Loop.isSfcOn]
  clear h
  induction seen with
  | nil => rfl
  | cons loop rest ih =>
      rw [List.forall_mem_cons] at haxis
      have hrest := ih haxis.2
      simp only [List.countP_cons, Loop.isSfcOn] at hrest ⊢
      by_cases hsfc : loop.isSfc = true
      · rcases haxis.1 hsfc with ha | ha | ha <;> simp [hsfc, ha] <;> omega
      · simpa [hsfc] using hrest

end Scan

/-! ## Accepted layouts -/

/-- The runs of parallel loops are where the layout says, and nothing else is there. -/
structure Sound (layout : Layout) : Prop where
  omp : layout.omp.Marks Loop.isOmp layout.loops
  ompTasks : layout.ompTasks = Program.sizeWhere layout.loops Loop.isOmp
  ompAxis : ∀ loop ∈ layout.loops, loop.isOmp = true → loop.axis ≠ .k
  sfc : ∀ axis, (layout.sfcSpan axis).Marks (Loop.isSfcOn axis) layout.loops
  sfcTasks : ∀ axis, layout.sfcTasks axis = Program.sizeWhere layout.loops (Loop.isSfcOn axis)
  curve : ∃ span : Span, span.Marks Loop.isSfc layout.loops ∧ span.length = layout.sfcCount ∧
    (layout.omp.length ≠ 0 → span.length ≠ 0 → layout.omp.stop = span.start)
  small : ∀ i (h : i < layout.loops.length), layout.loops[i].isParallel = true → i ≤ maxLoopIndex

/-- The SFC spans hold no more loops than there are, if there are as many altogether. -/
theorem Scan.ReadsSfc.marks {scan : Scan} {seen : List Loop} (h : scan.ReadsSfc seen)
    (hsum : scan.layout.sfcCount = scan.sfcLoops) (axis : Axis) :
    (scan.layout.sfcSpan axis).Marks (Loop.isSfcOn axis) seen := by
  have htotal := h.countP_eq
  have hn := (h.covers .n).countP_le
  have hm := (h.covers .m).countP_le
  have hk := (h.covers .k).countP_le
  rw [← h.count, ← hsum, sfcCount] at htotal
  simp only [sfcSpan] at hn hm hk
  refine (h.covers axis).marks ?_
  cases axis <;> simp only [sfcSpan, Span.length] at * <;> omega

/-- The last stop of an SFC axis. -/
def Scan.sfcLast (scan : Scan) : Nat :=
  max (max scan.layout.n.stop scan.layout.m.stop) scan.layout.k.stop

theorem Scan.sfcSpan_stop_le (scan : Scan) (axis : Axis) :
    (scan.layout.sfcSpan axis).stop ≤ scan.sfcLast := by
  unfold sfcLast
  cases axis <;> simp only [sfcSpan] <;> omega

/-- The loops from the first SFC loop to the end of the last SFC run cover all SFC loops. -/
theorem Scan.ReadsSfc.covers_curve {scan : Scan} {seen : List Loop} (h : scan.ReadsSfc seen)
    {first : Nat} (hfirst : scan.sfcFirst = some first) (hle : first ≤ scan.sfcLast) :
    Span.Covers ⟨first, scan.sfcLast⟩ Loop.isSfc seen := by
  obtain ⟨-, -, hbefore⟩ := h.firstMet first hfirst
  have hn := (h.covers .n).stop_le
  have hm := (h.covers .m).stop_le
  have hk := (h.covers .k).stop_le
  refine ⟨hle, max_le (max_le hn hm) hk, hbefore, fun loop hloop => ?_⟩
  obtain ⟨d, hd⟩ := Nat.exists_eq_add_of_le (scan.sfcSpan_stop_le loop.axis)
  dsimp only at hloop
  rw [hd, ← List.drop_drop] at hloop
  have hnone := (h.covers loop.axis).after loop (List.mem_of_mem_drop hloop)
  simpa [Loop.isSfcOn] using hnone

/-- What is checked when a scan ends. The number of loops of a kind is compared with the length of
their span, so that a span with a gap is found out. -/
structure Scan.Closed (scan : Scan) : Prop where
  omp : scan.layout.omp.length = scan.ompLoops
  sfc : ∀ first, scan.sfcFirst = some first →
    scan.layout.sfcCount = scan.sfcLoops ∧ scan.sfcLast - first = scan.sfcLoops
  attached : ∀ first, scan.sfcFirst = some first → 0 < scan.ompLoops →
    scan.layout.omp.stop = first

theorem Scan.finish_eq_ok_iff {scan : Scan} {layout : Layout} :
    scan.finish = .ok layout ↔ scan.Closed ∧ layout = scan.layout := by
  unfold finish
  dsimp only
  rw [guard_eq_ok, not_not]
  cases hfirst : scan.sfcFirst with
  | none =>
      constructor
      · rintro ⟨homp, hlayout⟩
        refine ⟨⟨homp, fun first h => ?_, fun first h => ?_⟩, (Except.ok.inj hlayout).symm⟩
        · cases hfirst.symm.trans h
        · cases hfirst.symm.trans h
      · rintro ⟨hclosed, rfl⟩
        exact ⟨hclosed.omp, rfl⟩
  | some first =>
      dsimp only
      rw [guard_eq_ok, guard_eq_ok, not_or, not_not, not_not, not_and, not_not]
      constructor
      · rintro ⟨homp, hsfc, hattached, hlayout⟩
        refine ⟨⟨homp, fun first' h => ?_, fun first' h => ?_⟩, (Except.ok.inj hlayout).symm⟩
        · obtain rfl := Option.some.inj (hfirst.symm.trans h)
          exact hsfc
        · obtain rfl := Option.some.inj (hfirst.symm.trans h)
          exact hattached
      · rintro ⟨hclosed, rfl⟩
        exact ⟨hclosed.omp, hclosed.sfc first hfirst, hclosed.attached first hfirst, rfl⟩

theorem finish_sound {scan : Scan} {layout : Layout} (h : scan.Reads scan.layout.loops)
    (hfinish : scan.finish = .ok layout) : layout.Sound ∧ layout = scan.layout := by
  obtain ⟨hclosed, rfl⟩ := Scan.finish_eq_ok_iff.1 hfinish
  have homp := h.omp.covers.marks (by rw [← h.omp.count]; exact hclosed.omp.le)
  cases hfirst : scan.sfcFirst with
  | none =>
      obtain ⟨hzero, hcount⟩ := h.sfc.noneMet hfirst
      have hempty : Span.Marks {} Loop.isSfc scan.layout.loops := by
        have hnone := List.countP_eq_zero.1 (h.sfc.count.symm.trans hzero)
        exact ⟨⟨Nat.le_refl 0, Nat.zero_le _, by simp, by simpa using hnone⟩,
          by simp [Span.slice, Span.length]⟩
      exact ⟨⟨homp, h.omp.tasks, h.omp.axis, h.sfc.marks (hcount.trans hzero.symm), h.sfc.tasks,
        ⟨{}, hempty, hcount.symm, fun _ hne => absurd rfl hne⟩, h.small⟩, rfl⟩
  | some first =>
      obtain ⟨hsum, hextent⟩ := hclosed.sfc first hfirst
      obtain ⟨hpos, -⟩ := h.sfc.firstMet first hfirst
      have hcovers := h.sfc.covers_curve hfirst (by omega)
      have hcurve := hcovers.marks (by rw [Span.length, ← h.sfc.count]; exact hextent.le)
      refine ⟨⟨homp, h.omp.tasks, h.omp.axis, h.sfc.marks hsum, h.sfc.tasks,
        ⟨_, hcurve, hextent.trans hsum.symm, fun hne _ => ?_⟩, h.small⟩, rfl⟩
      have hlength := hclosed.omp
      exact hclosed.attached first hfirst (by omega)

/-- An accepted layout is the layout of its loop list. -/
theorem ofLoops_sound {loops : List Loop} {threads : ThreadGrid} {layout : Layout}
    (h : Layout.ofLoops loops threads = .ok layout) :
    layout.Sound ∧ layout.loops = loops ∧ layout.threads = threads.atLeastOne := by
  obtain ⟨scan, hscan, hfinish⟩ := bind_eq_ok.1 h
  obtain ⟨hreads, hloops, hthreads⟩ := Scan.run_reads (Scan.reads_nil loops _) rfl hscan
  rw [List.nil_append, ← show scan.layout.loops = loops from hloops] at hreads
  obtain ⟨hsound, rfl⟩ := finish_sound hreads hfinish
  exact ⟨hsound, hloops, hthreads⟩

/-- An axis of loops with iterations has tasks. -/
theorem Sound.tasks_pos {layout : Layout} (h : layout.Sound)
    (hsize : ∀ loop ∈ layout.loops, 1 ≤ loop.size) (axis : Axis) : 1 ≤ layout.sfcTasks axis := by
  rw [h.sfcTasks, sizeWhere_eq_prod]
  exact one_le_prod_size fun loop hloop => hsize loop (List.mem_of_mem_filter hloop)

theorem Sound.ompTasks_pos {layout : Layout} (h : layout.Sound)
    (hsize : ∀ loop ∈ layout.loops, 1 ≤ loop.size) : 1 ≤ layout.ompTasks := by
  rw [h.ompTasks, sizeWhere_eq_prod]
  exact one_le_prod_size fun loop hloop => hsize loop (List.mem_of_mem_filter hloop)

/-! ## Cutting a loop list into its runs -/

end Layout

/-- The loops that are not folded into the kernel call. -/
def outerLoops (loops : List Loop) : List Loop := loops.filter fun loop => !loop.isPrim

/-- The loops that are folded into the kernel call. -/
def kernelLoops (loops : List Loop) : List Loop := loops.filter Loop.isPrim

/-- Kernel loops stand behind all other loops. -/
def KernelLast (loops : List Loop) : Prop := outerLoops loops ++ kernelLoops loops = loops

instance (loops : List Loop) : Decidable (KernelLast loops) :=
  inferInstanceAs (Decidable (_ = _))

/-- Where kernel loops stand last, the offsets of some loops are put together from those outside
and those inside the kernel. -/
theorem KernelLast.offsets_filter {A : Type} [AddCommGroup A] (stride : Loop → A)
    {loops : List Loop} (h : KernelLast loops) (q : Loop → Bool) :
    offsets stride (loops.filter q) =
      sumset (offsets stride ((outerLoops loops).filter q))
        (offsets stride ((kernelLoops loops).filter q)) := by
  conv_lhs => rw [← h]
  rw [List.filter_append, offsets_append]

theorem KernelLast.pairwise {loops : List Loop} (h : KernelLast loops) :
    loops.Pairwise fun a b => a.isPrim = true → b.isPrim = true := by
  rw [← h, List.pairwise_append]
  refine ⟨?_, ?_, fun _ _ b hb _ => (List.mem_filter.1 hb).2⟩
  · refine List.pairwise_of_forall_mem_list fun a ha _ _ hprim => ?_
    simp [outerLoops, hprim] at ha
  · exact List.pairwise_of_forall_mem_list fun _ _ b hb _ => (List.mem_filter.1 hb).2

/-- In a list without parallel loops the sequential loops come first. -/
theorem seq_append_kernel {loops : List Loop}
    (h : loops.Pairwise fun a b => a.isPrim = true → b.isPrim = true)
    (hmode : ∀ loop ∈ loops, loop.isOmp = false ∧ loop.isSfc = false) :
    ∃ after kernel, loops = after ++ kernel ∧ (∀ loop ∈ after, loop.mode = .seq) ∧
      ∀ loop ∈ kernel, loop.mode = .prim := by
  induction loops with
  | nil => exact ⟨[], [], rfl, by simp, by simp⟩
  | cons loop rest ih =>
      rw [List.pairwise_cons] at h
      rw [List.forall_mem_cons] at hmode
      cases hloop : loop.mode with
      | seq =>
          obtain ⟨after, kernel, rfl, hafter, hkernel⟩ := ih h.2 hmode.2
          exact ⟨loop :: after, kernel, rfl, List.forall_mem_cons.2 ⟨hloop, hafter⟩, hkernel⟩
      | prim =>
          refine ⟨[], loop :: rest, rfl, by simp, List.forall_mem_cons.2 ⟨hloop, fun x hx => ?_⟩⟩
          exact of_decide_eq_true (h.1 x hx (by simp [Loop.isPrim, hloop]))
      | omp => simp [Loop.isOmp, hloop] at hmode
      | sfc => simp [Loop.isSfc, hloop] at hmode

namespace Layout

/-- The runs of a loop list: sequential loops, OMP loops, SFC loops, sequential loops and kernel
loops. -/
structure Cut (loops before omp sfc after kernel : List Loop) : Prop where
  append : loops = before ++ (omp ++ (sfc ++ (after ++ kernel)))
  before : ∀ loop ∈ before, loop.mode = .seq
  omp : ∀ loop ∈ omp, loop.mode = .omp
  sfc : ∀ loop ∈ sfc, loop.mode = .sfc
  after : ∀ loop ∈ after, loop.mode = .seq
  kernel : ∀ loop ∈ kernel, loop.mode = .prim

/-- Parallel loops between loops that are not parallel cut a list into its runs. -/
theorem exists_cut_of_append {loops : List Loop} (before omp sfc : List Loop) {rest : List Loop}
    (happend : loops = before ++ (omp ++ (sfc ++ rest))) (hkernel : KernelLast loops)
    (homp : ∀ loop ∈ omp, loop.isOmp = true) (hsfc : ∀ loop ∈ sfc, loop.isSfc = true)
    (hbefore : ∀ loop ∈ before, loop.isOmp = false ∧ loop.isSfc = false)
    (hrest : ∀ loop ∈ rest, loop.isOmp = false ∧ loop.isSfc = false)
    (hparallel : before = [] ∨ omp ++ sfc ≠ []) :
    ∃ after kernel, Cut loops before omp sfc after kernel := by
  have hpairs := hkernel.pairwise
  rw [happend, List.pairwise_append, List.pairwise_append, List.pairwise_append] at hpairs
  obtain ⟨-, ⟨-, ⟨-, hpairs, -⟩, -⟩, hcross⟩ := hpairs
  obtain ⟨after, kernel, rfl, hafter, hkernel⟩ := seq_append_kernel hpairs hrest
  refine ⟨after, kernel, happend, fun loop hloop => ?_, fun loop hloop => ?_, fun loop hloop => ?_,
    hafter, hkernel⟩
  · -- kernel loops stand last, so none stands in front of a parallel loop
    rcases hparallel with rfl | hne
    · cases hloop
    · obtain ⟨x, hx⟩ := List.exists_mem_of_ne_nil _ hne
      have hx' : x ∈ omp ++ (sfc ++ (after ++ kernel)) := by
        rw [← List.append_assoc]
        exact List.mem_append_left _ hx
      have hprim := hcross loop hloop x hx'
      have hmode : x.mode = .omp ∨ x.mode = .sfc := (List.mem_append.1 hx).imp
        (fun h => of_decide_eq_true (homp x h)) fun h => of_decide_eq_true (hsfc x h)
      have hfree := hbefore loop hloop
      cases hm : loop.mode <;> rcases hmode with hmode | hmode <;>
        simp_all [Loop.isOmp, Loop.isSfc, Loop.isPrim]
  · exact of_decide_eq_true (homp loop hloop)
  · exact of_decide_eq_true (hsfc loop hloop)

/-- An accepted loop list whose kernel loops stand last is cut into its runs. -/
theorem Sound.exists_cut {layout : Layout} (h : layout.Sound) (hkernel : KernelLast layout.loops) :
    ∃ before omp sfc after kernel, Cut layout.loops before omp sfc after kernel := by
  obtain ⟨span, hspan, -, hattached⟩ := h.curve
  have homp := h.omp.toCovers.append_slice
  have hsfc := hspan.toCovers.append_slice
  have hlengthOmp := h.omp.toCovers.length_slice
  have hlengthSfc := hspan.toCovers.length_slice
  have noOmp := h.omp.eq_false_of_length
  have noSfc := hspan.eq_false_of_length
  -- a run that is empty may begin anywhere, so it is cut out as nothing
  by_cases hno : layout.omp.length = 0
  · by_cases hns : span.length = 0
    · obtain ⟨after, kernel, hcut⟩ := exists_cut_of_append [] [] []
        rfl hkernel (by simp) (by simp) (by simp)
        (fun loop hloop => ⟨noOmp hno loop hloop, noSfc hns loop hloop⟩) (Or.inl rfl)
      exact ⟨_, _, _, after, kernel, hcut⟩
    · obtain ⟨after, kernel, hcut⟩ := exists_cut_of_append _ [] _ hsfc.symm hkernel (by simp)
        hspan.inside
        (fun loop hloop => ⟨noOmp hno loop (List.mem_of_mem_take hloop), hspan.before loop hloop⟩)
        (fun loop hloop => ⟨noOmp hno loop (List.mem_of_mem_drop hloop), hspan.after loop hloop⟩)
        (Or.inr (List.ne_nil_of_length_pos (by rw [List.nil_append, hlengthSfc]; omega)))
      exact ⟨_, _, _, after, kernel, hcut⟩
  · by_cases hns : span.length = 0
    · obtain ⟨after, kernel, hcut⟩ := exists_cut_of_append _ _ [] homp.symm hkernel
        h.omp.inside (by simp)
        (fun loop hloop => ⟨h.omp.before loop hloop, noSfc hns loop (List.mem_of_mem_take hloop)⟩)
        (fun loop hloop => ⟨h.omp.after loop hloop, noSfc hns loop (List.mem_of_mem_drop hloop)⟩)
        (Or.inr (List.ne_nil_of_length_pos (by rw [List.append_nil, hlengthOmp]; omega)))
      exact ⟨_, _, _, after, kernel, hcut⟩
    · have hjoin : layout.loops.drop layout.omp.stop =
          span.slice layout.loops ++ layout.loops.drop span.stop := by
        have hstart : (layout.loops.take span.start).length = span.start := by
          rw [List.length_take]
          have := hspan.le.trans hspan.stop_le
          omega
        rw [hattached hno hns]
        conv_lhs => rw [← hsfc]
        exact List.drop_left' hstart
      rw [hjoin] at homp
      have hstop : ∀ loop ∈ layout.loops.drop span.stop, loop ∈ layout.loops.drop layout.omp.stop := by
        intro loop hloop
        rw [hjoin]
        exact List.mem_append_right _ hloop
      have hstart : ∀ loop ∈ layout.loops.take layout.omp.start,
          loop ∈ layout.loops.take span.start := by
        rw [← hattached hno hns]
        exact fun loop hloop => List.take_subset_take_left _ h.omp.le hloop
      obtain ⟨after, kernel, hcut⟩ := exists_cut_of_append _ _ _ homp.symm hkernel h.omp.inside
        hspan.inside
        (fun loop hloop => ⟨h.omp.before loop hloop, hspan.before loop (hstart loop hloop)⟩)
        (fun loop hloop => ⟨h.omp.after loop (hstop loop hloop), hspan.after loop hloop⟩)
        (Or.inr (List.ne_nil_of_length_pos (by rw [List.length_append, hlengthOmp]; omega)))
      exact ⟨_, _, _, after, kernel, hcut⟩

end Layout

end LoopNest
