import LoopNest.Proofs.Launch.Built

/-!
# The walk of a thread without its visit counts

`Program.visit` decides by counting the visits of each cell of the box whether a tile is met for the
first or the last time. This file replaces the counts by flags that are known beforehand: a level
becomes a `Phase`, a list of steps with an offset and two flags, and `Program.runPhases` goes
through the phases.

The main statement is `Program.runsAs_visit`: from counts that are all zero both do the same, and the
counts are zero again. A pass over the curve visits every cell once for each K task
(`Share.count_tiles`), so the counts come back to zero, and a count is the number of earlier visits
in the pass (`Program.runsAs_curve`).
-/

namespace LoopNest

/-- The output cell of a task. -/
def Task.tile (task : Task) : Int × Int := (task.m, task.n)

/-- The members of a list, each with the number of earlier ones that have the same key; the keys
`seen` came before the list. -/
def numberedBy {α β : Type} [DecidableEq β] (key : α → β) : (seen : List β) → List α →
    List (α × Nat)
  | _, [] => []
  | seen, x :: rest => (x, seen.count (key x)) :: numberedBy key (key x :: seen) rest

/-- One step of a level: how far the cursor moves, whether the tile may be met for the first or the
last time, and which packing slots may be used again. -/
structure Step where
  offset : Operands Int
  first : Bool
  last : Bool
  reuse : Option Reuse

/-- The steps of a level; packing happens in front of the loop `next`. -/
structure Phase where
  next : Nat
  steps : List Step

namespace Program

variable (program : Program)

/-- The steps of a sequential loop. -/
def sequentialSteps (loop : Loop) (stride : Operands Int) : List Step :=
  let isReduction : Bool := loop.axis = .k
  (upTo loop.size).map fun i =>
    { offset := stride.scale i
      first := !isReduction || i = 0
      last := !isReduction || i = loop.size - 1
      reuse := none }

/-- The steps of the OMP loops. -/
def flatSteps (interval : Interval) : List Step :=
  (upTo interval.length).map fun i =>
    { offset := program.layout.ompOffset program.strides (interval.start + i)
      first := true
      last := true
      reuse := some ⟨0, 0⟩ }

/-- The step to a task of a box, after `count` earlier tasks with the same cell. -/
def taskStep (share : Share) (task : Task) (count : Int) : Step where
  offset := program.taskOffset task - program.taskOffset share.origin
  first := count = 0
  last := count = program.layout.kTasks - 1
  reuse := some ⟨(task.m - share.m.start).toNat % program.slotsLeft,
    (task.n - share.n.start).toNat % program.slotsRight⟩

/-- The steps of the SFC loops. -/
def curveSteps (share : Share) : List Step :=
  (numberedBy Task.tile [] (share.path program.layout.kTasks)).map fun p =>
    program.taskStep share p.1 p.2

/-- The phase of a level. -/
def phase (share : Share) (level : Level) : Phase :=
  { next := level.next
    steps :=
      match level.kind with
      | .sequential =>
          sequentialSteps (program.layout.loops.getD level.start .unit)
            (program.strides.getD level.start 0)
      | .flat => program.flatSteps share.omp
      | .curve => program.curveSteps share }

/-- The calls of a thread in the given phases, from a cursor on. -/
def runPhases : List Phase → Cursor → (first last : Bool) → ThreadStep (List Call)
  | [], cursor, first, last => return program.kernelCalls cursor first last
  | phase :: inner, cursor, first, last => do
      let calls ← phase.steps.mapM fun step => do
        let (packing, active) ←
          program.packInputs phase.next step.reuse (cursor.move step.offset)
        let calls ← runPhases inner active (first && step.first) (last && step.last)
        return packing ++ calls
      return calls.flatten

/-- The calls of a list of steps: those of the first step, and those of the others from the state on
that it leaves. -/
theorem run_flatten_cons {β : Type} (f : β → ThreadStep (List Call)) (b : β) (bs : List β)
    (state : ThreadState) :
    (do return (← (b :: bs).mapM f).flatten : ThreadStep (List Call)).run state =
      (((f b).run state).1 ++
          ((do return (← bs.mapM f).flatten : ThreadStep (List Call)).run ((f b).run state).2).1,
        ((do return (← bs.mapM f).flatten : ThreadStep (List Call)).run
          ((f b).run state).2).2) := by
  rw [List.mapM_cons]
  rfl

/-! ## Steps that leave the visit counts alone -/

/-- Started with the visit counts `visits`, the first step does what the second one does without
counts, and leaves the counts `visits'`. -/
def RunsAs {β : Type} (x y : ThreadStep β) (visits visits' : Array Int) : Prop :=
  ∀ state : ThreadState, x.run { state with visits := visits } =
    ((y.run state).1, { (y.run state).2 with visits := visits' })

/-- A step of a thread that neither reads nor changes the visit counts. -/
def IgnoresVisits {β : Type} (x : ThreadStep β) : Prop := ∀ visits, RunsAs x x visits visits

section RunsAs

variable {program} {β γ : Type} {visits visits' visits'' : Array Int}

theorem RunsAs.bind {x y : ThreadStep β} {f g : β → ThreadStep γ} (hx : RunsAs x y visits visits')
    (hf : ∀ b, RunsAs (f b) (g b) visits' visits'') :
    RunsAs (x >>= f) (y >>= g) visits visits'' := by
  intro state
  show (f (x.run _).1).run (x.run _).2 = _
  rw [hx state, hf]
  rfl

theorem RunsAs.mapM {f g : β → ThreadStep γ} {bs : List β}
    (h : ∀ b ∈ bs, RunsAs (f b) (g b) visits visits) :
    RunsAs (bs.mapM f) (bs.mapM g) visits visits := by
  induction bs with
  | nil => exact fun _ => rfl
  | cons b bs ih =>
      rw [List.forall_mem_cons] at h
      rw [List.mapM_cons, List.mapM_cons]
      exact h.1.bind fun c => (ih h.2).bind fun cs => fun _ => rfl

theorem ignoresVisits_pure (b : β) : IgnoresVisits (pure b : ThreadStep β) := fun _ _ => rfl

theorem IgnoresVisits.bind {x : ThreadStep β} {f : β → ThreadStep γ} (hx : IgnoresVisits x)
    (hf : ∀ b, IgnoresVisits (f b)) : IgnoresVisits (x >>= f) := fun visits =>
  (hx visits).bind fun b => hf b visits

theorem IgnoresVisits.mapM {f : β → ThreadStep γ} (hf : ∀ b, IgnoresVisits (f b)) (bs : List β) :
    IgnoresVisits (bs.mapM f) := by
  induction bs with
  | nil => exact ignoresVisits_pure _
  | cons b bs ih =>
      rw [List.mapM_cons]
      exact (hf b).bind fun c => ih.bind fun cs => ignoresVisits_pure _

theorem fillSlot_run (side : Side) (slot : Nat) (again : Bool) (address : Int)
    (state : ThreadState) :
    (program.fillSlot side slot again address).run state =
      if again = true ∧ (state.held side).getD slot none = some address then ([], state)
      else ([.pack side address (program.slotAddress side slot)],
        if again then state.hold side slot address else state) := by
  cases again with
  | false => rfl
  | true =>
      by_cases h : (state.held side).getD slot none = some address
      · rw [if_pos ⟨rfl, h⟩]
        show (if (state.held side).getD slot none = some address then _ else _ : ThreadStep _) state
          = _
        rw [if_pos h]
        rfl
      · rw [if_neg fun hand => h hand.2]
        show (if (state.held side).getD slot none = some address then _ else _ : ThreadStep _) state
          = _
        rw [if_neg h]
        rfl

theorem ignoresVisits_fillSlot (side : Side) (slot : Nat) (again : Bool) (address : Int) :
    IgnoresVisits (program.fillSlot side slot again address) := by
  intro visits state
  rw [fillSlot_run, fillSlot_run,
    show ({ state with visits := visits } : ThreadState).held side = state.held side by
      cases side <;> rfl]
  split
  · rfl
  · cases side <;> cases again <;> rfl

theorem ignoresVisits_packInputs (next : Nat) (reuse : Option Reuse) (cursor : Cursor) :
    IgnoresVisits (program.packInputs next reuse cursor) := by
  have hpack : ∀ side cursor, IgnoresVisits (program.packInput side next reuse cursor) := by
    intro side cursor
    unfold packInput
    split
    · split
      · exact (ignoresVisits_fillSlot _ _ _ _).bind fun _ => ignoresVisits_pure _
      · exact ignoresVisits_pure _
    · exact ignoresVisits_pure _
  exact (hpack _ _).bind fun _ => (hpack _ _).bind fun _ => ignoresVisits_pure _

theorem ignoresVisits_runPhases (phases : List Phase) (cursor : Cursor) (first last : Bool) :
    IgnoresVisits (program.runPhases phases cursor first last) := by
  induction phases generalizing cursor first last with
  | nil => exact ignoresVisits_pure _
  | cons phase inner ih =>
      exact (IgnoresVisits.mapM (fun step => (ignoresVisits_packInputs _ _ _).bind fun _ =>
        (ih _ _ _).bind fun _ => ignoresVisits_pure _) _).bind fun _ => ignoresVisits_pure _

end RunsAs

/-! ## Levels without a curve -/

variable {program} {work : Work} {share : Share}

/-- Without a curve among the levels no count is read. -/
theorem visit_eq_of_no_curve (hdoes : program.Does share work) {levels : List Level}
    (hkind : ∀ level ∈ levels, level.kind ≠ .curve) :
    program.visit work levels = program.runPhases (levels.map (program.phase share)) := by
  induction levels with
  | nil => rfl
  | cons level inner ih =>
      rw [List.forall_mem_cons] at hkind
      funext cursor first last
      rw [List.map_cons, visit, runPhases, ih hkind.2]
      cases hlevel : level.kind with
      | sequential =>
          simp only [phase, hlevel, sequentialSteps, List.mapM_map]
          rfl
      | flat =>
          simp only [phase, hlevel, flatSteps, List.mapM_map, hdoes.omp, Function.comp_def,
            Bool.and_true]
      | curve => exact absurd hlevel hkind.1

/-! ## The curve -/

end Program

namespace Share

variable (share : Share)

/-- Whether an output cell belongs to the box of a share. -/
def HasTile (tile : Int × Int) : Prop :=
  (0 ≤ tile.1 - share.m.start ∧ tile.1 - share.m.start < share.m.length) ∧
    0 ≤ tile.2 - share.n.start ∧ tile.2 - share.n.start < share.n.length

/-- The place of an output cell among the visit counts. -/
def cellIndex (tile : Int × Int) : Nat :=
  (tile.1 - share.m.start + (tile.2 - share.n.start) * share.m.length).toNat

variable {share}

theorem cellIndex_lt {tile : Int × Int} (h : share.HasTile tile) :
    share.cellIndex tile < (share.m.length * share.n.length).toNat := by
  obtain ⟨hm, hn⟩ := h
  have h0 := Int.mul_nonneg hn.1 (show 0 ≤ share.m.length by omega)
  have h1 := Int.mul_le_mul_of_nonneg_right
    (show tile.2 - share.n.start + 1 ≤ share.n.length by omega)
    (show 0 ≤ share.m.length by omega)
  rw [add_mul, one_mul, mul_comm share.n.length] at h1
  unfold cellIndex
  omega

theorem cellIndex_inj {tile tile' : Int × Int} (h : share.HasTile tile) (h' : share.HasTile tile')
    (heq : share.cellIndex tile = share.cellIndex tile') : tile = tile' := by
  obtain ⟨hm, hn⟩ := h
  obtain ⟨hm', hn'⟩ := h'
  have h0 := Int.mul_nonneg hn.1 (show 0 ≤ share.m.length by omega)
  have h0' := Int.mul_nonneg hn'.1 (show 0 ≤ share.m.length by omega)
  have hsum : (tile.2 - share.n.start) * share.m.length + (tile.1 - share.m.start) =
      (tile'.2 - share.n.start) * share.m.length + (tile'.1 - share.m.start) := by
    unfold cellIndex at heq
    omega
  have hdiv := congrArg (fun x : Int => x.tdiv share.m.length) hsum
  have hmod := congrArg (fun x : Int => x.tmod share.m.length) hsum
  rw [tdiv_mul_add hn.1 hm, tdiv_mul_add hn'.1 hm'] at hdiv
  rw [tmod_mul_add hn.1 hm, tmod_mul_add hn'.1 hm'] at hmod
  ext <;> omega

/-- Every place among the visit counts belongs to an output cell. -/
theorem exists_cellIndex {i : Nat} (hm : 0 < share.m.length)
    (hi : i < (share.m.length * share.n.length).toNat) :
    ∃ tile, share.HasTile tile ∧ share.cellIndex tile = i := by
  obtain ⟨q, r, hq, hr, heq⟩ := exists_mul_add hm (Int.natCast_nonneg i)
  have hlt : q < share.n.length := by
    by_contra hge
    have := Int.mul_le_mul_of_nonneg_right (show share.n.length ≤ q by omega)
      (Int.le_of_lt hm)
    rw [mul_comm share.n.length] at this
    omega
  refine ⟨(share.m.start + r, share.n.start + q), ⟨⟨by omega, by omega⟩, by omega, by omega⟩, ?_⟩
  rw [cellIndex, add_sub_cancel_left, add_sub_cancel_left, add_comm, ← heq, Int.toNat_natCast]

/-- Visit counts of a box after the cells `seen` were visited. -/
structure Counts (share : Share) (depth : Int) (visits : Array Int) (seen : List (Int × Int)) :
    Prop where
  size : visits.size = (share.m.length * share.n.length).toNat
  count : ∀ tile, share.HasTile tile →
    visits.getD (share.cellIndex tile) 0 = (seen.count tile : Int) % depth

end Share

namespace Share

variable {share : Share} {depth : Int}

/-- One more visit of an output cell. -/
theorem Counts.visit {visits : Array Int} {seen : List (Int × Int)} {tile : Int × Int}
    (h : share.Counts depth visits seen) (hdepth : 0 < depth) (htile : share.HasTile tile) :
    share.Counts depth
      (visits.setIfInBounds (share.cellIndex tile)
        ((visits.getD (share.cellIndex tile) 0 + 1).tmod depth)) (tile :: seen) := by
  refine ⟨by rw [Array.size_setIfInBounds, h.size], fun other hother => ?_⟩
  have hlt : share.cellIndex tile < visits.size := h.size ▸ cellIndex_lt htile
  by_cases heq : other = tile
  · subst heq
    rw [h.count other hother, List.count_cons_self, Array.getD_eq_getD_getElem?,
      Array.getElem?_setIfInBounds_self_of_lt hlt, Option.getD_some,
      Int.tmod_eq_emod_of_nonneg (by
        have := Int.emod_nonneg (seen.count other : Int) (show depth ≠ 0 by omega)
        omega)]
    push_cast
    exact Int.emod_add_emod _ _ _
  · have hne : share.cellIndex tile ≠ share.cellIndex other := fun hindex =>
      heq (cellIndex_inj hother htile (Eq.symm hindex))
    rw [List.count_cons_of_ne (Ne.symm heq), ← h.count other hother]
    simp only [Array.getD_eq_getD_getElem?, Array.getElem?_setIfInBounds_ne hne]

/-- Counts of cells that were visited equally often are all zero once that is once for each K
task. -/
theorem Counts.eq_replicate {visits : Array Int} {seen : List (Int × Int)}
    (h : share.Counts depth visits seen) (hm : 0 < share.m.length)
    (hseen : ∀ tile, share.HasTile tile → (seen.count tile : Int) = depth) :
    visits = Array.replicate (share.m.length * share.n.length).toNat 0 := by
  refine Array.ext (by rw [h.size, Array.size_replicate]) fun i hi hi' => ?_
  obtain ⟨tile, htile, rfl⟩ := exists_cellIndex hm (h.size ▸ hi)
  have hcount := h.count tile htile
  rw [hseen tile htile, Int.emod_self, Array.getD_eq_getD_getElem?, Array.getElem?_eq_getElem hi,
    Option.getD_some] at hcount
  rw [hcount, Array.getElem_replicate]

theorem counts_nil : share.Counts depth
    (Array.replicate (share.m.length * share.n.length).toNat 0) [] := by
  refine ⟨Array.size_replicate, fun tile htile => ?_⟩
  rw [Array.getD_eq_getD_getElem?, Array.getElem?_replicate, if_pos (cellIndex_lt htile)]
  simp

/-- The tasks of a walk lie in the box. -/
theorem hasTile_of_mem_path (hm : 0 ≤ share.m.length) (hn : 0 ≤ share.n.length) {task : Task}
    (htask : task ∈ share.path depth) : share.HasTile task.tile := by
  obtain ⟨cell, hcell, rfl⟩ := List.mem_map.1 ((Share.path_perm hm hn).mem_iff.1 htask)
  obtain ⟨hx, hy, -⟩ := Curve.mem_boxCells.1 hcell
  simpa [Share.HasTile, Task.tile, Share.taskAt] using And.intro hx hy

/-- The walk through a box meets a cell of the output in each of its K tasks. -/
theorem column_perm (depth : Int) (hm : 0 ≤ share.m.length) (hn : 0 ≤ share.n.length)
    (tile : Int × Int) (htile : share.HasTile tile) :
    ((share.path depth).filter fun task => task.tile = tile).Perm
      ((upTo depth).map fun z => ⟨tile.1, tile.2, z⟩) := by
  obtain ⟨hx, hy⟩ := htile
  have hcolumn : ((Curve.boxCells share.m.length share.n.length depth).filter fun cell =>
        (share.taskAt cell).tile = tile).Perm
      ((upTo depth).map fun z => ⟨tile.1 - share.m.start, tile.2 - share.n.start, z⟩) := by
    refine (List.perm_ext_iff_of_nodup ((Curve.nodup_boxCells _ _ _).filter _)
      ((nodup_upTo depth).map fun a b hab => (Curve.Cell.mk.inj hab).2.2)).2 fun cell => ?_
    simp only [List.mem_filter, Curve.mem_boxCells, List.mem_map, mem_upTo, decide_eq_true_eq]
    constructor
    · rintro ⟨⟨-, -, hz⟩, rfl⟩
      exact ⟨cell.z, hz, by simp [Share.taskAt, Task.tile]⟩
    · rintro ⟨z, hz, rfl⟩
      exact ⟨⟨hx, hy, hz⟩, by simp [Share.taskAt, Task.tile]⟩
  refine ((path_perm hm hn).filter _).trans ?_
  rw [tasks, List.filter_map]
  refine (hcolumn.map _).trans (List.Perm.of_eq ?_)
  simp [Share.taskAt, Function.comp_def]

/-- The walk through a box visits every cell of the output once for each K task. -/
theorem count_tiles (hm : 0 ≤ share.m.length) (hn : 0 ≤ share.n.length) (hdepth : 0 ≤ depth)
    {tile : Int × Int} (htile : share.HasTile tile) :
    (((share.path depth).map Task.tile).count tile : Int) = depth := by
  have hlength := (column_perm depth hm hn tile htile).length_eq
  rw [List.length_map, length_upTo] at hlength
  rw [List.count, List.countP_map, List.countP_eq_length_filter]
  simp only [Function.comp_def, beq_eq_decide]
  omega

end Share

namespace Program

variable {program : Program} {work : Work} {share : Share}

/-- Counting a visit gives the count and counts the visit. -/
theorem runsAs_countVisit (hdoes : program.Does share work) (cursor : Cursor) (task : Task)
    (visits : Array Int) :
    RunsAs (countVisit work (program.stopAt ⟨cursor, 0, 0⟩ share.origin task))
      (pure (visits.getD (share.cellIndex task.tile) 0)) visits
      (visits.setIfInBounds (share.cellIndex task.tile)
        ((visits.getD (share.cellIndex task.tile) 0 + 1).tmod program.layout.kTasks)) := by
  have hcell : (0 + (task.m - share.origin.m) + (0 + (task.n - share.origin.n)) *
      work.sizeM).toNat = share.cellIndex task.tile := by
    rw [hdoes.sizeM, zero_add, zero_add]
    rfl
  rw [← hcell, ← hdoes.sizeK]
  exact fun state => rfl

/-- A pass over the curve that counts visits does what the steps with known numbers of visits do. -/
theorem runsAs_curve {β : Type} (hdoes : program.Does share work)
    (hdepth : 0 < program.layout.kTasks) (cursor : Cursor) {body : Step → ThreadStep β}
    (hbody : ∀ step, IgnoresVisits (body step)) {path : List Task} {seen : List (Int × Int)}
    (htiles : ∀ task ∈ path, share.HasTile task.tile)
    (hcount : ∀ tile ∈ path.map Task.tile,
      ((seen.count tile + (path.map Task.tile).count tile : Nat) : Int) ≤ program.layout.kTasks)
    {visits : Array Int} (hvisits : share.Counts program.layout.kTasks visits seen) :
    ∃ visits', share.Counts program.layout.kTasks visits' ((path.map Task.tile).reverse ++ seen) ∧
      RunsAs
        (path.mapM fun task => do
          let count ← countVisit work (program.stopAt ⟨cursor, 0, 0⟩ share.origin task)
          body (program.taskStep share task count))
        ((numberedBy Task.tile seen path).mapM fun p => body (program.taskStep share p.1 p.2))
        visits visits' := by
  induction path generalizing seen visits with
  | nil => exact ⟨visits, hvisits, ignoresVisits_pure _ visits⟩
  | cons task rest ih =>
      rw [List.forall_mem_cons] at htiles
      have hcounts : ∀ tile ∈ rest.map Task.tile,
          (((task.tile :: seen).count tile + (rest.map Task.tile).count tile : Nat) : Int) ≤
            program.layout.kTasks := by
        intro tile htile
        have hle := hcount tile (List.mem_cons_of_mem _ htile)
        rw [List.map_cons, List.count_cons] at hle
        rw [List.count_cons]
        omega
      -- the count found is the number of earlier visits, which is below the number of K tasks
      have hnumber : visits.getD (share.cellIndex task.tile) 0 = (seen.count task.tile : Int) := by
        have hle := hcount task.tile List.mem_cons_self
        rw [List.map_cons, List.count_cons_self] at hle
        rw [hvisits.count task.tile htiles.1]
        exact Int.emod_eq_of_lt (Int.natCast_nonneg _) (by omega)
      have hfirst := (runsAs_countVisit hdoes cursor task visits).bind fun count =>
        hbody (program.taskStep share task count) _
      rw [pure_bind, hnumber] at hfirst
      obtain ⟨visits', hfinal, hrest⟩ := ih htiles.2 hcounts (hvisits.visit hdepth htiles.1)
      refine ⟨visits', ?_, ?_⟩
      · rwa [List.map_cons, List.reverse_cons, List.append_assoc, List.singleton_append]
      · rw [List.mapM_cons, numberedBy, List.mapM_cons]
        rw [hnumber] at hrest
        have := hfirst.bind fun b => hrest.bind fun bs => ignoresVisits_pure (b :: bs) visits'
        convert this

/-- The stops of a thread are the stops at the tasks of its walk. -/
theorem Does.stops_eq (hbuilt : program.IsBuilt) (hdoes : program.Does share work)
    (cursor : Cursor) :
    program.stops ⟨cursor, 0, 0⟩ work.moves =
      (share.path program.layout.kTasks).map (program.stopAt ⟨cursor, 0, 0⟩ share.origin) := by
  obtain ⟨rest, hpath⟩ := Share.path_head hdoes.m_pos hdoes.n_pos
    (show 0 < program.layout.kTasks from hbuilt.tasks_pos .k)
  have hchain := Share.path_isChain program.layout.kTasks hdoes.m_pos hdoes.n_pos
  have htasks := hdoes.tasks
  have hmoves := hdoes.moves
  rw [hpath] at hchain htasks hmoves ⊢
  exact Program.stops_eq hbuilt.sound hbuilt.steps hbuilt.sizes hchain htasks hmoves _

/-- The visit counts of a thread that has visited nothing. -/
def noVisits (work : Work) : Array Int := Array.replicate (work.sizeM * work.sizeN).toNat 0

/-- A whole pass over the curve starts and ends with counts that are all zero. -/
theorem runsAs_pass {β : Type} (hbuilt : program.IsBuilt) (hdoes : program.Does share work)
    (cursor : Cursor) (body : Step → ThreadStep β) (hbody : ∀ step, IgnoresVisits (body step)) :
    RunsAs
      ((share.path program.layout.kTasks).mapM fun task => do
        let count ← countVisit work (program.stopAt ⟨cursor, 0, 0⟩ share.origin task)
        body (program.taskStep share task count))
      ((numberedBy Task.tile [] (share.path program.layout.kTasks)).mapM fun p =>
        body (program.taskStep share p.1 p.2))
      (noVisits work) (noVisits work) := by
  have hm := Int.le_of_lt hdoes.m_pos
  have hn := Int.le_of_lt hdoes.n_pos
  have hdepth : 0 < program.layout.kTasks := hbuilt.tasks_pos .k
  have hzero : noVisits work = Array.replicate (share.m.length * share.n.length).toNat 0 := by
    rw [noVisits, hdoes.sizeM, hdoes.sizeN]
  obtain ⟨visits', hfinal, hrun⟩ := runsAs_curve hdoes hdepth cursor hbody
    (fun task htask => Share.hasTile_of_mem_path hm hn htask)
    (fun tile htile => by
      obtain ⟨task, htask, rfl⟩ := List.mem_map.1 htile
      rw [List.count_nil, Nat.zero_add,
        Share.count_tiles hm hn (Int.le_of_lt hdepth) (Share.hasTile_of_mem_path hm hn htask)])
    Share.counts_nil
  -- after the pass every cell was visited once for each K task
  have hback : visits' = noVisits work := by
    rw [hzero]
    refine hfinal.eq_replicate hdoes.m_pos fun tile htile => ?_
    rw [List.append_nil, List.count_reverse, Share.count_tiles hm hn (Int.le_of_lt hdepth) htile]
  rwa [hback, ← hzero] at hrun

/-- From counts that are all zero a thread goes through its levels as through their phases, and the
counts are zero again. -/
theorem runsAs_visit (hbuilt : program.IsBuilt) (hdoes : program.Does share work)
    {levels : List Level}
    (honce : levels.Pairwise fun a b => a.kind = .curve → b.kind ≠ .curve) (cursor : Cursor)
    (first last : Bool) :
    RunsAs (program.visit work levels cursor first last)
      (program.runPhases (levels.map (program.phase share)) cursor first last)
      (noVisits work) (noVisits work) := by
  -- at most one level is a curve, and only a curve counts its visits
  induction levels generalizing cursor first last with
  | nil => exact fun _ => rfl
  | cons level inner ih =>
      obtain ⟨hinner, honce⟩ := List.pairwise_cons.1 honce
      have hpack : ∀ next reuse (cursor : Cursor), RunsAs (program.packInputs next reuse cursor)
          (program.packInputs next reuse cursor) (noVisits work) (noVisits work) :=
        fun next reuse cursor => ignoresVisits_packInputs next reuse cursor _
      rw [List.map_cons, visit, runPhases]
      cases hlevel : level.kind with
      | sequential =>
          simp only [phase, hlevel, sequentialSteps, List.mapM_map]
          exact (RunsAs.mapM fun i _ => (hpack _ _ _).bind fun _ =>
            (ih honce _ _ _).bind fun _ _ => rfl).bind fun _ _ => rfl
      | flat =>
          simp only [phase, hlevel, flatSteps, List.mapM_map, hdoes.omp, Function.comp_def,
            Bool.and_true]
          exact (RunsAs.mapM fun i _ => (hpack _ _ _).bind fun _ =>
            (ih honce _ _ _).bind fun _ _ => rfl).bind fun _ _ => rfl
      | curve =>
          -- a pass starts from the corner of the share
          have hm : ∀ task, (program.stopAt ⟨cursor, 0, 0⟩ share.origin task).m =
              task.m - share.m.start := fun task => zero_add _
          have hn : ∀ task, (program.stopAt ⟨cursor, 0, 0⟩ share.origin task).n =
              task.n - share.n.start := fun task => zero_add _
          have hpass := runsAs_pass hbuilt hdoes cursor
            (fun step => do
              let (packing, active) ←
                program.packInputs level.next step.reuse (cursor.move step.offset)
              let calls ← program.runPhases (inner.map (program.phase share)) active
                (first && step.first) (last && step.last)
              return packing ++ calls)
            fun step => (ignoresVisits_packInputs _ _ _).bind fun _ =>
              (ignoresVisits_runPhases _ _ _ _).bind fun _ => ignoresVisits_pure _
          rw [visit_eq_of_no_curve hdoes (fun l hl => hinner l hl hlevel)]
          simp only [phase, hlevel, curveSteps, List.mapM_map, hdoes.stops_eq hbuilt,
            Function.comp_def, hm, hn, hdoes.sizeK]
          exact RunsAs.bind hpass fun _ _ => rfl

end Program

end LoopNest
