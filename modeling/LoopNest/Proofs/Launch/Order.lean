import LoopNest.Proofs.Launch.TouchCalls

/-!
# The order of the visits of a tile

The brackets of a tile say how often it is visited and where the first and the last visit stand. If
no K loop lies on the curve, more is true: the visits of every tile come in the order of the
sequential K loops. `Runs` says this of a list of visits. It is a matter of the loops alone, so that
the visits of a tile are the same for any numbers of threads (`Program.onTile_launchVisits_congr`).

The order is the same if further loops stay on a tile, as long as threads do not share them
(`Program.StaysOnTile`): a tile is then visited in the order of all sequential loops that stay on it
(`Program.StaysOnTile.runs_launchVisits`).
-/

namespace LoopNest

/-- Every visit belongs to one of the tiles, and the visits of each tile are the run `run`, seen from
the tile. -/
structure Runs (vs : List Visit) (tiles : List (Operands Int)) (run : List Visit) : Prop where
  tile : ∀ v ∈ vs, ∃ t ∈ tiles, v.offset.out = t.out
  order : ∀ t ∈ tiles, onTile vs t.out = run.map (Visit.shift t)

theorem nest_map_shift (t t' : Operands Int) (vs ws : List Visit) :
    nest (vs.map (Visit.shift t)) (ws.map (Visit.shift t')) =
      (nest vs ws).map (Visit.shift (t + t')) := by
  rw [← map_shift_nest_left, ← map_shift_nest_right, List.map_map]
  exact List.map_congr_left fun v _ => Visit.ext (add_assoc _ _ _).symm rfl rfl

namespace Runs

variable {vs ws run run' : List Visit} {tiles tiles' : List (Operands Int)}

/-- Runs nest if their tiles do not meet. -/
theorem nest (h : Runs vs tiles run) (h' : Runs ws tiles' run')
    (hout : ((sumset tiles tiles').map Operands.out).Nodup) :
    Runs (nest vs ws) (sumset tiles tiles') (nest run run') := by
  refine ⟨exists_tile_nest h.tile h'.tile, fun s hs => ?_⟩
  obtain ⟨t, ht, t', ht', rfl⟩ := mem_sumset.1 hs
  rw [onTile_nest h.tile h'.tile hout ht ht', h.order t ht, h'.order t' ht', nest_map_shift]

/-- Visits that do not leave a tile are a run on it. -/
theorem still (hout : ∀ v ∈ vs, v.offset.out = 0) : Runs vs [0] vs := by
  refine ⟨fun v hv => ⟨0, List.mem_singleton.2 rfl, hout v hv⟩, fun t ht => ?_⟩
  obtain rfl := List.mem_singleton.1 ht
  have hall : onTile vs 0 = vs := List.filter_eq_self.2 fun v hv => by simpa using hout v hv
  have hself : ∀ v ∈ vs, v.shift 0 = v := fun v _ => Visit.ext (zero_add _) rfl rfl
  rw [Operands.zero_out, hall, List.map_congr_left hself, List.map_id']

/-- Tiles that are visited once have the only run without loops. -/
theorem of_brackets (h : Brackets vs tiles [0]) : Runs vs tiles [.single] := by
  refine ⟨h.tile, fun t ht => ?_⟩
  have hoffset := h.offsets t ht
  rw [List.map_singleton, List.perm_singleton, List.map_eq_singleton_iff] at hoffset
  obtain ⟨v, honly, hv⟩ := hoffset
  have hflags := h.flags t ht
  rw [honly, List.map_singleton] at hflags
  obtain ⟨hfirst, hlast⟩ := Prod.mk.inj (List.singleton_inj.1 hflags)
  rw [honly, List.map_singleton]
  exact congrArg (fun v => [v]) (Visit.ext hv hfirst hlast)

/-- A loop outside the reduction whose iterations do not meet in the output visits a new tile each
time. -/
theorem loopVisits_once {stride : Loop → Operands Int} {loop : Loop} (haxis : loop.axis ≠ .k)
    (hout : ((multiples loop.size (stride loop)).map Operands.out).Nodup) :
    Runs (loopVisits stride loop) (multiples loop.size (stride loop)) [.single] := by
  have honce := Brackets.once (flags_loopVisits_of_ne stride haxis)
    (by rwa [map_offset_loopVisits])
  rw [map_offset_loopVisits] at honce
  exact .of_brackets honce

end Runs

/-- Lists of visits that run on tiles of their own make one run. -/
theorem Runs.flatMap {ι : Type} {f : ι → List Visit} {tiles : ι → List (Operands Int)} {is : List ι}
    {run : List Visit} (h : ∀ i ∈ is, Runs (f i) (tiles i) run) (hnodup : is.Nodup)
    (hout : ((is.flatMap tiles).map Operands.out).Nodup) :
    Runs (is.flatMap f) (is.flatMap tiles) run := by
  constructor
  · intro v hv
    obtain ⟨i, hi, hv⟩ := List.mem_flatMap.1 hv
    obtain ⟨t, ht, hvt⟩ := (h i hi).tile v hv
    exact ⟨t, List.mem_flatMap.2 ⟨i, hi, ht⟩, hvt⟩
  · intro t ht
    obtain ⟨i, hi, ht⟩ := List.mem_flatMap.1 ht
    rw [Program.onTile_flatMap hnodup (fun j hj => (h j hj).tile) hout hi ht]
    exact (h i hi).order t ht

/-- The order in which tiles are listed does not matter. -/
theorem Runs.perm {vs run : List Visit} {tiles tiles' : List (Operands Int)}
    (h : Runs vs tiles run) (hperm : tiles.Perm tiles') : Runs vs tiles' run := by
  constructor
  · intro v hv
    obtain ⟨t, ht, hvt⟩ := h.tile v hv
    exact ⟨t, hperm.mem_iff.1 ht, hvt⟩
  · intro t ht
    exact h.order t (hperm.mem_iff.2 ht)

/-- Sequential loops visit each tile in the order of the loops that stay on it, if all K loops do. -/
theorem runs_sequentialVisits {stride : Loop → Operands Int} {stays : Loop → Bool}
    {loops : List Loop} (hsize : ∀ loop ∈ loops, 1 ≤ loop.size)
    (hk : ∀ loop ∈ loops, loop.axis = .k → stays loop = true)
    (hstays : ∀ loop ∈ loops, stays loop = true → (stride loop).out = 0)
    (hout : ((offsets stride (loops.filter fun loop => !stays loop)).map Operands.out).Nodup) :
    Runs (sequentialVisits stride loops) (offsets stride (loops.filter fun loop => !stays loop))
      (sequentialVisits stride (loops.filter stays)) := by
  induction loops with
  | nil => exact .still (by simp [sequentialVisits, Visit.single])
  | cons loop rest ih =>
      rw [List.forall_mem_cons] at hsize hk hstays
      obtain ⟨hnew, hrest⟩ := nodup_of_nodup_offsets_cons hsize.1 hsize.2 hout
      -- the tiles of the list are those of the loops further in, seen from each iteration
      rw [offsets_filter_cons] at hout ⊢
      rw [List.filter_cons, sequentialVisits]
      cases hloop : stays loop with
      | true =>
          simp only [hloop, Bool.not_true, Bool.false_eq_true, if_false, if_true] at hout ⊢
          exact (Runs.still (out_of_mem_loopVisits (hstays.1 hloop))).nest
            (ih hsize.2 hk.2 hstays.2 hrest) hout
      | false =>
          -- the run of one visit per tile does not show in the nest
          have haxis : loop.axis ≠ .k := by
            intro haxis
            rw [hk.1 haxis] at hloop
            cases hloop
          simp only [hloop, Bool.not_false, Bool.false_eq_true, if_false, if_true] at hout ⊢
          have hruns := (Runs.loopVisits_once haxis (hnew hloop)).nest
            (ih hsize.2 hk.2 hstays.2 hrest) hout
          rwa [single_nest] at hruns

namespace Program

variable {program program' : Program} {stride : Loop → Operands Int}
  {before omp sfc after kernel : List Loop} {stays : Loop → Bool}

/-- Without K loops on the curve there is one K task, and it does not move. -/
theorem kTasks_eq_one (hbuilt : program.IsBuilt)
    (hcurve : ∀ loop ∈ program.layout.loops, loop.isSfcOn .k = false) :
    (upTo program.layout.kTasks).map (program.axisOffset .k) = [0] := by
  rw [show program.layout.kTasks = program.layout.sfcTasks .k from rfl, map_axisOffset hbuilt,
    List.filter_eq_nil_iff.2 fun loop hloop => by rw [hcurve loop hloop]; simp]
  rfl

/-- The loops picked by `stays` do not move through the output. All K loops are picked, and no loop
that threads share. -/
structure StaysOnTile (program : Program) (stride : Loop → Operands Int)
    (stays : Loop → Bool) : Prop where
  reduction : ∀ loop ∈ program.layout.loops, loop.axis = .k → stays loop = true
  own : ∀ loop ∈ program.layout.loops, loop.isParallel = true → stays loop = false
  still : ∀ loop ∈ program.layout.loops, stays loop = true →
    loop.strides.out = 0 ∧ (stride loop).out = 0

/-- Without K loops on the curve, the K loops are loops that stay. -/
theorem staysOnTile_isReduction (hbuilt : program.IsBuilt)
    (hcurve : ∀ loop ∈ program.layout.loops, loop.isSfcOn .k = false)
    (hk : ∀ loop ∈ program.layout.loops, loop.isReduction = true →
      loop.strides.out = 0 ∧ (stride loop).out = 0) :
    program.StaysOnTile stride Loop.isReduction := by
  refine ⟨fun loop _ haxis => decide_eq_true haxis, fun loop hloop hparallel => ?_, hk⟩
  apply decide_eq_false
  intro haxis
  cases hmode : loop.mode with
  | omp => exact hbuilt.sound.ompAxis loop hloop (decide_eq_true hmode) haxis
  | sfc =>
      have hnot := hcurve loop hloop
      rw [Loop.isSfcOn, Loop.isSfc, decide_eq_true hmode, decide_eq_true haxis] at hnot
      cases hnot
  | seq =>
      rw [Loop.isParallel, hmode] at hparallel
      cases hparallel
  | prim =>
      rw [Loop.isParallel, hmode] at hparallel
      cases hparallel

namespace StaysOnTile

variable (h : program.StaysOnTile stride stays)

include h

/-- No K loop lies on the curve. -/
theorem curve : ∀ loop ∈ program.layout.loops, loop.isSfcOn .k = false := by
  intro loop hloop
  rw [← Bool.not_eq_true, Loop.isSfcOn, Bool.and_eq_true]
  rintro ⟨hsfc, haxis⟩
  have hparallel : loop.isParallel = true := by
    rw [Loop.isParallel, of_decide_eq_true hsfc]
    rfl
  have hnot := h.own loop hloop hparallel
  rw [h.reduction loop hloop (of_decide_eq_true haxis)] at hnot
  cases hnot

variable (hcut : Layout.Cut program.layout.loops before omp sfc after kernel)

include hcut

/-- The loops that threads share move to other tiles. -/
theorem shared : (∀ loop ∈ omp, stays loop = false) ∧ ∀ loop ∈ sfc, stays loop = false := by
  constructor
  · intro loop hloop
    apply h.own loop (by rw [hcut.append]; simp [hloop])
    rw [Loop.isParallel, hcut.omp loop hloop]
    rfl
  · intro loop hloop
    apply h.own loop (by rw [hcut.append]; simp [hloop])
    rw [Loop.isParallel, hcut.sfc loop hloop]
    rfl

/-- Outside the kernel, the loops that stay are sequential. -/
theorem filter_outerLoops : (outerLoops program.layout.loops).filter stays =
    (before ++ after).filter stays := by
  obtain ⟨homp, hsfc⟩ := h.shared hcut
  have hflat : omp.filter stays = [] := List.filter_eq_nil_iff.2 fun loop hloop => by
    rw [homp loop hloop]
    simp
  have hcurve : sfc.filter stays = [] := List.filter_eq_nil_iff.2 fun loop hloop => by
    rw [hsfc loop hloop]
    simp
  rw [hcut.outerLoops_eq, List.filter_append, List.filter_append, List.filter_append, hflat, hcurve,
    List.nil_append, List.nil_append, ← List.filter_append]

/-- The tiles of all threads are those of the loops outside the kernel that do not stay. -/
theorem flatMap_tiles_perm (hbuilt : program.IsBuilt) (hkeeps : program.KeepsParallel stride) :
    ((List.range program.layout.threads.total).flatMap fun thread =>
      program.shareOffsets (program.layout.shareOf thread)
        (offsets stride (before.filter fun loop => !stays loop))
        (offsets stride (after.filter fun loop => !stays loop))).Perm
      (offsets stride ((outerLoops program.layout.loops).filter fun loop => !stays loop)) := by
  obtain ⟨homp, hsfc⟩ := h.shared hcut
  have hnone : program.layout.loops.filter (Loop.isSfcOn .k) = [] :=
    List.filter_eq_nil_iff.2 fun loop hloop => by
      rw [h.curve loop hloop]
      simp
  have hperm := hbuilt.sound.filter_isSfc_perm
  rw [hcut.filter_sfc, hnone, List.append_nil] at hperm
  apply flatMap_shareOffsets_filter hbuilt hkeeps hcut
  · intro loop hloop
    rw [homp loop hloop]
    rfl
  · rwa [List.filter_eq_self.2 fun loop hloop => by rw [hsfc loop hloop]; rfl]

/-- The schedule of a thread visits each tile in the order of the sequential loops that stay. -/
theorem runs_threadVisits (hbuilt : program.IsBuilt) {share : Share} (hm : 0 < share.m.length)
    (hn : 0 < share.n.length) (homp : 0 < share.omp.length)
    (hout : ((program.shareOffsets share
      (offsets stride (before.filter fun loop => !stays loop))
      (offsets stride (after.filter fun loop => !stays loop))).map Operands.out).Nodup) :
    Runs (program.threadVisits stride before after share)
      (program.shareOffsets share (offsets stride (before.filter fun loop => !stays loop))
        (offsets stride (after.filter fun loop => !stays loop)))
      (sequentialVisits stride ((before ++ after).filter stays)) := by
  have hmem : ∀ loop ∈ before ++ after, loop ∈ program.layout.loops := fun loop hloop => by
    rw [hcut.append]
    rcases List.mem_append.1 hloop with h | h <;> simp [h]
  have hsize : ∀ loop ∈ before ++ after, 1 ≤ loop.size := fun loop hloop =>
    hbuilt.sizes loop (hmem loop hloop)
  have hk : ∀ loop ∈ before ++ after, loop.axis = .k → stays loop = true := fun loop hloop =>
    h.reduction loop (hmem loop hloop)
  have hstill : ∀ loop ∈ before ++ after, stays loop = true → (stride loop).out = 0 :=
    fun loop hloop hstays => (h.still loop (hmem loop hloop) hstays).2
  rw [List.forall_mem_append] at hsize hk hstill
  obtain ⟨hbefore, hflat, homps, hbox, hboxes, hafter⟩ := nodup_of_shareOffsets hm hn homp
    (offsets_filter_ne_nil stride hsize.1 _) (offsets_filter_ne_nil stride hsize.2 _) hout
  have hbrackets := brackets_boxVisits hbuilt (fun loop hloop hred =>
    (h.still loop hloop (h.reduction loop hloop (of_decide_eq_true hred))).1)
    (Int.le_of_lt hm) (Int.le_of_lt hn) hboxes
  rw [kTasks_eq_one hbuilt h.curve] at hbrackets
  -- the flat phase and the curve go to each of their tiles once, so that only the loops in front
  -- of them and behind them are left in the run
  have hruns := (runs_sequentialVisits hsize.1 hk.1 hstill.1 hbefore).nest
    ((Runs.of_brackets (brackets_flatVisits hbuilt _ homps)).nest
      ((Runs.of_brackets hbrackets).nest
        (runs_sequentialVisits hsize.2 hk.2 hstill.2 hafter) hbox) hflat) hout
  rwa [single_nest, single_nest, ← sequentialVisits_append, ← List.filter_append] at hruns

/-- The schedules of all threads visit each tile in the order of the sequential loops that stay. -/
theorem runs_launchVisits (hbuilt : program.IsBuilt) (hkeeps : program.KeepsParallel stride)
    (hout : ((offsets stride ((outerLoops program.layout.loops).filter fun loop =>
      !stays loop)).map Operands.out).Nodup) :
    Runs (program.launchVisits stride before after)
      (offsets stride ((outerLoops program.layout.loops).filter fun loop => !stays loop))
      (sequentialVisits stride ((outerLoops program.layout.loops).filter stays)) := by
  have htiles := h.flatMap_tiles_perm hcut hbuilt hkeeps
  have hall := (htiles.map Operands.out).nodup_iff.2 hout
  rw [h.filter_outerLoops hcut]
  refine Runs.perm (Runs.flatMap (fun thread hthread => ?_) List.nodup_range hall) htiles
  obtain ⟨work, hdoes⟩ := hbuilt.exists_does (List.mem_range.1 hthread)
  rw [List.map_flatMap, List.nodup_flatMap] at hall
  exact h.runs_threadVisits hcut hbuilt hdoes.m_pos hdoes.n_pos hdoes.omp_pos (hall.1 thread hthread)

end StaysOnTile

/-- The visits of a tile are the same for any numbers of threads. -/
theorem onTile_launchVisits_congr (hbuilt : program.IsBuilt) (hbuilt' : program'.IsBuilt)
    (hloops : program'.layout.loops = program.layout.loops)
    (hkeeps : program.KeepsParallel stride)
    (hcut : Layout.Cut program.layout.loops before omp sfc after kernel)
    (hcurve : ∀ loop ∈ program.layout.loops, loop.isSfcOn .k = false)
    (hk : ∀ loop ∈ program.layout.loops, loop.isReduction = true →
      loop.strides.out = 0 ∧ (stride loop).out = 0)
    (hout : ((offsets stride ((outerLoops program.layout.loops).filter fun loop =>
      !loop.isReduction)).map Operands.out).Nodup) (out : Int) :
    onTile (program'.launchVisits stride before after) out =
      onTile (program.launchVisits stride before after) out := by
  have hruns := (staysOnTile_isReduction hbuilt hcurve hk).runs_launchVisits hcut hbuilt hkeeps hout
  rw [← hloops] at hcut hcurve hk hout
  have hruns' := (staysOnTile_isReduction hbuilt' hcurve hk).runs_launchVisits hcut hbuilt'
    (fun loop hloop => hkeeps loop (hloops ▸ hloop)) hout
  rw [hloops] at hruns'
  -- both orders are that of the sequential loops; elsewhere neither has a visit
  by_cases htile : ∃ t ∈ offsets stride ((outerLoops program.layout.loops).filter fun loop =>
      !loop.isReduction), t.out = out
  · obtain ⟨t, ht, rfl⟩ := htile
    rw [hruns.order t ht, hruns'.order t ht]
  · have hnone : ∀ {vs run}, Runs vs (offsets stride ((outerLoops program.layout.loops).filter
        fun loop => !loop.isReduction)) run → onTile vs out = [] := fun h =>
      List.filter_eq_nil_iff.2 fun v hv heq => by
        obtain ⟨t, ht, hvt⟩ := h.tile v hv
        exact htile ⟨t, ht, hvt.symm.trans (of_decide_eq_true heq)⟩
    rw [hnone hruns, hnone hruns']

end Program

end LoopNest
