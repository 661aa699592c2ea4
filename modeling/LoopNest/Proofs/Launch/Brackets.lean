import LoopNest.Proofs.Launch.MainCalls

/-!
# First and last visits

The visits of an output tile carry the first flag once, in front, and the last flag once, at the
end. `Brackets` says this of a list of visits: it reaches some tiles, and each of them through all
steps of a reduction, the flags of which are those of a run (`bracketFlags`).

Bracketed lists nest (`Brackets.nest`) as long as tiles do not meet. A sequential loop brackets its
own iterations, and so does the walk through a box, whose visits are numbered cell by cell
(`Program.brackets_boxVisits`). The main statement is `Program.brackets_threadVisits`: the schedule
of a thread brackets the tiles of its share.
-/

namespace LoopNest

/-! ## Flags of a run -/

/-- The two flags of a visit. -/
def Visit.flags (v : Visit) : Bool × Bool := (v.first, v.last)

/-- The flags of a run of visits: the first one is the first, the last one is the last. -/
def bracketFlags (count : Nat) : List (Bool × Bool) :=
  (List.range count).map fun i => (decide (i = 0), decide (i + 1 = count))

/-- Runs inside a run are a run. -/
theorem bracketFlags_mul (a b : Nat) :
    bracketFlags (a * b) = (bracketFlags a).flatMap fun x =>
      (bracketFlags b).map fun y => (x.1 && y.1, x.2 && y.2) := by
  simp only [bracketFlags, range_mul, List.map_flatMap, List.flatMap_map, List.map_map]
  refine List.flatMap_congr fun i hi => List.map_congr_left fun j hj => ?_
  have hi : i < a := List.mem_range.1 hi
  have hj : j < b := List.mem_range.1 hj
  -- the first of all is the first of the first run, the last of all the last of the last
  have hfirst : i * b + j = 0 ↔ i = 0 ∧ j = 0 := by
    rw [Nat.add_eq_zero_iff, Nat.mul_eq_zero]
    omega
  have hlast : i * b + j + 1 = a * b ↔ i + 1 = a ∧ j + 1 = b := by
    constructor
    · intro h
      have hle : (i + 1) * b ≤ a * b := Nat.mul_le_mul_right b hi
      have hia : i + 1 = a := by
        by_contra hne
        have : (i + 1 + 1) * b ≤ a * b := Nat.mul_le_mul_right b (by omega)
        rw [Nat.succ_mul, Nat.succ_mul] at this
        omega
      subst hia
      rw [Nat.succ_mul] at h
      omega
    · rintro ⟨rfl, rfl⟩
      rw [Nat.succ_mul]
      omega
  simp only [Function.comp_apply, hfirst, hlast, Bool.decide_and]

/-! ## Bracketed visits -/

/-- The visits of the tile at an output offset. -/
def onTile (vs : List Visit) (out : Int) : List Visit := vs.filter fun v => v.offset.out = out

/-- Every visit belongs to one of the tiles, and the visits of each tile are a run through the steps
of a reduction. -/
structure Brackets (vs : List Visit) (tiles steps : List (Operands Int)) : Prop where
  tile : ∀ v ∈ vs, ∃ t ∈ tiles, v.offset.out = t.out
  flags : ∀ t ∈ tiles, (onTile vs t.out).map Visit.flags = bracketFlags steps.length
  offsets : ∀ t ∈ tiles, ((onTile vs t.out).map Visit.offset).Perm (steps.map (t + ·))

/-- Sums that do not meet in the output come from the same terms. -/
theorem eq_of_nodup_sumset {ι κ : Type} {xs : List ι} {ys : List κ} {f : ι → Operands Int}
    {g : κ → Operands Int}
    (hout : ((sumset (xs.map f) (ys.map g)).map Operands.out).Nodup) {x x' : ι} {y y' : κ}
    (hx : x ∈ xs) (hx' : x' ∈ xs) (hy : y ∈ ys) (hy' : y' ∈ ys)
    (h : (f x).out + (g y).out = (f x').out + (g y').out) : x = x' ∧ y = y' := by
  have hproduct : (sumset (xs.map f) (ys.map g)).map Operands.out =
      (xs.flatMap fun x => ys.map (Prod.mk x)).map fun p => (f p.1).out + (g p.2).out := by
    simp [sumset, List.map_flatMap, List.flatMap_map, Function.comp_def]
  rw [hproduct] at hout
  have hmem : ∀ {x y}, x ∈ xs → y ∈ ys → (x, y) ∈ xs.flatMap fun x => ys.map (Prod.mk x) :=
    fun hx hy => List.mem_flatMap.2 ⟨_, hx, List.mem_map_of_mem hy⟩
  exact Prod.mk.inj (List.inj_on_of_nodup_map hout (hmem hx hy) (hmem hx' hy') h)

theorem filter_nest {vs ws : List Visit} {p q r : Visit → Bool}
    (h : ∀ v ∈ vs, ∀ w ∈ ws, r (v.join w) = (p v && q w)) :
    (nest vs ws).filter r = nest (vs.filter p) (ws.filter q) := by
  induction vs with
  | nil => rfl
  | cons v vs ih =>
      rw [List.forall_mem_cons] at h
      have hinner : (ws.map v.join).filter r = if p v then (ws.filter q).map v.join else [] := by
        rw [List.filter_map, List.filter_congr (p := r ∘ v.join) h.1]
        cases p v with
        | true => simp
        | false => simp
      have hrest := ih h.2
      rw [nest] at hrest ⊢
      rw [List.flatMap_cons, List.filter_append, hinner, hrest, List.filter_cons]
      cases hp : p v with
      | true => rfl
      | false => rfl

section Nest

variable {vs ws : List Visit} {tiles tiles' : List (Operands Int)}
  (hvs : ∀ v ∈ vs, ∃ t ∈ tiles, v.offset.out = t.out)
  (hws : ∀ w ∈ ws, ∃ t ∈ tiles', w.offset.out = t.out)

include hvs hws

/-- Nested visits belong to sums of tiles. -/
theorem exists_tile_nest :
    ∀ u ∈ nest vs ws, ∃ t ∈ sumset tiles tiles', u.offset.out = t.out := by
  intro u hu
  obtain ⟨v, hv, hu⟩ := List.mem_flatMap.1 hu
  obtain ⟨w, hw, rfl⟩ := List.mem_map.1 hu
  obtain ⟨t, ht, hvt⟩ := hvs v hv
  obtain ⟨t', ht', hwt⟩ := hws w hw
  refine ⟨t + t', mem_sumset.2 ⟨t, ht, t', ht', rfl⟩, ?_⟩
  show v.offset.out + w.offset.out = t.out + t'.out
  rw [hvt, hwt]

/-- Where tiles do not meet, the nested visits of a tile are the visits of its two parts, nested. -/
theorem onTile_nest (hout : ((sumset tiles tiles').map Operands.out).Nodup) {t t' : Operands Int}
    (ht : t ∈ tiles) (ht' : t' ∈ tiles') :
    onTile (nest vs ws) (t + t').out = nest (onTile vs t.out) (onTile ws t'.out) := by
  refine filter_nest fun v hv w hw => ?_
  obtain ⟨u, hu, hvu⟩ := hvs v hv
  obtain ⟨u', hu', hwu⟩ := hws w hw
  rw [← Bool.decide_and, decide_eq_decide]
  constructor
  · intro heq
    have hsum : u.out + u'.out = t.out + t'.out := by rw [← hvu, ← hwu]; exact heq
    have hsame := eq_of_nodup_sumset (f := id) (g := id) (by rwa [List.map_id, List.map_id])
      hu ht hu' ht' hsum
    exact ⟨by rw [hvu, hsame.1], by rw [hwu, hsame.2]⟩
  · rintro ⟨hv, hw⟩
    show v.offset.out + w.offset.out = t.out + t'.out
    rw [hv, hw]

end Nest

namespace Brackets

variable {vs ws : List Visit} {tiles tiles' steps steps' : List (Operands Int)}

/-- Bracketed visits nest if their tiles do not meet. -/
theorem nest (h : Brackets vs tiles steps) (h' : Brackets ws tiles' steps')
    (hout : ((sumset tiles tiles').map Operands.out).Nodup) :
    Brackets (nest vs ws) (sumset tiles tiles') (sumset steps steps') := by
  have hfilter : ∀ t ∈ tiles, ∀ t' ∈ tiles', onTile (LoopNest.nest vs ws) (t + t').out =
      LoopNest.nest (onTile vs t.out) (onTile ws t'.out) := fun _ ht _ ht' =>
    onTile_nest h.tile h'.tile hout ht ht'
  refine ⟨exists_tile_nest h.tile h'.tile, fun s hs => ?_, fun s hs => ?_⟩
  · obtain ⟨t, ht, t', ht', rfl⟩ := mem_sumset.1 hs
    rw [hfilter t ht t' ht', length_sumset, bracketFlags_mul, ← h.flags t ht, ← h'.flags t' ht']
    simp only [LoopNest.nest, List.map_flatMap, List.flatMap_map, List.map_map]
    rfl
  · obtain ⟨t, ht, t', ht', rfl⟩ := mem_sumset.1 hs
    rw [hfilter t ht t' ht', map_offset_nest]
    refine (sumset_perm (h.offsets t ht) (h'.offsets t' ht')).trans (List.Perm.of_eq ?_)
    simp only [sumset, List.map_flatMap, List.flatMap_map, List.map_map]
    exact List.flatMap_congr fun r _ => List.map_congr_left fun r' _ => add_add_add_comm _ _ _ _

/-- A tile has one visit for each step of the reduction. -/
theorem length_onTile (h : Brackets vs tiles steps) {t : Operands Int} (ht : t ∈ tiles) :
    (onTile vs t.out).length = steps.length := by
  have hlength := congrArg List.length (h.flags t ht)
  rwa [bracketFlags, List.length_map, List.length_map, List.length_range] at hlength

/-- The visits of a tile do not leave it if the steps of the reduction do not. -/
theorem stays (h : Brackets vs tiles steps) (hstill : ∀ r ∈ steps, r.out = 0 ∧ r.outAux = 0)
    {t : Operands Int} (ht : t ∈ tiles) {v : Visit} (hv : v ∈ onTile vs t.out) :
    v.offset.out = t.out ∧ v.offset.outAux = t.outAux := by
  obtain ⟨r, hr, hvr⟩ := List.mem_map.1 ((h.offsets t ht).mem_iff.1 (List.mem_map_of_mem hv))
  obtain ⟨hout, haux⟩ := hstill r hr
  rw [← hvr, Operands.add_out, Operands.add_outAux, hout, haux, add_zero, add_zero]
  exact ⟨rfl, rfl⟩

/-- Visits with both flags bracket themselves if their tiles do not meet. -/
theorem once (hflags : ∀ v ∈ vs, v.flags = (true, true))
    (hout : ((vs.map Visit.offset).map Operands.out).Nodup) :
    Brackets vs (vs.map Visit.offset) [0] := by
  rw [List.map_map] at hout
  have honly : ∀ v ∈ vs, onTile vs v.offset.out = [v] := by
    intro v hv
    refine List.perm_singleton.1 ((List.perm_ext_iff_of_nodup (hout.of_map.filter _)
      (List.nodup_singleton v)).2 fun w => ?_)
    rw [List.mem_filter, List.mem_singleton, decide_eq_true_eq]
    constructor
    · rintro ⟨hw, heq⟩
      exact List.inj_on_of_nodup_map hout hw hv heq
    · rintro rfl
      exact ⟨hv, rfl⟩
  refine ⟨fun v hv => ⟨_, List.mem_map_of_mem hv, rfl⟩, fun t ht => ?_, fun t ht => ?_⟩
  · obtain ⟨v, hv, rfl⟩ := List.mem_map.1 ht
    rw [honly v hv, List.map_singleton, hflags v hv]
    rfl
  · obtain ⟨v, hv, rfl⟩ := List.mem_map.1 ht
    rw [honly v hv]
    simp

/-- A run of visits brackets the one tile that it does not leave. -/
theorem run (hflags : vs.map Visit.flags = bracketFlags vs.length)
    (hout : ∀ v ∈ vs, v.offset.out = 0) : Brackets vs [0] (vs.map Visit.offset) := by
  have hall : onTile vs 0 = vs := List.filter_eq_self.2 fun v hv => by simpa using hout v hv
  refine ⟨fun v hv => ⟨0, List.mem_singleton.2 rfl, hout v hv⟩, fun t ht => ?_, fun t ht => ?_⟩
  · obtain rfl := List.mem_singleton.1 ht
    rw [Operands.zero_out, hall, List.length_map, hflags]
  · obtain rfl := List.mem_singleton.1 ht
    rw [Operands.zero_out, hall, List.map_congr_left fun r _ => zero_add r, List.map_id']

end Brackets

theorem nodup_of_nodup_sumset_right {xs ys : List (Operands Int)}
    (hout : ((sumset xs ys).map Operands.out).Nodup) (hxs : xs ≠ []) :
    (ys.map Operands.out).Nodup := by
  obtain ⟨x, rest, rfl⟩ := List.exists_cons_of_ne_nil hxs
  rw [← List.singleton_append, sumset_append, List.map_append] at hout
  have hx := hout.of_append_left
  rw [show (sumset [x] ys).map Operands.out = (ys.map Operands.out).map (x.out + ·) by
    simp [sumset]] at hx
  exact hx.of_map

theorem nodup_of_nodup_sumset_left {xs ys : List (Operands Int)}
    (hout : ((sumset xs ys).map Operands.out).Nodup) (hys : ys ≠ []) :
    (xs.map Operands.out).Nodup :=
  nodup_of_nodup_sumset_right ((((sumset_comm xs ys).map _).nodup_iff).1 hout) hys

/-! ## Sequential loops -/

theorem map_offset_loopVisits (stride : Loop → Operands Int) (loop : Loop) :
    (loopVisits stride loop).map Visit.offset = multiples loop.size (stride loop) := by
  rw [loopVisits, Program.sequentialSteps, List.map_map, List.map_map]
  rfl

/-- A K loop is a run through its iterations. -/
theorem flags_loopVisits (stride : Loop → Operands Int) {loop : Loop} (hk : loop.axis = .k) :
    (loopVisits stride loop).map Visit.flags = bracketFlags (loopVisits stride loop).length := by
  rw [loopVisits, Program.sequentialSteps, List.map_map, List.map_map, List.length_map,
    List.length_map, length_upTo, upTo, List.map_map, bracketFlags]
  refine List.map_congr_left fun i hi => ?_
  have hi : i < loop.size.toNat := List.mem_range.1 hi
  simp only [Function.comp_apply, Visit.flags, Step.visit, hk, decide_true, Bool.not_true,
    Bool.false_or, Prod.mk.injEq, decide_eq_decide]
  omega

/-- A loop of another axis has both flags in every iteration. -/
theorem flags_loopVisits_of_ne (stride : Loop → Operands Int) {loop : Loop} (hk : loop.axis ≠ .k) :
    ∀ v ∈ loopVisits stride loop, v.flags = (true, true) := by
  intro v hv
  rw [loopVisits, Program.sequentialSteps, List.map_map] at hv
  obtain ⟨i, -, rfl⟩ := List.mem_map.1 hv
  simp [Visit.flags, Step.visit, hk]

/-- A loop that does not move through the output stays on a tile. -/
theorem out_of_mem_loopVisits {stride : Loop → Operands Int} {loop : Loop}
    (hk : (stride loop).out = 0) : ∀ v ∈ loopVisits stride loop, v.offset.out = 0 := by
  intro v hv
  have hmem := List.mem_map_of_mem (f := Visit.offset) hv
  rw [map_offset_loopVisits] at hmem
  obtain ⟨i, -, hi⟩ := List.mem_map.1 hmem
  rw [← hi, Operands.zsmul_eq_scale, Operands.scale_out, hk, zero_mul]

/-- Whether a loop belongs to the reduction. -/
def Loop.isReduction (loop : Loop) : Bool := loop.axis = .k

/-- If the tiles of a list of loops do not meet in the output, neither do the iterations of its first
loop, unless the loop stays on its tile, nor the tiles of the loops further in. -/
theorem nodup_of_nodup_offsets_cons {stride : Loop → Operands Int} {stays : Loop → Bool}
    {loop : Loop} {rest : List Loop} (hsize : 1 ≤ loop.size) (hsizes : ∀ loop ∈ rest, 1 ≤ loop.size)
    (hout : ((offsets stride ((loop :: rest).filter fun loop => !stays loop)).map
      Operands.out).Nodup) :
    (stays loop = false → ((multiples loop.size (stride loop)).map Operands.out).Nodup) ∧
      ((offsets stride (rest.filter fun loop => !stays loop)).map Operands.out).Nodup := by
  have hrest := offsets_filter_ne_nil stride hsizes fun loop => !stays loop
  have hmultiples : multiples loop.size (stride loop) ≠ [] := by
    refine List.ne_nil_of_length_pos ?_
    rw [length_multiples]
    omega
  rw [offsets_filter_cons] at hout
  cases hloop : stays loop with
  | true =>
      simp only [hloop, Bool.not_true, Bool.false_eq_true, if_false] at hout
      exact ⟨fun h => absurd h (by decide), nodup_of_nodup_sumset_right hout (by simp)⟩
  | false =>
      simp only [hloop, Bool.not_false, if_true] at hout
      exact ⟨fun _ => nodup_of_nodup_sumset_left hout hrest,
        nodup_of_nodup_sumset_right hout hmultiples⟩

/-- Sequential loops bracket the tiles of the loops outside the reduction. -/
theorem brackets_sequentialVisits {stride : Loop → Operands Int} {loops : List Loop}
    (hsize : ∀ loop ∈ loops, 1 ≤ loop.size)
    (hk : ∀ loop ∈ loops, loop.isReduction = true → (stride loop).out = 0)
    (hout : ((offsets stride (loops.filter fun loop => !loop.isReduction)).map
      Operands.out).Nodup) :
    Brackets (sequentialVisits stride loops)
      (offsets stride (loops.filter fun loop => !loop.isReduction))
      (offsets stride (loops.filter Loop.isReduction)) := by
  induction loops with
  | nil => exact .run rfl (by simp [sequentialVisits, Visit.single])
  | cons loop rest ih =>
      rw [List.forall_mem_cons] at hsize hk
      obtain ⟨hnew, hrest⟩ := nodup_of_nodup_offsets_cons hsize.1 hsize.2 hout
      rw [offsets_filter_cons] at hout ⊢
      rw [offsets_filter_cons, sequentialVisits]
      cases hloop : loop.isReduction with
      | true =>
          have haxis : loop.axis = .k := of_decide_eq_true hloop
          simp only [hloop, Bool.not_true, Bool.false_eq_true, if_false, if_true] at hout ⊢
          have hrun := Brackets.run (flags_loopVisits stride haxis)
            (out_of_mem_loopVisits (hk.1 hloop))
          rw [map_offset_loopVisits] at hrun
          exact hrun.nest (ih hsize.2 hk.2 hrest) hout
      | false =>
          have haxis : loop.axis ≠ .k := of_decide_eq_false hloop
          simp only [hloop, Bool.not_false, Bool.false_eq_true, if_false, if_true] at hout ⊢
          have honce := Brackets.once (flags_loopVisits_of_ne stride haxis)
            (by rw [map_offset_loopVisits]; exact hnew hloop)
          rw [map_offset_loopVisits] at honce
          exact honce.nest (ih hsize.2 hk.2 hrest) hout

/-! ## Parallel loops -/

theorem mem_numbers {interval : Interval} {i : Int} :
    i ∈ interval.numbers ↔ 0 ≤ i - interval.start ∧ i - interval.start < interval.length := by
  simp only [Interval.numbers, List.mem_map, mem_upTo]
  constructor
  · rintro ⟨j, hj, rfl⟩
    omega
  · intro h
    exact ⟨i - interval.start, h, by omega⟩

/-- Members with the same key are numbered in order. -/
theorem filter_numberedBy {α β : Type} [DecidableEq β] (key : α → β) (seen : List β) (xs : List α)
    (b : β) :
    (numberedBy key seen xs).filter (fun p => key p.1 = b) =
      (xs.filter fun x => key x = b).zipIdx (seen.count b) := by
  induction xs generalizing seen with
  | nil => rfl
  | cons x rest ih =>
      rw [numberedBy, List.filter_cons, List.filter_cons, ih]
      by_cases h : key x = b
      · subst h
        simp [List.zipIdx_cons]
      · rw [List.count_cons_of_ne h]
        simp [h]

namespace Program

variable {program : Program} {share : Share}

/-- The visits of a flat interval bracket its tiles. -/
theorem brackets_flatVisits (hbuilt : program.IsBuilt) (interval : Interval)
    (hout : ((interval.numbers.map program.flatOffset).map Operands.out).Nodup) :
    Brackets (program.flatVisits interval) (interval.numbers.map program.flatOffset) [0] := by
  rw [← map_offset_flatVisits hbuilt] at hout ⊢
  refine .once (fun v hv => ?_) hout
  rw [flatVisits, flatSteps, List.map_map] at hv
  obtain ⟨i, -, rfl⟩ := List.mem_map.1 hv
  rfl

/-- Numbers on K loops do not move the output. -/
theorem out_axisOffset (hk : ∀ loop ∈ program.layout.loops, loop.isReduction = true →
    loop.strides.out = 0) (id : Int) : (program.axisOffset .k id).out = 0 := by
  have hdigits : ∀ {run : List Loop}, (∀ loop ∈ run, loop.strides.out = 0) → ∀ id : Int,
      (mixedOffset (run.map fun loop => (loop.size, loop.strides)) id).out = 0 := by
    intro run hrun
    induction run with
    | nil => exact fun _ => rfl
    | cons loop run ih =>
        rw [List.forall_mem_cons] at hrun
        intro id
        rw [List.map_cons, mixedOffset, Operands.add_out, Operands.scale_out, hrun.1, zero_mul,
          ih hrun.2, add_zero]
  refine hdigits (fun loop hloop => ?_) id
  obtain ⟨hloop, haxis⟩ := List.mem_filter.1 (List.mem_reverse.1 hloop)
  exact hk loop hloop (Bool.and_eq_true_iff.1 haxis).2

/-- The tasks of a path through a box lie in the intervals of the share. -/
theorem mem_numbers_of_mem_path (hm : 0 ≤ share.m.length) (hn : 0 ≤ share.n.length) {kTasks : Int}
    {p : Task × Nat} (hp : p ∈ numberedBy Task.tile [] (share.path kTasks)) :
    p.1.m ∈ share.m.numbers ∧ p.1.n ∈ share.n.numbers := by
  have hmem := List.mem_map_of_mem (f := Prod.fst) hp
  rw [map_fst_numberedBy] at hmem
  obtain ⟨hx, hy⟩ := Share.hasTile_of_mem_path hm hn hmem
  exact ⟨mem_numbers.2 hx, mem_numbers.2 hy⟩

/-- A task of a walk through a box is made on the tile of its cell. -/
theorem out_boxVisit (hbuilt : program.IsBuilt)
    (hk : ∀ loop ∈ program.layout.loops, loop.isReduction = true → loop.strides.out = 0)
    (p : Task × Nat) :
    (program.boxVisit p).offset.out =
      (program.axisOffset .m p.1.m + program.axisOffset .n p.1.n).out := by
  rw [boxVisit, taskOffset_eq hbuilt, Operands.add_out, out_axisOffset hk, add_zero]

/-- The visits of a tile are the tasks of its cell, numbered in order. -/
theorem onTile_boxVisits (hbuilt : program.IsBuilt)
    (hk : ∀ loop ∈ program.layout.loops, loop.isReduction = true → loop.strides.out = 0)
    (hm : 0 ≤ share.m.length) (hn : 0 ≤ share.n.length)
    (hout : ((sumset (share.m.numbers.map (program.axisOffset .m))
      (share.n.numbers.map (program.axisOffset .n))).map Operands.out).Nodup)
    {a b : Int} (ha : a ∈ share.m.numbers) (hb : b ∈ share.n.numbers) :
    onTile (program.boxVisits share) (program.axisOffset .m a + program.axisOffset .n b).out =
      (((share.path program.layout.kTasks).filter fun task => task.tile = (a, b)).zipIdx).map
        program.boxVisit := by
  have hfilter : (numberedBy Task.tile [] (share.path program.layout.kTasks)).filter
      (fun p => p.1.tile = (a, b)) =
        ((share.path program.layout.kTasks).filter fun task => task.tile = (a, b)).zipIdx :=
    filter_numberedBy Task.tile [] _ (a, b)
  rw [onTile, boxVisits, List.filter_map, ← hfilter]
  refine congrArg _ (List.filter_congr fun p hp => ?_)
  obtain ⟨hpm, hpn⟩ := mem_numbers_of_mem_path hm hn hp
  rw [Function.comp_apply, out_boxVisit hbuilt hk, decide_eq_decide]
  constructor
  · intro heq
    obtain ⟨rfl, rfl⟩ := eq_of_nodup_sumset hout hpm ha hpn hb heq
    rfl
  · intro heq
    obtain ⟨rfl, rfl⟩ := Prod.mk.inj heq
    rfl

/-- The visits of a walk through a box bracket its cells. -/
theorem brackets_boxVisits (hbuilt : program.IsBuilt)
    (hk : ∀ loop ∈ program.layout.loops, loop.isReduction = true → loop.strides.out = 0)
    (hm : 0 ≤ share.m.length) (hn : 0 ≤ share.n.length)
    (hout : ((sumset (share.m.numbers.map (program.axisOffset .m))
      (share.n.numbers.map (program.axisOffset .n))).map Operands.out).Nodup) :
    Brackets (program.boxVisits share)
      (sumset (share.m.numbers.map (program.axisOffset .m))
        (share.n.numbers.map (program.axisOffset .n)))
      ((upTo program.layout.kTasks).map (program.axisOffset .k)) := by
  have hcolumn : ∀ a ∈ share.m.numbers, ∀ b ∈ share.n.numbers,
      ((share.path program.layout.kTasks).filter fun task => task.tile = (a, b)).Perm
        ((upTo program.layout.kTasks).map fun z => ⟨a, b, z⟩) := fun a ha b hb =>
    Share.column_perm program.layout.kTasks hm hn (a, b) ⟨mem_numbers.1 ha, mem_numbers.1 hb⟩
  refine ⟨fun v hv => ?_, fun t ht => ?_, fun t ht => ?_⟩
  · obtain ⟨p, hp, rfl⟩ := List.mem_map.1 hv
    obtain ⟨hpm, hpn⟩ := mem_numbers_of_mem_path hm hn hp
    exact ⟨_, mem_sumset.2 ⟨_, List.mem_map_of_mem hpm, _, List.mem_map_of_mem hpn, rfl⟩,
      out_boxVisit hbuilt hk p⟩
  · obtain ⟨x, hx, y, hy, rfl⟩ := mem_sumset.1 ht
    obtain ⟨a, ha, rfl⟩ := List.mem_map.1 hx
    obtain ⟨b, hb, rfl⟩ := List.mem_map.1 hy
    have hlength := (hcolumn a ha b hb).length_eq
    have hflags : Visit.flags ∘ program.boxVisit =
        (fun i : Nat => (decide (i = 0), decide (i + 1 = program.layout.kTasks.toNat))) ∘
          Prod.snd := by
      funext p
      simp only [Function.comp_apply, Visit.flags, boxVisit, Prod.mk.injEq, decide_eq_decide]
      omega
    rw [List.length_map, length_upTo] at hlength
    rw [onTile_boxVisits hbuilt hk hm hn hout ha hb, List.length_map, length_upTo, List.map_map,
      hflags, ← List.map_map, List.zipIdx_map_snd, hlength, ← List.range_eq_range']
    rfl
  · obtain ⟨x, hx, y, hy, rfl⟩ := mem_sumset.1 ht
    obtain ⟨a, ha, rfl⟩ := List.mem_map.1 hx
    obtain ⟨b, hb, rfl⟩ := List.mem_map.1 hy
    have hoffset : Visit.offset ∘ program.boxVisit = program.taskOffset ∘ Prod.fst := rfl
    rw [onTile_boxVisits hbuilt hk hm hn hout ha hb, List.map_map, hoffset, ← List.map_map,
      List.zipIdx_map_fst]
    refine ((hcolumn a ha b hb).map _).trans (List.Perm.of_eq ?_)
    rw [List.map_map, List.map_map]
    exact List.map_congr_left fun z _ => taskOffset_eq hbuilt _

theorem map_numbers_ne_nil {interval : Interval} (hlength : 0 < interval.length)
    (f : Int → Operands Int) : interval.numbers.map f ≠ [] := by
  refine List.ne_nil_of_mem (List.mem_map_of_mem (mem_numbers (i := interval.start).2 ?_))
  omega

/-- The tiles of every level in turn do not meet if the tiles of a share do not. -/
theorem nodup_of_shareOffsets (hm : 0 < share.m.length) (hn : 0 < share.n.length)
    (homp : 0 < share.omp.length) {outer inner : List (Operands Int)} (houter : outer ≠ [])
    (hinner : inner ≠ [])
    (hout : ((program.shareOffsets share outer inner).map Operands.out).Nodup) :
    (outer.map Operands.out).Nodup ∧
      ((sumset (share.omp.numbers.map program.flatOffset)
        (sumset (sumset (share.m.numbers.map (program.axisOffset .m))
          (share.n.numbers.map (program.axisOffset .n))) inner)).map Operands.out).Nodup ∧
      ((share.omp.numbers.map program.flatOffset).map Operands.out).Nodup ∧
      ((sumset (sumset (share.m.numbers.map (program.axisOffset .m))
          (share.n.numbers.map (program.axisOffset .n))) inner).map Operands.out).Nodup ∧
      ((sumset (share.m.numbers.map (program.axisOffset .m))
        (share.n.numbers.map (program.axisOffset .n))).map Operands.out).Nodup ∧
      (inner.map Operands.out).Nodup := by
  have hpos : ∀ {xs ys : List (Operands Int)}, xs ≠ [] → ys ≠ [] → sumset xs ys ≠ [] := by
    intro xs ys hxs hys
    rw [← List.length_pos_iff, length_sumset]
    exact Nat.mul_pos (List.length_pos_iff.2 hxs) (List.length_pos_iff.2 hys)
  -- each factor of a sum without repetitions has none, as long as the other is not empty
  have hflatPos := map_numbers_ne_nil homp program.flatOffset
  have hbox := hpos (map_numbers_ne_nil hm (program.axisOffset .m))
    (map_numbers_ne_nil hn (program.axisOffset .n))
  have hflat := nodup_of_nodup_sumset_right hout houter
  have hcurve := nodup_of_nodup_sumset_right hflat hflatPos
  exact ⟨nodup_of_nodup_sumset_left hout (hpos hflatPos (hpos hbox hinner)), hflat,
    nodup_of_nodup_sumset_left hflat (hpos hbox hinner), hcurve,
    nodup_of_nodup_sumset_left hcurve hinner, nodup_of_nodup_sumset_right hcurve hbox⟩

/-- The schedule of a thread brackets the tiles of its share. -/
theorem brackets_threadVisits (hbuilt : program.IsBuilt) {stride : Loop → Operands Int}
    (hm : 0 < share.m.length) (hn : 0 < share.n.length) (homp : 0 < share.omp.length)
    {before after : List Loop} (hsize : ∀ loop ∈ before ++ after, 1 ≤ loop.size)
    (hk : ∀ loop ∈ program.layout.loops, loop.isReduction = true → loop.strides.out = 0)
    (hstride : ∀ loop ∈ before ++ after, loop.isReduction = true → (stride loop).out = 0)
    (hout : ((program.shareOffsets share
      (offsets stride (before.filter fun loop => !loop.isReduction))
      (offsets stride (after.filter fun loop => !loop.isReduction))).map Operands.out).Nodup) :
    Brackets (program.threadVisits stride before after share)
      (program.shareOffsets share
        (offsets stride (before.filter fun loop => !loop.isReduction))
        (offsets stride (after.filter fun loop => !loop.isReduction)))
      (sumset (offsets stride (before.filter Loop.isReduction))
        (sumset [0] (sumset ((upTo program.layout.kTasks).map (program.axisOffset .k))
          (offsets stride (after.filter Loop.isReduction))))) := by
  rw [List.forall_mem_append] at hsize hstride
  obtain ⟨hbefore, hflat, homps, hcurve, hboxes, hafter⟩ :=
    nodup_of_shareOffsets hm hn homp (offsets_filter_ne_nil stride hsize.1 _)
      (offsets_filter_ne_nil stride hsize.2 _) hout
  have hbracketsBox := (brackets_boxVisits hbuilt hk (Int.le_of_lt hm) (Int.le_of_lt hn)
    hboxes).nest (brackets_sequentialVisits hsize.2 hstride.2 hafter) hcurve
  have hbracketsFlat := (brackets_flatVisits hbuilt share.omp homps).nest hbracketsBox hflat
  exact (brackets_sequentialVisits hsize.1 hstride.1 hbefore).nest hbracketsFlat hout

end Program

end LoopNest
