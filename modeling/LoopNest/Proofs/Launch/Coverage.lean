import LoopNest.Proofs.Launch.Accesses
import LoopNest.Proofs.Launch.Resets

/-!
# Scratch memory is written before it is read

The scratch memory of a thread still holds what earlier launches left there. `Program.Covered` says
of a list of calls that each of them reads of the scratch memory only what calls in front of it have
filled. Such calls have the same effect and the same look on all scratch memories of one size
(`Program.runCalls_congr_scratch`).

The calls of a thread are covered, for every list of loops (`Program.covered_threadCalls`). The
proof follows a thread through its levels with the set of the cells filled so far: a slot that is
used again is a slot that was filled (`Remembers`), and an input that stands in a slot will read
there what the loops inside its region reach (`Backed`).
-/

namespace LoopNest

namespace Program

/-! ## Calls that read what was filled -/

section Covered

variable {α : Type} (program : Program)

/-- The scratch cells that the copy of a block fills. -/
def targets (side : Side) (target : Int) : Set Int :=
  {a | ∃ region, program.region side = some region ∧
    ∃ move ∈ region.copy.moves, a = target + move.2}

/-- The scratch cells that calls fill. -/
def fills : List Call → Set Int
  | [] => ∅
  | .pack side _ target :: rest => program.targets side target ∪ fills rest
  | _ :: rest => fills rest

/-- The scratch cells that a main kernel reads of an input; the first cell is seen even if it is not
read. -/
def scratchReads (side : Side) (place : Place) : Set Int :=
  {a | place.source = .scratch ∧ ∃ i ∈ 0 :: program.kernels.main.reads side, a = place.address + i}

/-- Calls read of the scratch memory only what is filled or what calls in front of them fill. -/
def Covered (filled : Set Int) : List Call → Prop
  | [] => True
  | .pack side _ target :: rest => Covered (filled ∪ program.targets side target) rest
  | .touch .. :: rest => Covered filled rest
  | .main left right _ :: rest =>
      (program.scratchReads .left left ⊆ filled ∧ program.scratchReads .right right ⊆ filled) ∧
        Covered filled rest

variable {program} {filled filled' : Set Int}

theorem fills_append (calls calls' : List Call) :
    program.fills (calls ++ calls') = program.fills calls ∪ program.fills calls' := by
  induction calls with
  | nil => exact (Set.empty_union _).symm
  | cons call rest ih =>
      cases call with
      | pack side source target => simp only [List.cons_append, fills, ih, Set.union_assoc]
      | touch => exact ih
      | main => exact ih

theorem covered_append {calls calls' : List Call} (h : program.Covered filled calls)
    (h' : program.Covered (filled ∪ program.fills calls) calls') :
    program.Covered filled (calls ++ calls') := by
  induction calls generalizing filled with
  | nil => rwa [fills, Set.union_empty] at h'
  | cons call rest ih =>
      cases call with
      | pack => exact ih h (by rwa [Set.union_assoc])
      | touch => exact ih h h'
      | main => exact ⟨h.1, ih h.2 h'⟩

/-- Two scratch memories of one size with the same contents in some cells. -/
structure SameOn (filled : Set Int) (scratch scratch' : Buffer α) : Prop where
  size : scratch'.size = scratch.size
  read : ∀ a ∈ filled, Buffer.read? scratch' a = Buffer.read? scratch a

variable [Scalar α] {inputs : Inputs α} {scratch scratch' : Buffer α}

/-- After the copy of a block its targets are the same as well. -/
theorem SameOn.pack (h : SameOn filled scratch scratch') (side : Side) (source target : Int) :
    SameOn (filled ∪ program.targets side target)
      (program.pack inputs side source target scratch)
      (program.pack inputs side source target scratch') := by
  cases hregion : program.region side with
  | none =>
      have htargets : program.targets side target = ∅ := by simp [targets, hregion]
      rw [Program.pack, Program.pack, hregion, htargets, Set.union_empty]
      exact h
  | some region =>
      rw [pack_eq_fill hregion, pack_eq_fill hregion]
      refine ⟨by rw [StridedCopy.size_fill, StridedCopy.size_fill, h.size], fun a ha => ?_⟩
      by_cases hmove : ∃ move ∈ region.copy.moves, target + move.2 = a
      · obtain ⟨move, hmove, rfl⟩ := hmove
        exact StridedCopy.read?_fill_congr h.size hmove
      · -- a cell that the copy does not fill was the same before
        have hother : ∀ move ∈ region.copy.moves, target + move.2 ≠ a := fun move hmem heq =>
          hmove ⟨move, hmem, heq⟩
        rw [StridedCopy.read?_fill_frame hother, StridedCopy.read?_fill_frame hother]
        refine h.read a (ha.resolve_right ?_)
        rintro ⟨region', hregion', move, hmem, rfl⟩
        obtain rfl := Option.some.inj (hregion.symm.trans hregion')
        exact hother move hmem rfl

/-- A main kernel finds the same elements if what it reads is the same. -/
theorem SameOn.view (h : SameOn filled scratch scratch') {side : Side} {place : Place}
    (hreads : program.scratchReads side place ⊆ filled) {i : Int}
    (hi : i ∈ 0 :: program.kernels.main.reads side) :
    view inputs side scratch' place i = view inputs side scratch place i := by
  obtain ⟨source, address⟩ := place
  cases source with
  | buffer => rfl
  | scratch =>
      exact congrArg (Option.getD · Scalar.zero) (h.read _ (hreads ⟨rfl, i, hi, rfl⟩))

/-- Calls that are covered do the same and look the same on scratch memories that are the same where
it matters. -/
theorem runCalls_congr_scratch {calls : List Call} (hcovered : program.Covered filled calls)
    (h : SameOn filled scratch scratch') (out : Buffer α) :
    (program.runCalls inputs calls out scratch').1 =
        (program.runCalls inputs calls out scratch).1 ∧
      program.observe inputs calls scratch' = program.observe inputs calls scratch := by
  induction calls generalizing filled scratch scratch' out with
  | nil => exact ⟨rfl, rfl⟩
  | cons call rest ih =>
      cases call with
      | pack side source target =>
          -- the only call that changes the scratch memory makes more of it the same
          exact ih hcovered (h.pack side source target) out
      | touch which outAux place =>
          obtain ⟨hout, hlook⟩ := ih hcovered h
            (Buffer.updateAll out (program.callUpdates inputs scratch (.touch which outAux place)))
          exact ⟨hout, congrArg (Observation.touch which outAux place :: ·) hlook⟩
      | main left right place =>
          obtain ⟨⟨hleft, hright⟩, hcovered⟩ := hcovered
          have hviews : ∀ side, ∀ a ∈ program.kernels.main.reads side,
              view inputs side scratch' ((Cursor.mk left right 0 place).input side) a =
                view inputs side scratch ((Cursor.mk left right 0 place).input side) a := by
            intro side a ha
            cases side with
            | left => exact h.view hleft (List.mem_cons_of_mem _ ha)
            | right => exact h.view hright (List.mem_cons_of_mem _ ha)
          have hupdates : program.callUpdates inputs scratch' (.main left right place) =
              program.callUpdates inputs scratch (.main left right place) :=
            congrArg (List.map _) (MainKernel.updates_congr hviews)
          obtain ⟨hout, hlook⟩ := ih hcovered h
            (Buffer.updateAll out (program.callUpdates inputs scratch (.main left right place)))
          constructor
          · show (program.runCalls inputs rest (Buffer.updateAll out (program.callUpdates inputs
              scratch' (.main left right place))) scratch').1 = _
            rw [hupdates]
            exact hout
          · rw [observe, observe, hlook, h.view hleft List.mem_cons_self,
              h.view hright List.mem_cons_self]

end Covered

/-! ## Levels inside a packed region -/

section Levels

variable (program : Program)

/-- The loop of a sequential level. -/
def loopOf (level : Level) : Loop := program.layout.loops.getD level.start .unit

/-- The loops that a cursor still goes through on sequential levels and in the kernel. -/
def remaining (levels : List Level) : List Loop :=
  levels.map program.loopOf ++ KernelShape.kernelEnd program.layout.loops

/-- The levels inside a region that begins at the loop `next` are sequential, and run over loops of
the region. -/
def Opens (next : Nat) (levels : List Level) : Prop :=
  ∀ side region, program.region side = some region → region.loop = next →
    (∀ level ∈ levels, level.kind = .sequential) ∧
      (program.remaining levels).Sublist (program.layout.loops.drop next)

/-- Each level stands in front of levels inside the regions that begin behind it. -/
def Chained : List Level → Prop
  | [] => True
  | level :: inner =>
      (level.kind = .sequential → (program.loopOf level).mode = .seq) ∧
        program.Opens level.next inner ∧ Chained inner

variable {program}

theorem loopOf_append {before rest : List Loop} {loop : Loop}
    (happend : program.layout.loops = before ++ loop :: rest) (next : Nat) :
    program.loopOf ⟨.sequential, before.length, next⟩ = loop := getD_append_cons happend

/-- Loops that do not run in parallel have sequential levels, up to the first kernel loop. -/
theorem sequential_levelsFrom {before rest : List Loop}
    (happend : program.layout.loops = before ++ rest)
    (hplain : ∀ loop ∈ rest, loop.isParallel = false)
    (hend : KernelShape.kernelEnd program.layout.loops <:+ rest) (omp sfc : Nat) :
    (∀ level ∈ levelsFrom omp sfc 0 before.length rest, level.kind = .sequential) ∧
      (program.remaining (levelsFrom omp sfc 0 before.length rest)).Sublist rest := by
  induction rest generalizing before with
  | nil => exact ⟨fun _ h => absurd h List.not_mem_nil, hend.sublist⟩
  | cons loop rest ih =>
      obtain ⟨hloop, hrest⟩ := List.forall_mem_cons.1 hplain
      rw [levelsFrom]
      cases hmode : loop.mode with
      | omp => exact absurd hloop (by simp [Loop.isParallel, hmode, Mode.isParallel])
      | sfc => exact absurd hloop (by simp [Loop.isParallel, hmode, Mode.isParallel])
      | prim => exact ⟨fun _ h => absurd h List.not_mem_nil, hend.sublist⟩
      | seq =>
          -- the loop is no kernel loop, so that the kernel loops stand further in
          have hinner : KernelShape.kernelEnd program.layout.loops <:+ rest := by
            rcases List.suffix_cons_iff.1 hend with heq | hinner
            · have hprim := KernelShape.isPrim_of_mem_kernelEnd (heq ▸ List.mem_cons_self)
              exact absurd hprim (by simp [Loop.isPrim, hmode])
            · exact hinner
          have hnext : program.layout.loops = (before ++ [loop]) ++ rest := by simp [happend]
          obtain ⟨hkind, hsub⟩ := ih hnext hrest hinner
          rw [List.length_append, List.length_singleton] at hkind hsub
          refine ⟨List.forall_mem_cons.2 ⟨rfl, hkind⟩, ?_⟩
          rw [remaining, List.map_cons, loopOf_append happend, List.cons_append]
          exact hsub.cons_cons loop

section Built

variable (hbuilt : program.IsBuilt)

include hbuilt

/-- The kernel loops at the end of the list stand inside every region. -/
theorem kernelEnd_suffix_drop {side : Side} {region : PackedRegion}
    (hregion : program.region side = some region) :
    KernelShape.kernelEnd program.layout.loops <:+ program.layout.loops.drop region.loop := by
  rcases List.suffix_or_suffix_of_suffix (KernelShape.kernelEnd_suffix program.layout.loops)
    (List.drop_suffix region.loop program.layout.loops) with h | ⟨front, hfront⟩
  · exact h
  · rcases List.eq_nil_or_concat' front with rfl | ⟨init, loop, rfl⟩
    · exact ⟨[], hfront.symm⟩
    · -- otherwise the loop in front of the region would be a kernel loop
      obtain ⟨-, hlast⟩ := hbuilt.located hregion
      obtain ⟨more, hmore⟩ := KernelShape.kernelEnd_suffix program.layout.loops
      have htake : program.layout.loops.take region.loop = more ++ (init ++ [loop]) := by
        apply List.append_cancel_right
        rw [List.take_append_drop, List.append_assoc, hfront, hmore]
      have hprim : loop.isPrim = true := by
        have hmem : loop ∈ KernelShape.kernelEnd program.layout.loops := by simp [← hfront]
        exact KernelShape.isPrim_of_mem_kernelEnd hmem
      rw [htake, ← List.append_assoc, List.getLast?_concat, Option.map_some, hprim] at hlast
      exact absurd rfl hlast

theorem opens_levelsFrom {before rest : List Loop}
    (happend : program.layout.loops = before ++ rest) (omp sfc skip : Nat) :
    program.Opens (before.length + skip) (levelsFrom omp sfc skip before.length rest) := by
  intro side region hregion hloop
  obtain ⟨hlocated, -⟩ := hbuilt.located hregion
  have hlength : (program.layout.loops.take region.loop).length = region.loop :=
    hlocated.cuts.loop.symm
  have hdrop : rest.drop skip = program.layout.loops.drop region.loop := by
    rw [hloop, happend, List.drop_append, List.drop_of_length_le (Nat.le_add_right _ _),
      Nat.add_sub_cancel_left, List.nil_append]
  rw [levelsFrom_drop, hdrop, ← hloop]
  have h := sequential_levelsFrom (List.take_append_drop region.loop program.layout.loops).symm
    hlocated.cuts.sequential (kernelEnd_suffix_drop hbuilt hregion) omp sfc
  rwa [hlength] at h

/-- The levels of a program are chained. -/
theorem chained_levelsFrom {before rest : List Loop}
    (happend : program.layout.loops = before ++ rest) (skip : Nat) :
    program.Chained (levelsFrom program.layout.omp.length program.layout.sfcCount skip
      before.length rest) := by
  induction rest generalizing before skip with
  | nil => cases skip <;> exact trivial
  | cons loop rest ih =>
      have hnext : program.layout.loops = (before ++ [loop]) ++ rest := by simp [happend]
      have hlength : (before ++ [loop]).length = before.length + 1 := by simp
      have hmem : loop ∈ program.layout.loops := by simp [happend]
      -- the levels behind a run of `count` parallel loops
      have hbehind : ∀ {count : Nat}, 1 ≤ count →
          program.Opens (before.length + count) (levelsFrom program.layout.omp.length
            program.layout.sfcCount (count - 1) (before.length + 1) rest) := by
        intro count hcount
        have hopens := opens_levelsFrom hbuilt hnext program.layout.omp.length
          program.layout.sfcCount (count - 1)
        rwa [hlength, Nat.add_assoc, Nat.add_sub_cancel' hcount] at hopens
      have hinner : ∀ skip, program.Chained (levelsFrom program.layout.omp.length
          program.layout.sfcCount skip (before.length + 1) rest) := fun skip => by
        rw [← hlength]
        exact ih hnext skip
      cases skip with
      | succ skip => exact hinner skip
      | zero =>
          rw [levelsFrom]
          cases hmode : loop.mode with
          | prim => exact trivial
          | seq =>
              refine ⟨fun _ => ?_, hbehind le_rfl, hinner 0⟩
              rw [loopOf_append happend]
              exact hmode
          | omp =>
              refine ⟨fun h => absurd h (by simp), hbehind (Nat.pos_of_ne_zero fun hzero => ?_),
                hinner _⟩
              have := hbuilt.sound.omp.eq_false_of_length hzero loop hmem
              exact absurd this (by simp [Loop.isOmp, hmode])
          | sfc =>
              refine ⟨fun h => absurd h (by simp), hbehind (Nat.pos_of_ne_zero fun hzero => ?_),
                hinner _⟩
              obtain ⟨span, hmarks, hcount, -⟩ := hbuilt.sound.curve
              have := hmarks.eq_false_of_length (hcount.trans hzero) loop hmem
              exact absurd this (by simp [Loop.isSfc, hmode])

/-- The copy of a region fills where its loops lead. -/
theorem mem_targets {side : Side} {region : PackedRegion}
    (hregion : program.region side = some region) {loops : List Loop}
    (hsub : loops.Sublist (program.layout.loops.drop region.loop)) {z : Int}
    (hz : z ∈ offsets (fun loop => loop.stride side) loops) (target : Int) :
    target + z ∈ program.targets side target := by
  obtain ⟨hlocated, -⟩ := hbuilt.located hregion
  have hsizes : ∀ loop ∈ program.layout.loops.drop region.loop, 1 ≤ loop.size := fun loop hloop =>
    hbuilt.sizes loop (List.mem_of_mem_drop hloop)
  have hmem := mem_offsets_of_sublist _ hsizes hsub hz
  rw [← map_snd_offsets] at hmem
  obtain ⟨x, hx, rfl⟩ := List.mem_map.1 hmem
  exact ⟨region, hregion, x, hlocated.mem_moves_iff.2 hx, rfl⟩

end Built

end Levels

/-! ## Cursors that stand where it was filled -/

section Cursors

variable (program : Program)

/-- The slots that a thread remembers are filled. -/
def Remembers (filled : Set Int) (state : ThreadState) : Prop :=
  ∀ side slot address, (state.held side).getD slot none = some address →
    program.targets side (program.slotAddress side slot) ⊆ filled

/-- Started with some filled cells or more, the calls of a step read what is filled. -/
def Covers (filled : Set Int) (x : ThreadStep (List Call)) : Prop :=
  ∀ filled', filled ⊆ filled' → Ensures (program.Remembers filled') x fun calls state =>
    program.Covered filled' calls ∧ program.Remembers (filled' ∪ program.fills calls) state

/-- If an input stands in scratch memory, there are only sequential levels in front of it, and all
that these and the kernel loops lead to is filled. -/
def Backed (filled : Set Int) (levels : List Level) (side : Side) (place : Place) : Prop :=
  place.source = .scratch → (∀ level ∈ levels, level.kind = .sequential) ∧
    ∀ z ∈ offsets (fun loop => loop.stride side) (program.remaining levels),
      place.address + z ∈ filled

variable {program} {filled filled' : Set Int} {levels inner : List Level} {level : Level}
  {cursor : Cursor} {side : Side} {place : Place} {work : Work}

theorem Remembers.mono {state : ThreadState} (h : program.Remembers filled state)
    (hle : filled ⊆ filled') : program.Remembers filled' state := fun side slot address hheld =>
  (h side slot address hheld).trans hle

theorem Backed.mono (h : program.Backed filled levels side place) (hle : filled ⊆ filled') :
    program.Backed filled' levels side place := fun hsource =>
  ⟨(h hsource).1, fun z hz => hle ((h hsource).2 z hz)⟩

/-- The calls of a list of steps are covered if those of each step are. -/
theorem Covers.flatten {β : Type} {f : β → ThreadStep (List Call)} {bs : List β}
    (h : ∀ b ∈ bs, program.Covers filled (f b)) :
    program.Covers filled (do return (← bs.mapM f).flatten) := by
  induction bs with
  | nil =>
      refine fun filled' _ => ensures_pure fun state hstate => ⟨trivial, ?_⟩
      exact hstate.mono Set.subset_union_left
  | cons b bs ih =>
      rw [List.forall_mem_cons] at h
      intro filled' hle state hstate
      obtain ⟨hfirst, hstate₁⟩ := h.1 filled' hle state hstate
      obtain ⟨hrest, hstate₂⟩ := ih h.2 _ (hle.trans Set.subset_union_left) _ hstate₁
      rw [run_flatten_cons]
      refine ⟨covered_append hfirst hrest, ?_⟩
      rwa [fills_append, ← Set.union_assoc]

/-- Afterwards a slot is filled, and so is every slot that the thread remembers. -/
theorem fillSlot_covers (side : Side) (slot : Nat) (again : Bool) (address : Int) :
    Ensures (program.Remembers filled) (program.fillSlot side slot again address)
      fun calls state => program.Covered filled calls ∧
        program.Remembers (filled ∪ program.fills calls) state ∧
          program.targets side (program.slotAddress side slot) ⊆ filled ∪ program.fills calls := by
  intro state hstate
  rw [fillSlot_run]
  split
  · -- the slot holds its block already, and what is remembered is covered
    rename_i hheld
    exact ⟨trivial, hstate.mono Set.subset_union_left,
      (hstate _ _ _ hheld.2).trans Set.subset_union_left⟩
  · have hslot : program.targets side (program.slotAddress side slot) ⊆
        filled ∪ program.fills [.pack side address (program.slotAddress side slot)] :=
      Set.subset_union_of_subset_right Set.subset_union_left _
    refine ⟨trivial, ?_, hslot⟩
    cases again with
    | false => exact hstate.mono Set.subset_union_left
    | true =>
        intro side' slot' address' hheld
        by_cases hside : side' = side
        · subst hside
          rw [if_pos rfl, held_hold] at hheld
          rcases getD_set_eq_some hheld with ⟨rfl, -⟩ | ⟨-, hheld⟩
          · exact hslot
          · exact (hstate _ _ _ hheld).trans Set.subset_union_left
        · rw [if_pos rfl, held_hold_of_ne state hside] at hheld
          exact (hstate _ _ _ hheld).trans Set.subset_union_left

theorem countVisit_remembers (stop : Stop) :
    Ensures (program.Remembers filled) (countVisit work stop) fun _ state =>
      program.Remembers filled state := by
  intro state hstate side slot address hheld
  refine hstate side slot address ?_
  cases side <;> exact hheld

/-- The kernel calls of a cursor are covered if the kernel loops lead to what is filled. -/
theorem covers_kernelCalls (hsizes : ∀ loop ∈ program.layout.loops, 1 ≤ loop.size)
    (hreads : ∀ side, ∀ a ∈ program.kernels.main.reads side, a ∈
      offsets (fun loop => loop.stride side) (KernelShape.kernelEnd program.layout.loops))
    (hbacked : ∀ side, program.Backed filled [] side (cursor.input side)) (first last : Bool) :
    program.Covers filled (pure (program.kernelCalls cursor first last)) := by
  have hzero : ∀ side, 0 ∈ offsets (fun loop => loop.stride side)
      (KernelShape.kernelEnd program.layout.loops) := fun side =>
    zero_mem_offsets _ fun loop hloop =>
      hsizes loop ((KernelShape.kernelEnd_suffix program.layout.loops).subset hloop)
  -- what is read from scratch memory was filled when the input was packed
  have hscratch : ∀ side, program.scratchReads side (cursor.input side) ⊆ filled := by
    rintro side a ⟨hsource, i, hi, rfl⟩
    refine (hbacked side hsource).2 i ?_
    rcases List.mem_cons.1 hi with rfl | hi
    · exact hzero side
    · exact hreads side i hi
  have htouch : ∀ {filled' : Set Int} (which : Touch) (wanted : Bool), program.Covered filled'
      (if wanted then [.touch which cursor.outAux cursor.out] else []) := by
    intro filled' which wanted
    cases wanted <;> exact trivial
  have hfills : program.fills (program.kernelCalls cursor first last) = ∅ := by
    unfold kernelCalls
    dsimp only
    split <;> split <;> rfl
  refine fun filled' hle => ensures_pure fun state hstate => ⟨?_, ?_⟩
  · refine covered_append (covered_append (htouch _ _) ⟨⟨?_, ?_⟩, trivial⟩) (htouch _ _)
    · exact ((hscratch .left).trans hle).trans Set.subset_union_left
    · exact ((hscratch .right).trans hle).trans Set.subset_union_left
  · rwa [hfills, Set.union_empty]

/-- On a parallel level every input stands in the caller's buffer. -/
theorem Backed.of_parallel (h : program.Backed filled (level :: inner) side place)
    (hkind : level.kind ≠ .sequential) {place' : Place} (hsame : place'.source = place.source) :
    program.Backed filled' inner side place' := fun hsource =>
  absurd ((h (hsame.symm.trans hsource)).1 level List.mem_cons_self) hkind

/-- A walk leaves the inputs in the memory where they stand. -/
theorem source_of_mem_stops {stop stop' : Stop} {moves : List Nat}
    (h : stop' ∈ program.stops stop moves) (side : Side) :
    (stop'.cursor.input side).source = (stop.cursor.input side).source := by
  induction moves generalizing stop with
  | nil => exact absurd h List.not_mem_nil
  | cons move rest ih =>
      rcases List.mem_cons.1 h with rfl | h
      · rfl
      · rw [ih h, nextStop, Cursor.input_move]
        rfl

section Built

variable (hbuilt : program.IsBuilt)

include hbuilt

/-- An iteration of a sequential level leads to the offsets of the loops further in. -/
theorem Backed.move (h : program.Backed filled (level :: inner) side place)
    (hmode : (program.loopOf level).mode = .seq) {i : Int}
    (hi : i ∈ upTo (program.loopOf level).size) :
    program.Backed filled inner side
      (place.move (((program.strides.getD level.start 0).scale i).input side)) := by
  intro hsource
  obtain ⟨hkind, hfilled⟩ := h hsource
  refine ⟨fun inside hmem => hkind inside (List.mem_cons_of_mem _ hmem), fun z hz => ?_⟩
  have hnot : (program.layout.loops.getD level.start .unit).mode ≠ .sfc := by
    rw [show (program.layout.loops.getD level.start .unit).mode = .seq from hmode]
    decide
  rw [hbuilt.getD_strides hnot, Operands.input_scale, Loop.strides_input, Place.move, add_assoc,
    mul_comm]
  refine hfilled _ (mem_sumset.2 ⟨_, ?_, z, hz, rfl⟩)
  exact List.mem_map_of_mem hi

/-- An input that was just packed stands in a filled slot. -/
theorem Opens.backed {next : Nat} (h : program.Opens next levels) {region : PackedRegion}
    (hregion : program.region side = some region) (hloop : region.loop = next) {target : Int}
    (htargets : program.targets side target ⊆ filled) :
    program.Backed filled levels side ⟨.scratch, target⟩ := by
  obtain ⟨hkind, hsub⟩ := h side region hregion hloop
  subst hloop
  exact fun _ => ⟨hkind, fun z hz => htargets (mem_targets hbuilt hregion hsub hz target)⟩

/-- Packing one input leaves it where it is filled. -/
theorem packInput_covers {next : Nat} (hopens : program.Opens next levels) (side : Side)
    (reuse : Option Reuse) (cursor : Cursor)
    (hbacked : program.Backed filled levels side (cursor.input side)) :
    Ensures (program.Remembers filled) (program.packInput side next reuse cursor) fun r state =>
      program.Covered filled r.1 ∧ program.Remembers (filled ∪ program.fills r.1) state ∧
        (∀ other, other ≠ side → r.2.input other = cursor.input other) ∧
          program.Backed (filled ∪ program.fills r.1) levels side (r.2.input side) := by
  intro state hstate
  by_cases hturn : ∃ region, program.region side = some region ∧ region.loop = next
  · -- the input goes to a slot that is filled now or was filled before
    obtain ⟨region, hregion, rfl⟩ := hturn
    rw [run_packInput hregion]
    obtain ⟨hcovered, hstate', hslot⟩ := fillSlot_covers side
      ((reuse.map fun r => r.slot side).getD 0) reuse.isSome (cursor.input side).address state
      hstate
    refine ⟨hcovered, hstate', fun other hother => Cursor.input_withInput_of_ne _ _ _ hother, ?_⟩
    rw [Cursor.input_withInput]
    exact hopens.backed hbuilt hregion rfl hslot
  · have hnever : ∀ region, program.region side = some region → region.loop ≠ next :=
      fun region hregion hloop => hturn ⟨region, hregion, hloop⟩
    rw [packInput_eq_pure hnever]
    exact ⟨trivial, hstate.mono Set.subset_union_left, fun _ _ => rfl,
      hbacked.mono Set.subset_union_left⟩

/-- Packing both inputs leaves them where they are filled. -/
theorem packInputs_covers {next : Nat} (hopens : program.Opens next levels) (reuse : Option Reuse)
    (hbacked : ∀ side, program.Backed filled levels side (cursor.input side)) :
    Ensures (program.Remembers filled) (program.packInputs next reuse cursor) fun r state =>
      program.Covered filled r.1 ∧ program.Remembers (filled ∪ program.fills r.1) state ∧
        ∀ side, program.Backed (filled ∪ program.fills r.1) levels side (r.2.input side) := by
  intro state hstate
  obtain ⟨hleft, hstate₁, hother₁, hbacked₁⟩ := packInput_covers hbuilt hopens .left reuse cursor
    (hbacked .left) state hstate
  obtain ⟨hright, hstate₂, hother₂, hbacked₂⟩ := packInput_covers hbuilt hopens .right reuse
    ((program.packInput .left next reuse cursor).run state).1.2
    (by
      rw [hother₁ .right (by decide)]
      exact (hbacked .right).mono Set.subset_union_left) _ hstate₁
  rw [run_packInputs]
  dsimp only
  rw [fills_append, ← Set.union_assoc]
  refine ⟨covered_append hleft hright, hstate₂, fun side => ?_⟩
  cases side with
  | left =>
      rw [hother₂ .left (by decide)]
      exact hbacked₁.mono Set.subset_union_left
  | right => exact hbacked₂

variable (hreads : ∀ side, ∀ a ∈ program.kernels.main.reads side, a ∈
  offsets (fun loop => loop.stride side) (KernelShape.kernelEnd program.layout.loops))

include hreads

/-- The calls of a thread on levels are covered wherever the inputs stand. -/
theorem covers_visit (hchained : program.Chained levels)
    (hbacked : ∀ side, program.Backed filled levels side (cursor.input side)) (first last : Bool) :
    program.Covers filled (program.visit work levels cursor first last) := by
  induction levels generalizing filled cursor first last with
  | nil => exact covers_kernelCalls hbuilt.sizes hreads hbacked first last
  | cons level inner ih =>
      obtain ⟨hmode, hopens, hinner⟩ := hchained
      -- by induction on the levels, with what is filled so far and where the inputs stand free
      have hinside : ∀ reuse (cursor : Cursor) (first last : Bool),
          (∀ side, program.Backed filled inner side (cursor.input side)) → program.Covers filled (do
            let r ← program.packInputs level.next reuse cursor
            let calls ← program.visit work inner r.2 first last
            return r.1 ++ calls) := by
        intro reuse cursor first last hbacked filled' hle state hstate
        obtain ⟨hpacking, hstate₁, hbacked₁⟩ := packInputs_covers hbuilt hopens reuse
          (fun side => (hbacked side).mono hle) state hstate
        obtain ⟨hcalls, hstate₂⟩ := ih hinner hbacked₁ first last _ subset_rfl _ hstate₁
        refine ⟨covered_append hpacking hcalls, ?_⟩
        rwa [Set.union_assoc, ← fills_append] at hstate₂
      rw [visit]
      cases hkind : level.kind with
      | sequential =>
          refine Covers.flatten fun i hi => hinside _ _ _ _ fun side => ?_
          rw [Cursor.input_move]
          exact (hbacked side).move hbuilt (hmode hkind) hi
      | flat =>
          refine Covers.flatten fun i _ => hinside _ _ _ _ fun side => ?_
          rw [Cursor.input_move]
          exact (hbacked side).of_parallel (by rw [hkind]; decide) rfl
      | curve =>
          refine Covers.flatten fun stop hstop filled' hle =>
            (countVisit_remembers stop).bind fun _ => hinside _ _ _ _ (fun side => ?_) filled' hle
          exact (hbacked side).of_parallel (by rw [hkind]; decide) (source_of_mem_stops hstop side)

/-- In every launch the calls of a thread read of the scratch memory only what was filled before in
the same launch. -/
theorem covered_threadCalls (base : Operands Int) (state : ThreadState) :
    program.Covered ∅ ((program.threadCalls work base).run state).1 := by
  -- after the reset nothing is remembered, and both inputs stand in the caller's buffers
  have hnone : program.Remembers ∅ state.reset := by
    intro side slot address hheld
    exact absurd ((state.getD_held_reset side slot).symm.trans hheld) (by simp)
  have hstart : ∀ side, program.Backed ∅ program.layout.levels side
      (((Cursor.start base).move work.offset).input side) := by
    intro side hsource
    cases side <;> exact nomatch hsource
  have hloops : program.layout.loops = [] ++ program.layout.loops := rfl
  have hopens : program.Opens 0 program.layout.levels := opens_levelsFrom hbuilt hloops _ _ 0
  have hchained : program.Chained program.layout.levels := chained_levelsFrom hbuilt hloops 0
  obtain ⟨hpacking, hstate₁, hbacked₁⟩ := packInputs_covers hbuilt hopens none hstart _ hnone
  obtain ⟨hcalls, -⟩ :=
    covers_visit hbuilt hreads hchained hbacked₁ true true _ subset_rfl _ hstate₁
  exact covered_append hpacking hcalls

end Built

end Cursors

end Program

end LoopNest
