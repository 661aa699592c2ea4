import LoopNest.Proofs.Launch.Accesses
import LoopNest.Proofs.Launch.TouchCalls

/-!
# Threads side by side

A launch runs its threads one after the other. Threads that run side by side make the same calls in
some other order, each on a scratch memory of its own (`Program.runMerged`), and all that they have
in common is the output. If no element of the output is accessed by two threads, then every element
goes through the same updates in every order (`Program.read?_runMerged`), so all orders leave the
same output (`Program.runMerged_eq`).

The threads of a launch do not meet in the output as long as the loops outside the reduction do not
(`IsReady.disjoint_outElements`). A call works on the block of the output at its tile; the tiles of
different threads differ, and so do the elements of their blocks.
-/

namespace LoopNest

variable {α : Type}

/-- Calls in one order, each with the number of its thread, in which the calls of every thread stand
in their own order. -/
def Interleaves (lists : List (List Call)) (merged : List (Nat × Call)) : Prop :=
  ∀ thread, (merged.filter fun p => p.1 = thread).map Prod.snd = lists.getD thread []

/-- The calls of all threads, thread by thread, if the first thread has the number `first`. -/
def inTurn (first : Nat) : List (List Call) → List (Nat × Call)
  | [] => []
  | calls :: rest => calls.map (Prod.mk first) ++ inTurn (first + 1) rest

theorem filter_inTurn (first thread : Nat) (lists : List (List Call)) :
    ((inTurn first lists).filter fun p => p.1 = thread).map Prod.snd =
      if first ≤ thread then lists.getD (thread - first) [] else [] := by
  induction lists generalizing first with
  | nil => simp [inTurn]
  | cons calls rest ih =>
      rw [inTurn, List.filter_append, List.map_append, ih, List.filter_map, List.map_map]
      rcases Nat.lt_trichotomy first thread with hlt | rfl | hgt
      · obtain ⟨k, rfl⟩ := Nat.exists_eq_add_of_lt hlt
        have hindex : first + k + 1 - first = k + 1 := by omega
        have hindex' : first + k + 1 - (first + 1) = k := by omega
        simp [Function.comp_def, hindex, hindex', show first ≠ first + k + 1 by omega]
        omega
      · simp [Function.comp_def]
      · simp [Function.comp_def, hgt.ne', show ¬ first ≤ thread by omega]
        omega

/-- Running the threads one after the other is one of the orders. -/
theorem interleaves_inTurn (lists : List (List Call)) : Interleaves lists (inTurn 0 lists) :=
  fun thread => by simpa using filter_inTurn 0 thread lists

namespace Program

variable (program : Program) (inputs : Inputs α)

/-! ## Elements of the output -/

/-- The elements of the output that calls read or write. -/
def outElements (calls : List Call) : List Int :=
  (calls.flatMap program.accesses).filterMap fun access =>
    if access.operand = .out then some access.address else none

variable {program inputs} in
theorem mem_outElements {calls : List Call} {address : Int} :
    address ∈ program.outElements calls ↔
      ∃ call ∈ calls, ⟨.out, address⟩ ∈ program.accesses call := by
  simp only [outElements, List.mem_filterMap, List.mem_flatMap, Option.ite_none_right_eq_some,
    Option.some.injEq]
  constructor
  · rintro ⟨⟨operand, place⟩, ⟨call, hcall, haccess⟩, rfl, rfl⟩
    exact ⟨call, hcall, haccess⟩
  · rintro ⟨call, hcall, haccess⟩
    exact ⟨_, ⟨call, hcall, haccess⟩, rfl, rfl⟩

variable [Scalar α]

/-! ## Calls in a common order -/

/-- The output after calls of several threads in one order. Every thread has a scratch memory of its
own. -/
def runMerged : List (Nat × Call) → (out : Buffer α) → (scratch : Nat → Buffer α) → Buffer α
  | [], out, _ => out
  | (thread, call) :: rest, out, scratch =>
      let (out, own) := program.runCalls inputs [call] out (scratch thread)
      runMerged rest out (Function.update scratch thread own)

/-- The updates that calls make of the output. -/
def updatesOf (calls : List Call) (scratch : Buffer α) : List (Update α) :=
  (program.watch inputs calls scratch).1.flatMap fun p => program.callUpdates inputs p.2 p.1

theorem updatesOf_cons (call : Call) (rest : List Call) (scratch : Buffer α) :
    program.updatesOf inputs (call :: rest) scratch =
      program.updatesOf inputs [call] scratch ++
        program.updatesOf inputs rest (program.watch inputs [call] scratch).2 := by
  rw [updatesOf, ← List.singleton_append, watch_append, List.flatMap_append]
  rfl

theorem runCalls_eq_updatesOf (calls : List Call) (out scratch : Buffer α) :
    program.runCalls inputs calls out scratch =
      (Buffer.updateAll out (program.updatesOf inputs calls scratch),
        (program.watch inputs calls scratch).2) := program.runCalls_eq inputs calls out scratch

theorem watch_cons (call : Call) (rest : List Call) (scratch : Buffer α) :
    (program.watch inputs (call :: rest) scratch).2 =
      (program.watch inputs rest (program.watch inputs [call] scratch).2).2 := by
  rw [← List.singleton_append, watch_append]

variable {program inputs}

theorem address_mem_outElements {call : Call} {scratch : Buffer α} {u : Update α}
    (hu : u ∈ program.updatesOf inputs [call] scratch) :
    ⟨.out, u.address⟩ ∈ program.accesses call := by
  cases call with
  | pack => exact absurd hu List.not_mem_nil
  | touch =>
      obtain ⟨p, hp, hu⟩ := List.mem_flatMap.1 hu
      obtain rfl := List.mem_singleton.1 hp
      exact address_mem_accesses hu
  | main =>
      obtain ⟨p, hp, hu⟩ := List.mem_flatMap.1 hu
      obtain rfl := List.mem_singleton.1 hp
      exact address_mem_accesses hu

theorem runMerged_cons (thread : Nat) (call : Call) (rest : List (Nat × Call)) (out : Buffer α)
    (scratch : Nat → Buffer α) :
    program.runMerged inputs ((thread, call) :: rest) out scratch =
      program.runMerged inputs rest
        (Buffer.updateAll out (program.updatesOf inputs [call] (scratch thread)))
        (Function.update scratch thread (program.watch inputs [call] (scratch thread)).2) := by
  rw [runMerged, runCalls_eq]
  rfl

theorem size_runMerged (merged : List (Nat × Call)) (out : Buffer α) (scratch : Nat → Buffer α) :
    (program.runMerged inputs merged out scratch).size = out.size := by
  induction merged generalizing out scratch with
  | nil => rfl
  | cons p rest ih => rw [runMerged_cons, ih, Buffer.size_updateAll]

/-- An element that no other thread accesses goes through the updates of its thread alone. -/
theorem read?_runMerged {merged : List (Nat × Call)} {thread : Nat} {address : Int}
    (honly : ∀ p ∈ merged, p.1 ≠ thread → ⟨.out, address⟩ ∉ program.accesses p.2) (out : Buffer α)
    (scratch : Nat → Buffer α) :
    Buffer.read? (program.runMerged inputs merged out scratch) address =
      (Buffer.read? out address).map (effectAt address (program.updatesOf inputs
        ((merged.filter fun p => p.1 = thread).map Prod.snd) (scratch thread))) := by
  induction merged generalizing out scratch with
  | nil => exact Option.map_id.symm ▸ rfl
  | cons p rest ih =>
      obtain ⟨owner, call⟩ := p
      rw [List.forall_mem_cons] at honly
      rw [runMerged_cons, ih honly.2, Buffer.read?_updateAll, Option.map_map]
      refine congrArg (fun f => Option.map f _) (funext fun x => ?_)
      rw [Function.comp_apply]
      by_cases howner : owner = thread
      · -- a call of the thread itself finds the scratch memory as its calls before have left it
        subst howner
        rw [Function.update_self, List.filter_cons_of_pos (by simp), List.map_cons,
          ← effectAt_append, ← updatesOf_cons]
      · -- a call of another thread changes neither the element nor the scratch memory of this one
        have hself : effectAt address (program.updatesOf inputs [call] (scratch owner)) x = x := by
          refine effectAt_eq_self (fun u hu heq => honly.1 howner ?_) x
          rw [← heq]
          exact address_mem_outElements hu
        rw [Function.update_of_ne (Ne.symm howner), List.filter_cons_of_neg (by simpa using howner),
          hself]

/-- The elements that the calls of a thread access, wherever they stand. -/
theorem mem_outElements_of_interleaves {lists : List (List Call)} {merged : List (Nat × Call)}
    (h : Interleaves lists merged) {p : Nat × Call} (hp : p ∈ merged) {address : Int}
    (haddress : ⟨.out, address⟩ ∈ program.accesses p.2) :
    address ∈ program.outElements (lists.getD p.1 []) := by
  rw [← h p.1]
  exact mem_outElements.2 ⟨p.2, List.mem_map.2 ⟨p, List.mem_filter.2 ⟨hp, by simp⟩, rfl⟩, haddress⟩

/-- Of threads that do not meet in the output, one accesses an element at most. -/
theorem exists_owner {lists : List (List Call)}
    (hdisjoint : lists.Pairwise fun calls calls' =>
      (program.outElements calls).Disjoint (program.outElements calls')) (address : Int) :
    ∃ owner, ∀ thread ≠ owner, address ∉ program.outElements (lists.getD thread []) := by
  by_cases hexists : ∃ owner, address ∈ program.outElements (lists.getD owner [])
  · -- a second thread with the element would meet the owner in it
    obtain ⟨owner, howner⟩ := hexists
    refine ⟨owner, fun thread hne hthread => ?_⟩
    have hlt : ∀ {i}, address ∈ program.outElements (lists.getD i []) → i < lists.length := by
      intro i hi
      by_contra hge
      rw [List.getD_eq_getElem?_getD, List.getElem?_eq_none (by omega)] at hi
      exact absurd hi (by simp [outElements])
    have hget : ∀ {i} (hi : i < lists.length), lists.getD i [] = lists[i] := fun hi => by
      rw [List.getD_eq_getElem?_getD, List.getElem?_eq_getElem hi, Option.getD_some]
    have hiOwner := hlt howner
    have hiThread := hlt hthread
    rw [hget hiOwner] at howner
    rw [hget hiThread] at hthread
    rcases Nat.lt_or_gt_of_ne hne with hless | hless
    · exact List.pairwise_iff_getElem.1 hdisjoint _ _ hiThread hiOwner hless hthread howner
    · exact List.pairwise_iff_getElem.1 hdisjoint _ _ hiOwner hiThread hless howner hthread
  · exact ⟨0, fun thread _ hthread => hexists ⟨thread, hthread⟩⟩

/-- Threads that do not meet in the output leave the same output in every order. -/
theorem runMerged_eq {lists : List (List Call)}
    (hdisjoint : lists.Pairwise fun calls calls' =>
      (program.outElements calls).Disjoint (program.outElements calls'))
    {merged merged' : List (Nat × Call)} (h : Interleaves lists merged)
    (h' : Interleaves lists merged') (out : Buffer α) (scratch : Nat → Buffer α) :
    program.runMerged inputs merged out scratch = program.runMerged inputs merged' out scratch := by
  refine Buffer.ext_read? (by rw [size_runMerged, size_runMerged]) fun address => ?_
  -- both orders hold the calls of the owner of an element in the same order
  obtain ⟨owner, howner⟩ := exists_owner hdisjoint address
  have honly : ∀ {merged}, Interleaves lists merged →
      ∀ p ∈ merged, p.1 ≠ owner → ⟨.out, address⟩ ∉ program.accesses p.2 :=
    fun h p hp hne haddress => howner p.1 hne (mem_outElements_of_interleaves h hp haddress)
  rw [read?_runMerged (honly h), read?_runMerged (honly h'), h owner, h' owner]

theorem runMerged_append_thread (thread : Nat) (calls : List Call) (rest : List (Nat × Call))
    (out : Buffer α) (scratch : Nat → Buffer α) :
    program.runMerged inputs (calls.map (Prod.mk thread) ++ rest) out scratch =
      program.runMerged inputs rest (program.runCalls inputs calls out (scratch thread)).1
        (Function.update scratch thread
          (program.runCalls inputs calls out (scratch thread)).2) := by
  induction calls generalizing out scratch with
  | nil => simp [runCalls]
  | cons call calls ih =>
      rw [List.map_cons, List.cons_append, runMerged_cons, ih, Function.update_self,
        Function.update_idem]
      rw [runCalls_eq_updatesOf, runCalls_eq_updatesOf, ← Buffer.updateAll_append, ← updatesOf_cons,
        ← watch_cons]

/-- The threads one after the other, as an order of their calls. -/
theorem runMerged_inTurn (first : Nat) (lists : List (List Call)) (out : Buffer α)
    (scratch : Nat → Buffer α) :
    program.runMerged inputs (inTurn first lists) out scratch =
      (lists.zipIdx first).foldl (fun out p => (program.runCalls inputs p.1 out (scratch p.2)).1)
        out := by
  induction lists generalizing first out scratch with
  | nil => rfl
  | cons calls rest ih =>
      rw [inTurn, runMerged_append_thread, ih, List.zipIdx_cons, List.foldl_cons]
      -- the threads behind have scratch memories of their own
      refine List.foldl_ext _ _ _ fun out p hp => ?_
      have hindex := List.le_snd_of_mem_zipIdx hp
      rw [Function.update_of_ne (by omega)]

/-! ## Threads of a launch -/

omit [Scalar α] in
/-- A kernel call accesses the block of the output that its kernel loops reach from where it
stands. -/
theorem exists_sight_of_mem_accesses {kernel : List Loop} (hfollows : program.kernels.Follows kernel)
    (packed : Side → Bool) {call : Call} {address : Int}
    (h : ⟨.out, address⟩ ∈ program.accesses call) :
    ∃ s, call.sight packed = some s ∧
      ∃ z ∈ offsets Loop.callerStrides kernel, address = s.out + z.out := by
  have hinput : ∀ {side place}, ⟨.out, address⟩ ∉ program.inputAccesses side place := by
    intro side place hmem
    obtain ⟨-, a, -, heq⟩ := mem_inputAccesses.1 hmem
    cases side <;> exact absurd heq (by simp [Side.operand])
  -- packing touches inputs and scratch memory only
  cases call with
  | pack side source target =>
      obtain ⟨region, -, move, -, heq⟩ := mem_accesses_pack.1 h
      cases side <;> exact absurd heq (by simp [Side.operand])
  | touch which outAux out =>
      obtain ⟨touch, htouch, ⟨a, -, heq⟩ | ⟨a, ha, heq⟩⟩ := mem_accesses_touch.1 h
      · exact absurd heq (by simp)
      · obtain ⟨z, hz, rfl⟩ := hfollows.touchWrites touch (made_of_touchKernel htouch) a ha
        exact ⟨_, rfl, z, hz, (Access.mk.inj heq).2.symm⟩
  | main left right out =>
      obtain (hleft | hright) | ⟨a, ha, heq⟩ := mem_accesses_main.1 h
      · exact absurd hleft hinput
      · exact absurd hright hinput
      · obtain ⟨z, hz, rfl⟩ := hfollows.writes a ha
        exact ⟨_, rfl, z, hz, (Access.mk.inj heq).2.symm⟩

/-- Loops of the reduction do not matter for what is reached in the output. -/
theorem exists_out_eq {loops : List Loop} (hsize : ∀ loop ∈ loops, 1 ≤ loop.size)
    (hk : ∀ loop ∈ loops, loop.isReduction = true → loop.strides.out = 0) {z : Operands Int}
    (hz : z ∈ offsets Loop.callerStrides loops) :
    ∃ y ∈ offsets Loop.strides (loops.filter fun loop => !loop.isReduction), y.out = z.out := by
  have hout : z.out ∈ offsets (fun loop => loop.strides.out) loops := by
    have hmem := List.mem_map_of_mem (f := Operands.outHom) hz
    rwa [map_offsets] at hmem
  have hfilter := (mem_offsets_filter (q := fun loop => !loop.isReduction) _ hsize
    (fun loop hloop hred => hk loop hloop (by simpa using hred))).2 hout
  rw [show (fun loop : Loop => loop.strides.out) = fun loop => Operands.outHom loop.strides from rfl,
    ← map_offsets, List.mem_map] at hfilter
  exact hfilter

/-- What a thread accesses of the output lies in the blocks of its tiles. -/
theorem exists_tile_of_mem_outElements (hbuilt : program.IsBuilt)
    {before omp sfc after kernel : List Loop}
    (hcut : Layout.Cut program.layout.loops before omp sfc after kernel)
    (hfollows : program.kernels.Follows kernel)
    (hk : ∀ loop ∈ program.layout.loops, loop.isReduction = true → loop.strides.out = 0)
    {thread : Nat} {packed : Side → Bool} {base : Operands Int} {calls : List Call}
    (hbrackets : Brackets
      (program.threadVisits Loop.strides before after (program.layout.shareOf thread))
      (program.tilesOf Loop.strides before after thread)
      (program.stepsOf Loop.strides before after))
    (hsights : sights packed calls =
      (program.threadVisits Loop.strides before after (program.layout.shareOf thread)).flatMap
        (program.visitSights packed base))
    {address : Int} (h : address ∈ program.outElements calls) :
    ∃ t ∈ program.tilesOf Loop.strides before after thread,
      ∃ y ∈ offsets Loop.strides (kernel.filter fun loop => !loop.isReduction),
        address = base.out + t.out + y.out := by
  obtain ⟨call, hcall, haccess⟩ := mem_outElements.1 h
  obtain ⟨s, hs, z, hz, rfl⟩ := exists_sight_of_mem_accesses hfollows packed haccess
  have hmem : s ∈ sights packed calls := List.mem_filterMap.2 ⟨call, hcall, hs⟩
  rw [hsights] at hmem
  obtain ⟨v, hv, hmem⟩ := List.mem_flatMap.1 hmem
  obtain ⟨t, ht, hvt⟩ := hbrackets.tile v hv
  have hkernel : ∀ loop ∈ kernel, loop ∈ program.layout.loops := fun loop hloop => by
    rw [hcut.append]
    simp [hloop]
  -- reduction loops of the kernel do not move the output
  obtain ⟨y, hy, hyz⟩ := exists_out_eq (fun loop hloop => hbuilt.sizes loop (hkernel loop hloop))
    (fun loop hloop => hk loop (hkernel loop hloop)) hz
  exact ⟨t, ht, y, hy, by rw [out_of_mem_visitSights hmem, hvt, hyz]⟩

end Program

namespace Contraction

variable [Scalar α] {contraction : Contraction α} {program : Program}

omit [Scalar α] in
/-- No element of the output is accessed by two threads if the loops outside the reduction do not
meet in it. -/
theorem IsReady.disjoint_outElements (hready : contraction.IsReady program)
    (hkernel : KernelLast contraction.loops)
    (hk : ∀ loop ∈ contraction.loops, loop.isReduction = true → loop.strides.out = 0)
    (hout : ((offsets Loop.strides (contraction.loops.filter fun loop =>
      !loop.isReduction)).map Operands.out).Nodup) (base : Operands Int) :
    (program.launchCalls contraction.states base).Pairwise fun calls calls' =>
      (program.outElements calls).Disjoint (program.outElements calls') := by
  have hbuilt := hready.built
  have hmake := make_of_makeKernels hready.kernels
  rw [← hready.loops] at hkernel hk hout hmake
  have houter := nodup_outerLoops hkernel hbuilt.sizes hout
  rw [hkernel.offsets_filter] at hout
  obtain ⟨before, omp, sfc, after, kernel, hcut⟩ := hbuilt.sound.exists_cut hkernel
  have hkernels : kernelLoops program.layout.loops = kernel :=
    (hcut.filter_mode fun mode => mode = .prim).trans (by simp)
  have hfollows := KernelTags.follows_of_make hkernel hbuilt.sizes hmake
  rw [hkernels] at hfollows hout
  have hkeeps : program.KeepsParallel Loop.strides := fun _ _ _ => rfl
  have htiles := Program.flatMap_tilesOf_perm hbuilt hkeeps hcut
  have hbrackets : ∀ thread < program.layout.threads.total, _ := fun thread hthread =>
    Program.brackets_launchVisits hbuilt hkeeps hcut
      (fun loop hloop h => ⟨hk loop hloop h, hk loop hloop h⟩) houter hthread
  have houterTile : ∀ {thread : Nat}, thread < program.layout.threads.total →
      ∀ t ∈ program.tilesOf Loop.strides before after thread,
        t ∈ offsets Loop.strides ((outerLoops program.layout.loops).filter fun loop =>
          !loop.isReduction) := fun hthread t ht =>
    htiles.mem_iff.1 (List.mem_flatMap.2 ⟨_, List.mem_range.2 hthread, ht⟩)
  obtain ⟨hlength, hsights⟩ := List.forall₂_iff_get.1 (hready.sights_launchCalls hcut base)
  rw [List.length_range] at hlength
  rw [List.pairwise_iff_getElem]
  intro i j hi hj hlt address haddress haddress'
  have hiThread : i < program.layout.threads.total := hlength ▸ hi
  have hjThread : j < program.layout.threads.total := hlength ▸ hj
  have hsight : ∀ {k : Nat} (hk : k < (program.launchCalls contraction.states base).length), _ :=
    fun {k} hk => hsights k (by rw [List.length_range, hlength]; exact hk) hk
  simp only [List.get_eq_getElem, List.getElem_range] at hsight
  obtain ⟨t, ht, y, hy, heq⟩ := Program.exists_tile_of_mem_outElements hbuilt hcut hfollows hk
    (hbrackets i hiThread).1 (hsight hi) haddress
  obtain ⟨u, hu, z, hz, heq'⟩ := Program.exists_tile_of_mem_outElements hbuilt hcut hfollows hk
    (hbrackets j hjThread).1 (hsight hj) haddress'
  -- an element belongs to the block of one tile, and a tile to one thread
  have hsame := eq_of_nodup_sumset (f := id) (g := id) (by rwa [List.map_id, List.map_id])
    (houterTile hiThread t ht) (houterTile hjThread u hu) hy hz (by simp only [id]; omega)
  exact (hbrackets i hiThread).2 j hjThread (by omega) t ht u hu (congrArg Operands.out hsame.1.symm)

/-- Members of two lists side by side, the second looked up by index. -/
theorem zip_eq_map_zipIdx {β γ : Type} {xs : List β} {ys : List γ} (h : xs.length ≤ ys.length)
    (d : γ) : xs.zip ys = xs.zipIdx.map fun p => (p.1, ys.getD p.2 d) := by
  refine List.ext_getElem (by simp [h]) fun i hi hi' => ?_
  rw [List.length_zip] at hi
  simp [List.getElem?_eq_getElem (show i < ys.length by omega)]

/-- An accepted launch leaves what its threads leave in any order of their calls. -/
theorem Launches.out_eq_runMerged {buffers : Buffers α} {base : Operands Int}
    {slices : List (ScratchSlice α)} {next : Contraction α} {outcome : Outcome α}
    (h : contraction.Launches program buffers base slices next outcome)
    (hdisjoint : (program.launchCalls contraction.states base).Pairwise fun calls calls' =>
      (program.outElements calls).Disjoint (program.outElements calls'))
    {merged : List (Nat × Call)}
    (hmerged : Interleaves (program.launchCalls contraction.states base) merged) :
    outcome.out = program.runMerged ⟨buffers.left, buffers.right, buffers.outAux⟩ merged
      buffers.out fun thread => (slices.map ScratchSlice.cells).getD thread #[] := by
  rw [Program.runMerged_eq hdisjoint hmerged (interleaves_inTurn _), Program.runMerged_inTurn,
    h.out_eq]
  have hlength : (program.launchCalls contraction.states base).length ≤
      (slices.map ScratchSlice.cells).length := by
    have := h.enough
    rw [Program.launchCalls, List.length_map, List.length_zip, List.length_map]
    omega
  calc _ = ((program.launchCalls contraction.states base).zip
          (slices.map ScratchSlice.cells)).foldl (fun out p => (program.runCalls
            ⟨buffers.left, buffers.right, buffers.outAux⟩ p.1 out p.2).1) buffers.out := by
        rw [List.zip_map_right, List.foldl_map]
        rfl
    _ = _ := by rw [zip_eq_map_zipIdx hlength #[], List.foldl_map]

/-- In every launch of loops that do not meet in the output outside the reduction, no element of the
output is read or written by two threads, and threads that run side by side leave the same output in
every order of their calls as one after the other. -/
theorem disjoint_launchCalls (contraction : Contraction α) (hnew : contraction.program = none)
    (hkernel : KernelLast contraction.loops)
    (hk : ∀ loop ∈ contraction.loops, loop.isReduction = true → loop.strides.out = 0)
    (hout : ((offsets Loop.strides (contraction.loops.filter fun loop =>
      !loop.isReduction)).map Operands.out).Nodup)
    (requests : List (Request α)) {program : Program}
    (hcompiled : (requests.foldl serve contraction).program = some program)
    (base : Operands Int) :
    ((program.launchCalls (requests.foldl serve contraction).states base).Pairwise
      fun calls calls' => (program.outElements calls).Disjoint (program.outElements calls')) ∧
    ∀ buffers slices next outcome,
      (requests.foldl serve contraction).Launches program buffers base slices next outcome →
      ∀ merged, Interleaves (program.launchCalls (requests.foldl serve contraction).states base)
          merged →
        program.runMerged ⟨buffers.left, buffers.right, buffers.outAux⟩ merged buffers.out
          (fun thread => (slices.map ScratchSlice.cells).getD thread #[]) = outcome.out := by
  obtain ⟨hready, hsame⟩ := isReady_foldl_serve
    (fun program hprogram => absurd (hnew.symm.trans hprogram) (by simp)) requests
  rw [← hsame.loops] at hkernel hk hout
  have hdisjoint := (hready program hcompiled).disjoint_outElements hkernel hk hout base
  exact ⟨hdisjoint, fun buffers slices next outcome hlaunches merged hmerged =>
    (hlaunches.out_eq_runMerged hdisjoint hmerged).symm⟩

/-- The two threads of the second launch of the batched matrix product may run side by side. -/
theorem disjoint_launchCalls_batchedProduct :
    ∃ program slices next outcome,
      ([.compile, .contract batchedBuffers].foldl serve batchedProduct).Launches program
          batchedBuffers 0 slices next outcome ∧
        ((program.launchCalls ([.compile, .contract batchedBuffers].foldl serve
          batchedProduct).states 0).Pairwise fun calls calls' =>
            (program.outElements calls).Disjoint (program.outElements calls')) ∧
        ∀ merged, Interleaves (program.launchCalls ([.compile, .contract batchedBuffers].foldl serve
            batchedProduct).states 0) merged →
          program.runMerged ⟨batchedBuffers.left, batchedBuffers.right, batchedBuffers.outAux⟩
            merged batchedBuffers.out
            (fun thread => (slices.map ScratchSlice.cells).getD thread #[]) = outcome.out := by
  have hkernel : KernelLast batchedProduct.loops := by decide +kernel
  obtain ⟨hready, -⟩ := isReady_foldl_serve
    (show ∀ program, batchedProduct.program = some program → _ from
      fun program hprogram => absurd hprogram (by simp [batchedProduct, create]))
    [.compile, .contract batchedBuffers]
  have haccepted : (([.compile, .contract batchedBuffers].foldl serve
      batchedProduct).contract batchedBuffers).2.isOk = true := by decide +kernel
  rcases hlaunch : ([.compile, .contract batchedBuffers].foldl serve
    batchedProduct).contract batchedBuffers with ⟨next, error | outcome⟩
  · rw [hlaunch] at haccepted
    exact absurd haccepted (by simp [Except.isOk, Except.toBool])
  · obtain ⟨program, slices, -, hlaunches⟩ := contract_launches hready hlaunch
    obtain ⟨hdisjoint, horder⟩ := disjoint_launchCalls batchedProduct rfl hkernel
      (by decide +kernel) (by decide +kernel) _ hlaunches.compiled 0
    exact ⟨program, slices, next, outcome, hlaunches, hdisjoint, horder _ _ _ _ hlaunches⟩

end Contraction

end LoopNest
