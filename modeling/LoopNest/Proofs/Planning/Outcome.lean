import LoopNest.Proofs.Planning.LoopRuns
import LoopNest.Proofs.Planning.Placement
import LoopNest.Proofs.Planning.ThreadSplit

/-!
# What planning can end with

Planning refuses settings below their least values, loops without iterations, kernels other than the
two plain ones, and complex loops that do not fit the kernel. There is nothing else that it can be
refused for: once these are checked, every index that was remembered is one of the list, and every
divisor is at least one. `plan_outcome` lists the outcomes; each pass has one lemma that says that it
succeeds on loops with iterations.

With a plan come the runs of the loops that made it (`PlanRuns`). It follows that planning always
ends, with a plan or with one of these refusals, and never with an undefined operation (`plan_ends`).
This includes the divisions by which loops can be fused (`Nest.planChecked_eq_plan`).
-/

namespace LoopNest

/-! ## Settings and sizes -/

theorem Settings.one_le_of_validate {settings : Settings} (h : settings.validate = .ok ()) :
    ∀ entry ∈ settings.bounded, 1 ≤ entry.2 := by
  unfold Settings.validate at h
  split at h
  · cases h
  · rename_i hnone
    intro entry hentry
    have hle := List.find?_eq_none.1 hnone entry hentry
    simpa using hle

/-- Settings are refused for a field below one. -/
theorem Settings.validate_cases (settings : Settings) :
    settings.validate = .ok () ∨
      ∃ field value, settings.validate = .error (.invalidSetting field value) := by
  unfold Settings.validate
  split
  · exact .inr ⟨_, _, rfl⟩
  · exact .inl rfl

/-- Loops are refused for a loop without iterations. -/
theorem checkSizes_cases (index : Nat) (loops : List Loop) :
    checkSizes index loops = .ok () ∨
      ∃ i axis size, checkSizes index loops = .error (.invalidSize i axis size) := by
  induction loops generalizing index with
  | nil => exact .inl rfl
  | cons loop rest ih =>
      by_cases hsize : loop.size < 1
      · rw [checkSizes, if_pos hsize]
        exact .inr ⟨_, _, _, rfl⟩
      · rw [checkSizes, if_neg hsize]
        exact ih (index + 1)

theorem checkSizes_of_sized {index : Nat} {loops : List Loop} (h : Sized loops) :
    checkSizes index loops = .ok () := by
  induction loops generalizing index with
  | nil => rfl
  | cons loop rest ih =>
      obtain ⟨hloop, hrest⟩ := List.forall_mem_cons.1 h
      rw [checkSizes, if_neg (show ¬loop.size < 1 by omega)]
      exact ih hrest

/-- Fusing and dropping loops leaves loops with iterations. -/
theorem Sized.normal {loops : List Loop} (h : Sized loops) :
    Sized (sortAndFuse (dropUnits loops)) := by
  apply forall_sortAndFuse
  · intro outer inner _ houter hinner
    exact one_le_mul_of_one_le_of_one_le houter hinner
  · exact h.filter _

/-! ## The complex loop -/

/-- The complex loop is refused, or it is taken out of the list. -/
theorem takeComplex_outcome (kernel : KernelTag) (loops : List Loop) :
    (∃ fault, takeComplex kernel loops = .error (.invalidComplex fault)) ∨
      ∃ complex rest, takeComplex kernel loops = .ok (complex, rest) := by
  unfold takeComplex
  split
  · dsimp only
    split
    · exact .inl ⟨_, rfl⟩
    split
    · exact .inl ⟨_, rfl⟩
    · exact .inr ⟨_, _, rfl⟩
  · split
    · exact .inl ⟨_, rfl⟩
    · exact .inr ⟨_, _, rfl⟩

/-! ## Candidates and targets -/

theorem exists_candidates {settings : Settings} (haliasing : 1 ≤ settings.aliasing)
    (loops : List Loop) : ∃ chosen, candidates settings loops = .ok chosen := by
  have haliases : ∀ found side, ∃ b, Candidates.aliases found side settings.aliasing = .ok b := by
    intro found side
    cases found with
    | none => exact ⟨false, rfl⟩
    | some f =>
        have hremainder := remainder_eq_ok (a := f.loop.stride side)
          (show settings.aliasing ≠ 0 by omega)
        exact ⟨_, bind_eq_ok.2 ⟨_, hremainder, rfl⟩⟩
  have hpack : ∀ chosen : Candidates,
      ∃ packed, chosen.packAliasing settings.aliasing = .ok packed := by
    intro chosen
    obtain ⟨kLeft, hkLeft⟩ := haliases chosen.slots.k .left
    obtain ⟨mLeft, hmLeft⟩ := haliases chosen.slots.m .left
    obtain ⟨kRight, hkRight⟩ := haliases chosen.slots.k .right
    obtain ⟨nRight, hnRight⟩ := haliases chosen.slots.n .right
    exact ⟨_, bind_eq_ok.2 ⟨kLeft, hkLeft, bind_eq_ok.2 ⟨mLeft, hmLeft,
      bind_eq_ok.2 ⟨kRight, hkRight, bind_eq_ok.2 ⟨nRight, hnRight, rfl⟩⟩⟩⟩⟩
  exact hpack _

/-- Every slot has at least one. -/
structure Slots.Positive (slots : Slots Int) : Prop where
  br : 1 ≤ slots.br
  c : 1 ≤ slots.c
  m : 1 ≤ slots.m
  n : 1 ≤ slots.n
  k : 1 ≤ slots.k

/-- What is found among loops with iterations has iterations. -/
theorem Sized.found {loops : List Loop} (h : Sized loops) {axis : Axis} {found : Option Found}
    (hfound : FoundFor loops axis found) : 1 ≤ Found.size found := by
  cases found with
  | none => exact Int.le_refl 1
  | some f => exact h f.loop (hfound f rfl).1.mem

theorem Candidates.Sits.sizes_positive {chosen : Candidates} {loops : List Loop}
    (h : chosen.Sits loops) (hsized : Sized loops) : chosen.sizes.Positive :=
  ⟨hsized.found h.br, hsized.found h.c, hsized.found h.m, hsized.found h.n, hsized.found h.k⟩

/-- Budget that is passed on leaves at least one to the slot and to its heir. -/
theorem succeeds_passOn {size target heir : Int} (hsize : 1 ≤ size) (htarget : 1 ≤ target)
    (hheir : 1 ≤ heir) :
    Succeeds (passOn size target heir) fun result => 1 ≤ result.1 ∧ 1 ≤ result.2 := by
  unfold passOn
  split
  · rename_i hlt
    refine (succeeds_quotient hsize).chain fun q hq => .ok ⟨hsize, ?_⟩
    have hquotient : 1 ≤ q := by
      rw [hq, Int.tdiv_eq_ediv_of_nonneg (by omega)]
      exact Int.le_ediv_of_mul_le (by omega) (by omega)
    exact one_le_mul_of_one_le_of_one_le hheir hquotient
  · exact .ok ⟨htarget, hheir⟩

theorem succeeds_passOnTargets {sizes targets : Slots Int} (hsizes : sizes.Positive)
    (htargets : targets.Positive) : Succeeds (passOnTargets sizes targets) Slots.Positive := by
  refine (succeeds_passOn hsizes.k htargets.k htargets.br).chain fun first h₁ => ?_
  refine (succeeds_passOn hsizes.br h₁.2 htargets.m).chain fun second h₂ => ?_
  refine (succeeds_passOn hsizes.m h₂.2 htargets.n).chain fun third h₃ => ?_
  refine .ok ⟨h₂.1, ?_, h₃.1, le_min hsizes.n h₃.2, h₁.1⟩
  dsimp only
  split
  · exact hsizes.c
  · exact htargets.c

/-- Whether tiles of `m` times `n` elements are too few for all threads and can still be cut. -/
def tooFewTiles (threads : Nat) (elements m n : Int) : Except Error Bool := do
  return (← quotient elements (m * n)) < threads && 1 < m * n

theorem succeeds_tooFewTiles (threads : Nat) (elements : Int) {m n : Int} (hm : 1 ≤ m) (hn : 1 ≤ n) :
    Succeeds (tooFewTiles threads elements m n) fun b => b = true → 1 < m * n := by
  refine (succeeds_quotient (one_le_mul_of_one_le_of_one_le hm hn)).chain fun tiles _ => .ok ?_
  intro h
  exact of_decide_eq_true (Bool.and_eq_true_iff.1 h).2

/-- The run that halves the output tile, from the targets that are left when budget was passed on. -/
def TileRun (settings : Settings) (chosen : Candidates) (loops : List Loop) (targets : Targets) :
    Prop :=
  ∃ passed, passOnTargets chosen.sizes (initialTargets settings) = .ok passed ∧
    HalveRun (tooFewTiles settings.resolvedThreads ((sizesMN loops).1 * (sizesMN loops).2))
      passed.m passed.n (targets.slots.m, targets.slots.n)

theorem succeeds_targetSizes {settings : Settings} (hsettings : settings.validate = .ok ())
    {chosen : Candidates} {loops : List Loop} (hsits : chosen.Sits loops) (hsized : Sized loops) :
    Succeeds (targetSizes settings chosen loops) (TileRun settings chosen loops) := by
  have hbounded := Settings.one_le_of_validate hsettings
  simp only [Settings.bounded, List.forall_mem_cons] at hbounded
  have hinitial : (initialTargets settings).Positive :=
    ⟨Int.le_refl 1, Int.le_refl 1, hbounded.1, hbounded.2.1, hbounded.2.2.1⟩
  obtain ⟨passed, hpassed, hpositive⟩ :=
    succeeds_passOnTargets (hsits.sizes_positive hsized) hinitial
  obtain ⟨tile, htile, hrun, hm, hn⟩ := exists_halveRun
    (fun m n => succeeds_tooFewTiles settings.resolvedThreads
      ((sizesMN loops).1 * (sizesMN loops).2)) hpositive.m hpositive.n
  refine .step hpassed (.step htile ?_)
  refine (succeeds_quotient hm).chain fun _ _ => ?_
  exact (succeeds_quotient hn).chain fun _ _ => .ok ⟨passed, hpassed, hrun⟩

/-! ## Kernel loops -/

/-- A list of loops with iterations that has all indices of a shorter list. -/
structure Holds (count : Nat) (loops : List Loop) : Prop where
  sized : Sized loops
  indices : count ≤ loops.length

namespace Holds

variable {count : Nat} {loops : List Loop}

theorem snoc (h : Holds count loops) {loop : Loop} (hloop : 1 ≤ loop.size) :
    Holds count (loops ++ [loop]) where
  sized := h.sized.append (Sized.cons hloop (by simp [Sized]))
  indices := by
    have := h.indices
    rw [List.length_append]
    omega

/-- A loop at an index that was remembered can be split. -/
theorem succeeds_splitAt (h : Holds count loops) {index : Nat} (hindex : index < count)
    (target : Int) (mode : Mode) :
    Succeeds (splitAt loops index target mode) (Holds count) := by
  have hlt : index < loops.length := lt_of_lt_of_le hindex h.indices
  have hsize : 1 ≤ loops[index].size := h.sized _ (List.getElem_mem hlt)
  refine .step (entry_eq_ok hlt) ((succeeds_split target mode hsize).chain fun pair hpair => .ok ?_)
  have hset : Holds count (loops.set index pair.outer) :=
    ⟨h.sized.set index hpair.1, by rw [List.length_set]; exact h.indices⟩
  exact hset.snoc hpair.2

theorem succeeds_installExtra (h : Holds count loops) {candidate : Option Found}
    (hcandidate : ∀ f, candidate = some f → f.index < count) (target : Int) :
    Succeeds (installExtra candidate target loops) (Holds count) := by
  cases candidate with
  | none => exact .ok h
  | some f => exact h.succeeds_splitAt (hcandidate f rfl) target .seq

theorem succeeds_installSlot (h : Holds count loops) (axis : Axis) (required : Bool)
    {candidate : Option Found} (hcandidate : ∀ f, candidate = some f → f.index < count)
    (target : Int) :
    Succeeds (installSlot axis required candidate target loops) (Holds count) := by
  have hfill : Succeeds (.ok (if required then loops ++ [placeholder axis] else loops))
      (Holds count) := by
    refine .ok ?_
    split
    · exact h.snoc (Int.le_refl 1)
    · exact h
  cases candidate with
  | none => exact hfill
  | some f =>
      rw [installSlot]
      split
      · exact h.succeeds_splitAt (hcandidate f rfl) target .prim
      · exact hfill

end Holds

theorem FoundFor.index_lt {loops : List Loop} {axis : Axis} {found : Option Found}
    (h : FoundFor loops axis found) : ∀ f, found = some f → f.index < loops.length :=
  fun f hf => (List.getElem?_eq_some_iff.1 (h f hf).1).1

/-- All slots can be filled. -/
theorem Holds.succeeds_installSlots {start loops : List Loop} (h : Holds start.length loops)
    {chosen : Candidates} (hsits : chosen.Sits start) (targets : Slots Int) :
    Succeeds (installSlots chosen targets loops) (Holds start.length) := by
  refine (h.succeeds_installSlot .k _ hsits.br.index_lt _).chain fun l₁ h₁ => ?_
  refine (h₁.succeeds_installSlot .c _ hsits.c.index_lt _).chain fun l₂ h₂ => ?_
  refine (h₂.succeeds_installSlot .m _ hsits.m.index_lt _).chain fun l₃ h₃ => ?_
  refine (h₃.succeeds_installSlot .n _ hsits.n.index_lt _).chain fun l₄ h₄ => ?_
  exact h₄.succeeds_installSlot .k _ hsits.k.index_lt _

/-- Packing leaves the sizes as they are. -/
theorem Sized.packInputs {loops : List Loop} (h : Sized loops) (settings : Settings)
    (kernel : KernelTag) (chosen : Candidates) : Sized (packInputs settings kernel chosen loops) := by
  have hassign : ∀ (side : Side) (order : List Nat) {packed : List Loop}, Sized packed →
      Sized (assignBufferStrides side order 1 packed) := fun side order _ hpacked =>
    forall_assignBufferStrides (fun loop stride hloop => (size_repack loop side stride).symm ▸ hloop)
      order 1 hpacked
  unfold LoopNest.packInputs
  dsimp only
  generalize bufferOrder kernel _ _ = order
  have hleft : Sized (if chosen.packLeft then assignBufferStrides .left order 1 loops else loops) := by
    split
    · exact hassign _ _ h
    · exact h
  split
  · exact hassign _ _ hleft
  · exact hleft

/-- The kernel loops can be installed once the complex loop has been taken out. -/
theorem succeeds_installKernel {settings : Settings} (hsettings : settings.validate = .ok ())
    {kernel : KernelTag} (hkernel : kernel = .madd ∨ kernel = .cpxMadd) {loops rest : List Loop}
    {complex : Option Loop} (hsized : Sized loops)
    (htakes : takeComplex kernel loops = .ok (complex, rest)) :
    Succeeds (installKernel settings kernel loops) fun kerneled => Sized kerneled.loops := by
  have hbounded := Settings.one_le_of_validate hsettings
  simp only [Settings.bounded, List.forall_mem_cons] at hbounded
  have hparts : Sized (complex.toList ++ rest) := hsized.of_perm (takeComplex_perm htakes)
  have hrest : Sized rest := fun loop hloop => hparts loop (List.mem_append_right _ hloop)
  obtain ⟨chosen, hchosen⟩ := exists_candidates hbounded.2.2.2.2.2.2.1 rest
  have hsits := (candidates_spec hchosen).1
  have hextra : ∀ {found : Option Found}, (∀ f, found = some f → f.In rest) →
      ∀ f, found = some f → f.index < rest.length := fun h f hf =>
    (List.getElem?_eq_some_iff.1 (h f hf)).1
  have hneither : ¬(kernel ≠ .madd ∧ kernel ≠ .cpxMadd) := by
    rcases hkernel with rfl | rfl <;> simp
  unfold installKernel
  rw [if_neg hneither]
  refine .step htakes (.step hchosen ?_)
  refine (succeeds_targetSizes hsettings hsits hrest).chain fun targets _ => ?_
  have hstart : Holds rest.length rest := ⟨hrest, Nat.le_refl _⟩
  refine (hstart.succeeds_installExtra (hextra hsits.extraRight) _).chain fun l₁ h₁ => ?_
  refine (h₁.succeeds_installExtra (hextra hsits.extraLeft) _).chain fun l₂ h₂ => ?_
  have hbase : Holds rest.length
      (l₂ ++ (complex.map fun loop => { loop with mode := .prim }).toList) := by
    cases complex with
    | none => simpa using h₂
    | some loop =>
        have hloop : 1 ≤ loop.size := hparts loop (by simp)
        exact h₂.snoc hloop
  refine (hbase.succeeds_installSlots hsits _).chain fun l₃ h₃ => ?_
  exact .ok (h₃.sized.packInputs _ _ _)

/-! ## Blocking -/

/-- The runs of the loops that make the parallel block: one that halves its targets, and four that
move loops of an axis into it. -/
structure BlockRuns (settings : Settings) (element : ElementType) (loops : List Loop)
    (limit : Int) (targets : Int × Int) (targetC : Int) (n m k c : Moved) : Prop where
  bound : ∃ tiles, tilesPerThread settings element (loops.filter Loop.staysWithKernel) = .ok tiles ∧
    limit = settings.resolvedThreads * tiles
  halves : HalveRun (fun m n => .ok (limit < m * n))
    (sizesMN (loops.filter fun loop => !loop.staysWithKernel)).1
    (sizesMN (loops.filter fun loop => !loop.staysWithKernel)).2 targets
  share : quotient limit (max (targets.1 * targets.2) 1) = .ok targetC
  movesN : MoveRun .n (if settings.curves then .sfc else .omp) targets.2
    ⟨loops.filter fun loop => !loop.staysWithKernel, []⟩ n
  movesM : MoveRun .m (if settings.curves then .sfc else .omp) targets.1 ⟨n.rest, []⟩ m
  movesK : MoveRun .k .seq settings.kBlocking ⟨m.rest, []⟩ k
  movesC : MoveRun .c .omp targetC ⟨k.rest, []⟩ c

theorem one_le_totalSize {loops : List Loop} (h : Sized loops) : 1 ≤ totalSize loops := by
  rw [totalSize, ← List.prod_eq_foldl]
  exact one_le_prod_size h

/-- A thread has at least one tile to work on. -/
theorem succeeds_tilesPerThread (settings : Settings) (element : ElementType) {kernel : List Loop}
    (h : Sized kernel) :
    Succeeds (tilesPerThread settings element kernel) fun tiles => 1 ≤ tiles := by
  have hbytes : (1 : Int) ≤ element.bytes := by cases element <;> decide
  have htile := one_le_totalSize (h.filter fun loop => loop.axis ≠ .k)
  refine (succeeds_quotient (one_le_mul_of_one_le_of_one_le htile hbytes)).chain fun q _ => ?_
  exact .ok (le_max_right _ _)

theorem succeeds_block (settings : Settings) (element : ElementType) {loops : List Loop}
    (hsized : Sized loops) :
    Succeeds (block settings element loops) fun blocked =>
      ∃ limit targets targetC n m k c, BlockRuns settings element loops limit targets targetC n m k c ∧
        Blocking settings loops blocked n m k c := by
  have hthreads : (1 : Int) ≤ settings.resolvedThreads := by
    exact_mod_cast settings.one_le_resolvedThreads
  have hfree := hsized.filter fun loop => !loop.staysWithKernel
  obtain ⟨tiles, htiles, hpositive⟩ :=
    succeeds_tilesPerThread settings element (hsized.filter Loop.staysWithKernel)
  have hlimit := one_le_mul_of_one_le_of_one_le hthreads hpositive
  generalize hlimitDef : (settings.resolvedThreads : Int) * tiles = limit at hlimit
  have hasks : ∀ m n : Int, 1 ≤ m → 1 ≤ n →
      Succeeds (.ok (decide (limit < m * n))) fun b => b = true → 1 < m * n := by
    intro m n _ _
    refine .ok fun h => ?_
    have := of_decide_eq_true h
    omega
  obtain ⟨targets, htargets, hhalves, -, -⟩ :=
    exists_halveRun hasks (hfree.sizeOfAxis_pos .m) (hfree.sizeOfAxis_pos .n)
  obtain ⟨targetC, htargetC, -⟩ := succeeds_quotient (a := limit)
    (le_max_right (targets.1 * targets.2) 1)
  obtain ⟨n, hn, hmovesN, hrestN, -⟩ :=
    exists_moveRun .n (if settings.curves then .sfc else .omp) targets.2 hfree
  obtain ⟨m, hm, hmovesM, hrestM, -⟩ :=
    exists_moveRun .m (if settings.curves then .sfc else .omp) targets.1 hrestN
  obtain ⟨k, hk, hmovesK, hrestK, -⟩ := exists_moveRun .k .seq settings.kBlocking hrestM
  obtain ⟨c, hc, hmovesC, -, -⟩ := exists_moveRun .c .omp targetC hrestK
  refine .step htiles ?_
  dsimp only
  rw [hlimitDef]
  refine .step htargets (.step htargetC (.step hn (.step hm (.step hk (.step hc (.ok ?_))))))
  exact ⟨limit, targets, targetC, n, m, k, c,
    ⟨⟨tiles, htiles, hlimitDef.symm⟩, hhalves, htargetC, hmovesN, hmovesM, hmovesK, hmovesC⟩,
    ⟨_, hn⟩, ⟨_, hm⟩, ⟨_, hk⟩, ⟨_, hc⟩, rfl, rfl, rfl⟩

/-! ## The whole plan -/

/-- The runs of the loops without a count of passes that made a plan: one for the output tile of the
kernel, and five for the parallel block. -/
def PlanRuns (settings : Settings) (kernel : KernelTag) (element : ElementType) (loops : List Loop)
    (nest : Nest) : Prop :=
  ∃ (s : KernelStages) (kerneled : Kerneled) (blocked : Blocked),
    s.Lead settings kernel (sortAndFuse (dropUnits loops)) kerneled ∧
    PlanStages settings kernel element loops nest kerneled blocked ∧
    TileRun settings s.chosen s.rest s.targets ∧
    ∃ limit targets targetC n m k c,
      BlockRuns settings element (dropUnits kerneled.loops) limit targets targetC n m k c ∧
      Blocking settings (dropUnits kerneled.loops) blocked n m k c

/-- All that planning can end with, and why. -/
inductive Nest.Outcome (settings : Settings) (kernel : KernelTag) (element : ElementType)
    (loops : List Loop) : Except Error Nest → Prop where
  | setting {field : SettingField} {value : Int}
      (hsettings : settings.validate = .error (.invalidSetting field value)) :
      Outcome settings kernel element loops (.error (.invalidSetting field value))
  | size {index : Nat} {axis : Axis} {size : Int}
      (hsizes : checkSizes 0 loops = .error (.invalidSize index axis size)) :
      Outcome settings kernel element loops (.error (.invalidSize index axis size))
  | kernel (hkernel : kernel ≠ .madd ∧ kernel ≠ .cpxMadd) :
      Outcome settings kernel element loops (.error (.unsupportedMainKernel kernel))
  | complex {fault : ComplexFault}
      (htakes : takeComplex kernel (sortAndFuse (dropUnits loops)) =
        .error (.invalidComplex fault)) :
      Outcome settings kernel element loops (.error (.invalidComplex fault))
  | plan {complex : Option Loop} {rest : List Loop} {nest : Nest}
      (htakes : takeComplex kernel (sortAndFuse (dropUnits loops)) = .ok (complex, rest))
      (hruns : PlanRuns settings kernel element loops nest) :
      Outcome settings kernel element loops (.ok nest)

/-- Once the complex loop has been taken out, there is a plan. -/
theorem succeeds_plan {settings : Settings} (hsettings : settings.validate = .ok ())
    {kernel : KernelTag} (hkernel : kernel = .madd ∨ kernel = .cpxMadd) (element : ElementType)
    {loops : List Loop} (hsized : Sized loops) {complex : Option Loop} {rest : List Loop}
    (htakes : takeComplex kernel (sortAndFuse (dropUnits loops)) = .ok (complex, rest)) :
    Succeeds (Nest.plan settings kernel element loops)
      (PlanRuns settings kernel element loops) := by
  obtain ⟨kerneled, hinstall, hkerneled⟩ :=
    succeeds_installKernel hsettings hkernel hsized.normal htakes
  obtain ⟨blocked, hblock, hruns⟩ :=
    succeeds_block settings element (hkerneled.filter _ : Sized (dropUnits kerneled.loops))
  obtain ⟨threads, hthreads⟩ :=
    exists_splitThreads settings.one_le_resolvedThreads blocked.sfcM blocked.sfcN
  obtain ⟨s, hlead⟩ := installKernel_eq_ok hinstall
  refine .step hsettings (.step (checkSizes_of_sized hsized) (.step hinstall (.step hblock
    (.step hthreads (.ok ⟨s, kerneled, blocked, hlead, ?_, ?_, hruns⟩)))))
  · exact ⟨hsized, hinstall, hblock, hthreads, rfl, rfl⟩
  · have hrest : Sized s.rest := fun loop hloop =>
      hsized.normal.of_perm (takeComplex_perm hlead.takes) loop (List.mem_append_right _ hloop)
    exact (succeeds_targetSizes hsettings (candidates_spec hlead.chooses).1 hrest).of_eq hlead.aims

theorem plan_outcome (settings : Settings) (kernel : KernelTag) (element : ElementType)
    (loops : List Loop) :
    Nest.Outcome settings kernel element loops (Nest.plan settings kernel element loops) := by
  rcases settings.validate_cases with hsettings | ⟨field, value, hsettings⟩
  · rcases checkSizes_cases 0 loops with hsizes | ⟨index, axis, size, hsizes⟩
    · have hsized : Sized loops := size_pos_of_checkSizes hsizes
      by_cases hkernel : kernel = .madd ∨ kernel = .cpxMadd
      · rcases takeComplex_outcome kernel (sortAndFuse (dropUnits loops)) with
          ⟨fault, htakes⟩ | ⟨complex, rest, htakes⟩
        · have hplan : Nest.plan settings kernel element loops = .error (.invalidComplex fault) := by
            unfold Nest.plan installKernel
            rw [hsettings, hsizes, htakes, if_neg (by rcases hkernel with rfl | rfl <;> simp)]
            rfl
          rw [hplan]
          exact .complex htakes
        · obtain ⟨nest, hplan, hruns⟩ := succeeds_plan hsettings hkernel element hsized htakes
          rw [hplan]
          exact .plan htakes hruns
      · have hneither : kernel ≠ .madd ∧ kernel ≠ .cpxMadd := not_or.1 hkernel
        have hplan : Nest.plan settings kernel element loops =
            .error (.unsupportedMainKernel kernel) := by
          unfold Nest.plan installKernel
          rw [hsettings, hsizes, if_pos hneither]
          rfl
        rw [hplan]
        exact .kernel hneither
    · have hplan : Nest.plan settings kernel element loops =
          .error (.invalidSize index axis size) := by
        unfold Nest.plan
        rw [hsettings, hsizes]
        rfl
      rw [hplan]
      exact .size hsizes
  · have hplan : Nest.plan settings kernel element loops =
        .error (.invalidSetting field value) := by
      unfold Nest.plan
      rw [hsettings]
      rfl
    rw [hplan]
    exact .setting hsettings

/-- With valid settings, sizes and kernel, planning fails with the complex loops or not at all. -/
theorem plan_cases_complex {settings : Settings} (hsettings : settings.validate = .ok ())
    {kernel : KernelTag} (hkernel : kernel = .madd ∨ kernel = .cpxMadd) (element : ElementType)
    {loops : List Loop} (hsized : Sized loops) :
    (∃ fault, takeComplex kernel (sortAndFuse (dropUnits loops)) = .error (.invalidComplex fault) ∧
        Nest.plan settings kernel element loops = .error (.invalidComplex fault)) ∨
      ∃ taken nest, takeComplex kernel (sortAndFuse (dropUnits loops)) = .ok taken ∧
        Nest.plan settings kernel element loops = .ok nest := by
  have houtcome := plan_outcome settings kernel element loops
  generalize Nest.plan settings kernel element loops = result at houtcome ⊢
  cases houtcome with
  | setting hrefused => exact absurd (hsettings.symm.trans hrefused) (by simp)
  | size hrefused => exact absurd ((checkSizes_of_sized hsized).symm.trans hrefused) (by simp)
  | kernel hother => exact absurd hkernel (not_or.2 hother)
  | complex htakes => exact .inl ⟨_, htakes, rfl⟩
  | plan htakes => exact .inr ⟨_, _, htakes, rfl⟩

/-- Planning always ends: with a plan that comes out of finite runs of its loops, or with the refusal of
a setting, a size, the kernel or the complex loops, each for its own reason. No list of loops and no
settings lead to a division by zero or to an index outside the list. -/
theorem plan_ends (settings : Settings) (kernel : KernelTag) (element : ElementType)
    (loops : List Loop) :
    (∃ nest, Nest.plan settings kernel element loops = .ok nest ∧
        PlanRuns settings kernel element loops nest) ∨
      (∃ field value, settings.validate = .error (.invalidSetting field value) ∧
        Nest.plan settings kernel element loops = .error (.invalidSetting field value)) ∨
      (∃ index axis size, checkSizes 0 loops = .error (.invalidSize index axis size) ∧
        Nest.plan settings kernel element loops = .error (.invalidSize index axis size)) ∨
      ((kernel ≠ .madd ∧ kernel ≠ .cpxMadd) ∧
        Nest.plan settings kernel element loops = .error (.unsupportedMainKernel kernel)) ∨
      ∃ fault, takeComplex kernel (sortAndFuse (dropUnits loops)) = .error (.invalidComplex fault) ∧
        Nest.plan settings kernel element loops = .error (.invalidComplex fault) := by
  have houtcome := plan_outcome settings kernel element loops
  generalize Nest.plan settings kernel element loops = result at houtcome ⊢
  cases houtcome with
  | setting hsettings => exact .inr (.inl ⟨_, _, hsettings, rfl⟩)
  | size hsizes => exact .inr (.inr (.inl ⟨_, _, _, hsizes, rfl⟩))
  | kernel hkernel => exact .inr (.inr (.inr (.inl ⟨hkernel, rfl⟩)))
  | complex htakes => exact .inr (.inr (.inr (.inr ⟨_, htakes, rfl⟩)))
  | plan _ hruns => exact .inl ⟨_, rfl, hruns⟩

/-- `Nest.plan` with loops that are fused by division. -/
def Nest.planChecked (settings : Settings) (kernel : KernelTag) (element : ElementType)
    (loops : List Loop) : Except Error Nest := do
  settings.validate
  checkSizes 0 loops
  let normal ← sortAndFuseChecked (dropUnits loops)
  let kerneled ← installKernel settings kernel normal
  let blocked ← block settings element (dropUnits kerneled.loops)
  let threads ← splitThreads settings.resolvedThreads blocked.sfcM blocked.sfcN
  return ⟨blocked.loops, kerneled.kernel, threads⟩

/-- The divisors of the fused strides are sizes that have been checked, so a plan that divides by
them ends as a plan that does not. -/
theorem Nest.planChecked_eq_plan (settings : Settings) (kernel : KernelTag) (element : ElementType)
    (loops : List Loop) :
    Nest.planChecked settings kernel element loops = Nest.plan settings kernel element loops := by
  unfold Nest.planChecked Nest.plan
  rcases checkSizes_cases 0 loops with hsizes | ⟨index, axis, size, hsizes⟩
  · -- the sizes have been checked when loops are fused
    have hsized : Sized loops := size_pos_of_checkSizes hsizes
    have hkept : Sized (dropUnits loops) := hsized.filter _
    rw [hsizes, sortAndFuseChecked_eq_ok hkept]
    rfl
  · rw [hsizes]
    rfl

end LoopNest
