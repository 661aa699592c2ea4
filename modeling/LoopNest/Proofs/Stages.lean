import LoopNest.Proofs.Compilation

/-!
# The stages of compiling

A contraction is compiled in stages: its kernels, the shape of the kernel loops, the packed regions,
the parallel layout, the shares of the threads, their pool, their scratch memory. `Error.stage` says
to which stage a cause belongs, and `RefusedIn` that a computation is refused for causes of the given
stages only. Each step of compiling has one lemma with the stages it belongs to. What is refused at
all is the matter of other modules; here it only matters which cause is not to blame.
-/

namespace LoopNest

/-- A stage of planning, compiling or launching; causes of no stage are unmet preconditions. -/
inductive Stage where
  | planning
  | kernels
  | shape
  | regions
  | layout
  | shares
  | workers
  | memory
  | buffers
  | domain
  deriving DecidableEq

/-- The stage that a cause belongs to. -/
def Error.stage : Error → Stage
  | lengthMismatch _ _ _ | invalidSetting _ _ => .planning
  | unsupportedMainKernel _ | unsupportedTouchKernel _ | unsupportedElementTypes _ _ _ _
  | invalidComplex _ | invalidSize _ _ _ => .kernels
  | kernelShape _ _ => .shape
  | invalidPacking _ _ _ => .regions
  | parallelLayout _ _ => .layout
  | emptyThreadShare _ _ => .shares
  | threadPool _ => .workers
  | threadMemory _ _ _ _ => .memory
  | notCompiled | elementTypeMismatch _ _ | bufferTooSmall _ _ _ | missingAuxiliary _ => .buffers
  | undefined _ => .domain

/-- A computation that is refused for causes of the given stages only. -/
def RefusedIn {α : Type} (stages : List Stage) (x : Except Error α) : Prop :=
  ∀ e, x = .error e → e.stage ∈ stages

namespace RefusedIn

variable {α β : Type} {stages : List Stage}

theorem ok (a : α) : RefusedIn stages (.ok a) := by
  intro e h
  cases h

theorem error {e : Error} (h : e.stage ∈ stages) : RefusedIn stages (.error e : Except Error α) := by
  intro e' h'
  cases h'
  exact h

theorem mono {x : Except Error α} {more : List Stage} (h : RefusedIn stages x)
    (hsubset : stages ⊆ more) : RefusedIn more x := by
  intro e he
  exact hsubset (h e he)

theorem chain {x : Except Error α} {f : α → Except Error β} (hx : RefusedIn stages x)
    (hf : ∀ a, RefusedIn stages (f a)) : RefusedIn stages (x >>= f) := by
  cases x with
  | error e => exact error (hx e rfl)
  | ok a => exact hf a

/-- What succeeds is refused in no stage. -/
theorem of_exists {x : Except Error α} (hx : ∃ a, x = .ok a) : RefusedIn stages x := by
  obtain ⟨a, rfl⟩ := hx
  exact ok a

/-- A refused guard decides, and what follows it otherwise. -/
theorem guard {c : Prop} [Decidable c] {e : Error} (h : e.stage ∈ stages)
    {x : Except Error α} (hx : RefusedIn stages x) : RefusedIn stages (if c then .error e else x) := by
  split
  · exact error h
  · exact hx

/-- A refused guard in front of a common rest. -/
theorem guard_chain {c : Prop} [Decidable c] {e : Error} (h : e.stage ∈ stages)
    {f : Unit → Except Error α} (hf : RefusedIn stages (f ())) :
    RefusedIn stages (if c then (Except.error e : Except Error Unit) >>= f else f ()) := guard h hf

theorem mapM {f : α → Except Error β} (hf : ∀ a, RefusedIn stages (f a)) (xs : List α) :
    RefusedIn stages (xs.mapM f) := by
  induction xs with
  | nil => exact ok []
  | cons x xs ih =>
      rw [List.mapM_cons]
      apply chain (hf x)
      intro y
      apply chain ih
      intro ys
      exact ok (y :: ys)

end RefusedIn

open RefusedIn

/-! ## Kernels and shapes -/

theorem types_check_refusedIn (types : ElementTypes) : RefusedIn [.kernels] types.check := by
  unfold ElementTypes.check
  split
  · exact ok ()
  · exact error (by simp [Error.stage])

theorem checkSizes_refusedIn (index : Nat) (loops : List Loop) :
    RefusedIn [.kernels] (checkSizes index loops) := by
  induction loops generalizing index with
  | nil => exact ok ()
  | cons loop rest ih => exact guard (by simp [Error.stage]) (ih (index + 1))

namespace KernelShape

theorem checkAxes_refusedIn (kernel : KernelTag) (prims : List Loop) :
    RefusedIn [.shape] (checkAxes kernel prims) := by
  have hfifth : RefusedIn [.shape] (if kernel = .cpxPackedMadd ∧
      (prims[4]?.map Loop.axis) ≠ some .cpx then .error (.kernelShape kernel .fifth)
      else .ok () : Except Error Unit) := guard (by simp [Error.stage]) (ok ())
  unfold checkAxes
  apply guard_chain (by simp [Error.stage])
  apply guard_chain (by simp [Error.stage])
  cases fourthAxis kernel with
  | none => exact hfifth
  | some axis => exact guard_chain (by simp [Error.stage]) hfifth

theorem require_refusedIn {α : Type} (kernel : KernelTag) (fault : ShapeFault) (x : Option α) :
    RefusedIn [.shape] (require kernel fault x) := by
  cases x with
  | none => exact error (by simp [Error.stage])
  | some x => exact ok x

/-- A shape is refused for its loops, or for its number of planes. -/
theorem ofLoops_refusedIn (kernel : KernelTag) (loops : List Loop) :
    RefusedIn [.shape, .kernels] (ofLoops kernel loops) := by
  have hsubset : [Stage.shape] ⊆ [.shape, .kernels] := by simp
  have hprims : ∀ m n k outer, RefusedIn [.shape, .kernels] (ofPrims kernel m n k outer) := by
    intro m n k outer
    apply chain ((require_refusedIn kernel _ _).mono hsubset)
    intro left
    apply chain ((require_refusedIn kernel _ _).mono hsubset)
    intro right
    apply chain ((require_refusedIn kernel _ _).mono hsubset)
    intro out
    apply chain ((require_refusedIn kernel _ _).mono hsubset)
    intro aux
    exact guard_chain (by simp [Error.stage]) (ok _)
  apply chain ((checkAxes_refusedIn kernel _).mono hsubset)
  intro
  split
  · exact hprims _ _ _ _
  · exact error (by simp [Error.stage])

end KernelShape

namespace KernelTags

theorem check_refusedIn (tags : KernelTags) : RefusedIn [.kernels] tags.check := by
  have htouch : ∀ kernel, RefusedIn [.kernels] (checkTouch kernel) := by
    intro kernel
    exact guard (by simp [Error.stage]) (ok ())
  apply chain (htouch tags.first)
  intro
  apply chain (htouch tags.last)
  intro
  exact guard (by simp [Error.stage]) (ok ())

/-- Complex kernels need two planes, and some tags have no kernel. -/
theorem checkPlanes_refusedIn (kernel : KernelTag) (shape : KernelShape) :
    RefusedIn [.kernels] (Provider.checkPlanes kernel shape) :=
  guard (by simp [Error.stage]) (ok ())

theorem mainKernel_refusedIn (provider : Provider) (kernel : KernelTag) (shape : KernelShape) :
    RefusedIn [.kernels] (provider.mainKernel kernel shape) := by
  have hstrided : RefusedIn [.kernels] (Provider.stridedMain kernel shape) := by
    apply chain (checkPlanes_refusedIn kernel shape)
    intro
    cases kernel <;> first | exact ok _ | exact error (by decide)
  cases provider with
  | strided => exact hstrided
  | matrix => cases kernel <;> first | exact ok _ | exact hstrided
  | recording => exact ok _

theorem makeTouch_refusedIn (provider : Provider) (shape : KernelShape) (kernel : KernelTag) :
    RefusedIn [.kernels] (makeTouch provider shape kernel) := by
  have hstrided : RefusedIn [.kernels] (Provider.stridedTouch kernel shape) := by
    apply chain (checkPlanes_refusedIn kernel shape)
    intro
    cases kernel <;> first | exact ok _ | exact error (by decide)
  have htouch : RefusedIn [.kernels] (provider.touchKernel kernel shape) := by
    cases provider with
    | strided => exact hstrided
    | matrix => exact hstrided
    | recording => exact ok _
  unfold makeTouch
  split
  · exact ok none
  · exact chain htouch fun _ => ok _

/-- Making kernels is refused where their shape is, or for the kernels. -/
theorem make_refusedIn {stages : List Stage} (tags : KernelTags) (provider : Provider)
    {loops : List Loop} (hshape : RefusedIn stages (KernelShape.ofLoops tags.main loops))
    (hkernels : [Stage.kernels] ⊆ stages) : RefusedIn stages (tags.make provider loops) := by
  apply chain hshape
  intro shape
  apply chain ((mainKernel_refusedIn provider tags.main shape).mono hkernels)
  intro main
  apply chain ((makeTouch_refusedIn provider shape tags.first).mono hkernels)
  intro first
  apply chain ((makeTouch_refusedIn provider shape tags.last).mono hkernels)
  intro last
  exact ok _

end KernelTags

/-! ## Regions, layouts and shares -/

theorem PackedRegion.ofLoops_refusedIn (side : Side) (loops : List Loop) :
    RefusedIn [.regions] (PackedRegion.ofLoops side loops) := by
  have hinside : ∀ (index : Nat) (loops : List Loop),
      RefusedIn [.regions] (checkInside side index loops) := by
    intro index loops
    induction loops generalizing index with
    | nil => exact ok ()
    | cons loop rest ih =>
        apply guard (by simp [Error.stage])
        exact guard (by simp [Error.stage]) (ih (index + 1))
  unfold ofLoops
  split
  · exact ok none
  · apply guard_chain (by simp [Error.stage])
    apply chain (hinside _ _)
    intro
    exact ok _

namespace Layout

/-- One loop of a scan is refused for its place among the parallel loops. -/
theorem step_refusedIn (scan : Scan) (index : Nat) (loop : Loop) :
    RefusedIn [.layout] (scan.step index loop) := by
  have homp : RefusedIn [.layout] (scan.omp index loop) := guard (by simp [Error.stage]) (ok _)
  have hsfc : RefusedIn [.layout] (scan.sfc index loop) := by
    unfold Scan.sfc
    split
    · exact error (by simp [Error.stage])
    · exact guard (by simp [Error.stage]) (ok _)
  have hindex : ∀ next, RefusedIn [.layout] (if loop.isParallel && decide (maxLoopIndex < index)
      then .error (.parallelLayout index .indexTooLarge) else .ok next : Except Error Scan) := by
    intro next
    exact guard (by simp [Error.stage]) (ok next)
  unfold Scan.step
  cases loop.mode with
  | omp => exact chain homp hindex
  | sfc => exact chain hsfc hindex
  | seq => exact chain (ok scan) hindex
  | prim => exact chain (ok scan) hindex

theorem run_refusedIn (scan : Scan) (index : Nat) (loops : List Loop) :
    RefusedIn [.layout] (scan.run index loops) := by
  induction loops generalizing scan index with
  | nil => exact ok scan
  | cons loop rest ih =>
      apply chain (step_refusedIn scan index loop)
      intro next
      exact ih next (index + 1)

theorem ofLoops_refusedIn (loops : List Loop) (threads : ThreadGrid) :
    RefusedIn [.layout] (ofLoops loops threads) := by
  apply chain (run_refusedIn _ 0 loops)
  intro scan
  apply guard (by simp [Error.stage])
  split
  · exact ok _
  · exact guard (by simp [Error.stage]) (guard (by simp [Error.stage]) (ok _))

variable (layout : Layout)

theorem share_refusedIn (thread : Nat) : RefusedIn [.shares] (layout.share thread) := by
  have haxis : ∀ id threads total axis,
      RefusedIn [.shares] (Share.onAxis thread id threads total axis) := by
    intro id threads total axis
    unfold Share.onAxis
    dsimp only
    split
    · exact ok _
    · exact error (by simp [Error.stage])
  apply chain (haxis _ _ _ _)
  intro m
  apply chain (haxis _ _ _ _)
  intro n
  apply chain (haxis _ _ _ _)
  intro omp
  exact ok _

/-- The steps of a walk need loops that are there and have digits. -/
theorem moveOn_refusedIn (direction : Int) (indices : List Nat) (id : Int) :
    RefusedIn [.domain] (layout.moveOn direction indices id) := by
  induction indices generalizing id with
  | nil => exact ok 0
  | cons index outer ih =>
      apply chain
      · unfold sizeOf entry
        split
        · exact ok _
        · exact error (by decide)
      · intro size
        apply chain (guard (by decide) (ok _))
        intro digit
        split
        · exact ok _
        · exact ih _

theorem movesOf_refusedIn (tasks : List Task) : RefusedIn [.domain] (layout.movesOf tasks) := by
  have hmove : ∀ old new, RefusedIn [.domain] (layout.moveBetween old new) := by
    intro old new
    unfold moveBetween move
    split
    · exact moveOn_refusedIn layout _ _ _
    · split
      · exact moveOn_refusedIn layout _ _ _
      · exact moveOn_refusedIn layout _ _ _
  induction tasks with
  | nil => exact ok []
  | cons old rest ih =>
      cases rest with
      | nil => exact ok [0]
      | cons new rest =>
          apply chain (hmove old new)
          intro code
          apply chain ih
          intro codes
          exact ok _

theorem setup_refusedIn (table : StrideTable) :
    RefusedIn [.shares, .domain] (layout.setup table) := by
  have hdomain : [Stage.domain] ⊆ [.shares, .domain] := by simp
  have hwork : ∀ thread, RefusedIn [.shares, .domain] (layout.work table thread) := by
    intro thread
    apply chain ((share_refusedIn layout thread).mono (by simp))
    intro share
    apply chain ((movesOf_refusedIn layout _).mono hdomain)
    intro moves
    apply chain
    · exact chain (guard (by decide) (ok ())) fun _ => ok _
    · intro offset
      exact ok _
  rw [setup_eq]
  apply chain (RefusedIn.mapM hwork _)
  intro works
  exact ok _

end Layout

/-! ## Programs and scratch memory -/

/-- A program is refused for its packed regions, for its layout, or for its shares. -/
theorem Program.build_refusedIn {stages : List Stage} {loops : List Loop} (kernels : KernelSet)
    (threads : ThreadGrid) (maxSlots : Int)
    (hregions : ∀ side, RefusedIn stages (PackedRegion.ofLoops side loops))
    (hlayout : [Stage.layout] ⊆ stages)
    (hsetup : ∀ layout, Layout.ofLoops loops threads = .ok layout →
      RefusedIn stages (layout.setup (strideTable loops))) :
    RefusedIn stages (build loops kernels threads maxSlots) := by
  apply chain (hregions .left)
  intro left
  apply chain (hregions .right)
  intro right
  -- the layout is named, since the shares are those of the layout that was made
  cases h : Layout.ofLoops loops threads with
  | error e => exact error (hlayout (Layout.ofLoops_refusedIn loops threads e h))
  | ok layout =>
      apply chain (hsetup layout h)
      intro works
      exact ok _

theorem Program.scratchBytes_refusedIn (program : Program) (width : Nat) :
    RefusedIn [.domain] (program.scratchBytes width) := guard (by decide) (ok _)

namespace ScratchManager

variable {α : Type} (manager : ScratchManager α)

theorem handedOut_refusedIn : RefusedIn [.domain] manager.handedOut := by
  have hslices : RefusedIn [.domain] manager.pool.slices := by
    unfold ScratchPool.slices
    split
    · exact ok _
    · apply RefusedIn.mapM
      intro buffer
      unfold ScratchPool.sliceOf
      dsimp only
      split
      · exact ok _
      · exact error (by decide)
  apply chain
  · apply chain hslices
    intro slices
    cases manager.limits with
    | none => exact ok _
    | some limits => exact ok _
  · intro slices
    exact ok _

theorem check_refusedIn (threads required : Nat) :
    RefusedIn [.memory, .domain] (manager.check threads required) := by
  apply chain (manager.handedOut_refusedIn.mono (by simp))
  intro lengths
  exact guard (by simp [Error.stage]) (ok ())

end ScratchManager

/-! ## Contractions -/

/-- A pool is refused for lack of workers only. -/
theorem PoolBuilder.build_refusedIn (pools : PoolBuilder) (threads : Nat) :
    RefusedIn [.workers] (pools.build threads) := by
  unfold build
  split
  · cases pools threads with
    | error reason => exact error (by simp [Error.stage])
    | ok => exact ok ()
  · exact ok ()

namespace Contraction

variable {α : Type} (contraction : Contraction α)

/-- Before the program is made, only kernels and their shape are to blame. -/
theorem makeKernels_refusedIn {stages : List Stage}
    (hshape : RefusedIn stages (KernelShape.ofLoops contraction.tags.main contraction.loops))
    (hkernels : [Stage.kernels] ⊆ stages) : RefusedIn stages contraction.makeKernels := by
  apply chain ((types_check_refusedIn contraction.types).mono hkernels)
  intro
  apply chain ((KernelTags.check_refusedIn contraction.tags).mono hkernels)
  intro
  apply chain ((checkSizes_refusedIn 0 contraction.loops).mono hkernels)
  intro
  exact KernelTags.make_refusedIn contraction.tags contraction.provider hshape hkernels

theorem makeProgram_refusedIn {stages : List Stage} (kernels : KernelSet)
    (hbuild : RefusedIn stages
      (Program.build contraction.loops kernels contraction.threads contraction.maxSlots))
    (hlast : [Stage.domain, .workers] ⊆ stages) :
    RefusedIn stages (contraction.makeProgram kernels) := by
  apply chain hbuild
  intro program
  apply chain ((program.scratchBytes_refusedIn _).mono (by grind))
  intro bytes
  apply chain ((contraction.pools.build_refusedIn _).mono (by grind))
  intro
  exact ok _

end Contraction

end LoopNest
