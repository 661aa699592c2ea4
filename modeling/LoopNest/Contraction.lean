import LoopNest.Launch.Memory
import LoopNest.LoopTable
import LoopNest.Planning.Nest
import LoopNest.Scratch

/-!
# Contractions

A `Contraction` is a binary contraction that can be compiled once and launched any number of times.
It holds the loops, the element types, the kernel tags, the threads and the scratch memory, and
after it was compiled the program and the state of every thread.

`Contraction.compile` checks everything that does not depend on the buffers. The order of its checks
decides which fault is reported: element types, kernel tags, loop sizes, kernel loops, kernels,
packed regions, parallel layout, shares, thread pool, scratch memory. A contraction that could not be
compiled can be compiled again, for instance with more scratch memory; a compiled contraction stays
as it is.

Several threads run on a pool of their own. Whether there are workers for one is not up to the
contraction, so building the pool is left to a `PoolBuilder`.

`Contraction.contract` checks the buffers against the program and launches it.
`Contraction.contractRaw` launches on any part of the buffers without such checks. Threads run one
after the other; their outputs are disjoint.
-/

namespace LoopNest

/-- The element types of the operands, and the one computed in. -/
structure ElementTypes where
  left : ElementType
  right : ElementType
  comp : ElementType
  out : ElementType
  deriving DecidableEq

/-- Refuses types that are not all the same. -/
def ElementTypes.check (types : ElementTypes) : Except Error Unit :=
  if types.right = types.left ∧ types.comp = types.left ∧ types.out = types.left then .ok ()
  else .error (.unsupportedElementTypes types.left types.right types.comp types.out)

/-- The buffers of a launch and the type of their elements. -/
structure Buffers (α : Type) where
  element : ElementType
  left : Buffer α
  right : Buffer α
  outAux : Option (Buffer α)
  out : Buffer α

/-- What a launch leaves: the output, and the kernel calls seen by a recording provider. -/
structure Outcome (α : Type) where
  out : Buffer α
  observations : List (Observation α)

/-- What one thread leaves. -/
structure ThreadOutcome (α : Type) where
  state : ThreadState
  scratch : Buffer α
  observations : List (Observation α)

/-- What one thread works with. -/
structure ThreadTask (α : Type) where
  work : Work
  state : ThreadState
  scratch : Buffer α

/-- What builds pools of worker threads. It answers a number of threads with success, or with the
reason for which there is no pool to be had, and gives the same answer whenever it is asked. -/
abbrev PoolBuilder := (threads : Nat) → Except String Unit

namespace PoolBuilder

/-- The pool for a number of threads is built. A single thread needs none. -/
def Supplies (pools : PoolBuilder) (threads : Nat) : Prop := 1 < threads → pools threads = .ok ()

/-- A builder that is never short of workers. -/
def unlimited : PoolBuilder := fun _ => .ok ()

/-- Builds the pool for a number of threads, unless there is a single one. -/
def build (pools : PoolBuilder) (threads : Nat) : Except Error Unit :=
  if 1 < threads then (pools threads).mapError .threadPool else .ok ()

end PoolBuilder

/-- A contraction of elements of type `α`. -/
structure Contraction (α : Type) where
  loops : List Loop
  types : ElementTypes
  tags : KernelTags
  threads : ThreadGrid
  maxSlots : Int
  provider : Provider
  pools : PoolBuilder
  scratch : ScratchManager α
  program : Option Program := none
  states : List ThreadState := []

namespace Program

variable {α : Type} [Scalar α] (program : Program)

/-- Runs one thread on an output. -/
def runThread (inputs : Inputs α) (recording : Bool) (base : Operands Int) (task : ThreadTask α)
    (out : Buffer α) : ThreadOutcome α × Buffer α :=
  let (calls, state) := (program.threadCalls task.work base).run task.state
  let observations := if recording then program.observe inputs calls task.scratch else []
  let (out, scratch) := program.runCalls inputs calls out task.scratch
  (⟨state, scratch, observations⟩, out)

/-- Runs threads one after the other. -/
def runThreads (inputs : Inputs α) (recording : Bool) (base : Operands Int) :
    List (ThreadTask α) → (out : Buffer α) → List (ThreadOutcome α) × Buffer α
  | [], out => ([], out)
  | task :: rest, out =>
      let (outcome, out) := program.runThread inputs recording base task out
      let (outcomes, out) := runThreads inputs recording base rest out
      (outcome :: outcomes, out)

end Program

namespace Contraction

variable {α : Type}

/-- A contraction with loops that are ready to be compiled. -/
def create (loops : List Loop) (types : ElementTypes) (tags : KernelTags) (threads : ThreadGrid)
    (provider : Provider) (pools : PoolBuilder) : Contraction α :=
  { loops := loops
    types := types
    tags := tags
    threads := threads
    maxSlots := ({} : Settings).slots
    provider := provider
    pools := pools
    scratch := { pool := { unit := types.out.bytes } } }

/-- A contraction whose loops are planned from loops in any order. -/
def planned (loops : List Loop) (element : ElementType) (tags : KernelTags) (settings : Settings)
    (provider : Provider) (pools : PoolBuilder) : Except Error (Contraction α) := do
  let nest ← Nest.plan settings tags.main element loops
  let types : ElementTypes := ⟨element, element, element, element⟩
  let contraction :=
    create nest.loops types { tags with main := nest.kernel } nest.threads provider pools
  return { contraction with maxSlots := settings.slots }

variable (contraction : Contraction α)

/-- Whether the contraction was compiled. -/
def isCompiled : Bool := contraction.program.isSome

/-- The kernels, once element types, tags and loop sizes have been checked. -/
def makeKernels : Except Error KernelSet := do
  contraction.types.check
  contraction.tags.check
  checkSizes 0 contraction.loops
  contraction.tags.make contraction.provider contraction.loops

/-- The program and the scratch bytes of each thread, once the pool of the threads has been built. -/
def makeProgram (kernels : KernelSet) : Except Error (Program × Nat) := do
  let program ←
    Program.build contraction.loops kernels contraction.threads contraction.maxSlots
  let bytes ← program.scratchBytes contraction.types.out.bytes
  contraction.pools.build contraction.threads.total
  return (program, bytes)

/-- Compiles the contraction, unless it is compiled already. -/
def compile [Scalar α] : Contraction α × Except Error Unit :=
  if contraction.isCompiled then (contraction, .ok ())
  else
    match contraction.makeKernels with
    | .error e => (contraction, .error e)
    | .ok kernels =>
        let clamped :=
          { contraction with threads := Program.clampThreads contraction.loops contraction.threads }
        match clamped.makeProgram kernels with
        | .error e => (clamped, .error e)
        | .ok (program, bytes) =>
            let count := clamped.threads.total
            let provided :=
              { clamped with scratch := clamped.scratch.provide bytes count Scalar.zero }
            match provided.scratch.check count bytes with
            | .error e => (provided, .error e)
            | .ok () =>
                ({ provided with
                    program := some program
                    states := program.works.map program.initialState },
                  .ok ())

/-- Sets other bounds on the scratch memory handed out. -/
def limitScratch (limits : ScratchLimits) : Contraction α :=
  { contraction with scratch := { contraction.scratch with limits := some limits } }

/-- What each thread works with in a launch. -/
def threadTasks (program : Program) (slices : List (ScratchSlice α)) : List (ThreadTask α) :=
  ((program.works.zip contraction.states).zip slices).map fun ((work, state), slice) =>
    ⟨work, state, slice.cells⟩

/-- The contraction after a launch, with the states and the scratch memory that the threads left. -/
def afterLaunch (outcomes : List (ThreadOutcome α)) : Contraction α :=
  let scratch := contraction.scratch
  let pool := outcomes.zipIdx.foldl
    (fun pool (outcome, thread) => ScratchPool.write pool thread outcome.scratch) scratch.pool
  { contraction with
    states := outcomes.map ThreadOutcome.state
    scratch := { scratch with pool := pool } }

/-- Kernel calls in a fixed order: as they were made, and by output address if there are several
threads. -/
def arrange (observations : List (Observation α)) : List (Observation α) :=
  if 1 < contraction.threads.total then
    observations.mergeSort fun a b => a.out ≤ b.out
  else observations

/-- Launches a program on buffers that start at the given addresses. -/
def launch [Scalar α] (program : Program) (buffers : Buffers α) (base : Operands Int) :
    Except Error (Contraction α × Outcome α) := do
  let slices ← contraction.scratch.slices
  let inputs : Inputs α := ⟨buffers.left, buffers.right, buffers.outAux⟩
  let recording : Bool := contraction.provider = .recording
  let tasks := contraction.threadTasks program slices
  let (outcomes, out) := program.runThreads inputs recording base tasks buffers.out
  let observations := contraction.arrange (outcomes.flatMap ThreadOutcome.observations)
  return (contraction.afterLaunch outcomes, ⟨out, observations⟩)

/-- Requires a buffer of at least `required` elements. -/
def checkLength (operand : Operand) (required actual : Nat) : Except Error Unit :=
  if actual < required then .error (.bufferTooSmall operand required actual) else .ok ()

/-- Requires an auxiliary buffer where a touch kernel reads one, and a long enough one where it is
given. -/
def checkAux (program : Program) (aux : Option (Buffer α)) : Except Error Unit :=
  match aux, contraction.tags.readsAux with
  | some aux, _ => checkLength .outAux program.extents.outAux aux.size
  | none, some kernel => .error (.missingAuxiliary kernel)
  | none, none => .ok ()

/-- The program, once the buffers have been checked against it. -/
def checkBuffers (buffers : Buffers α) : Except Error Program :=
  match contraction.program with
  | none => .error .notCompiled
  | some program => do
      if buffers.element ≠ contraction.types.out then
        .error (.elementTypeMismatch contraction.types.out buffers.element)
      checkLength .left program.extents.left buffers.left.size
      checkLength .right program.extents.right buffers.right.size
      checkLength .out program.extents.out buffers.out.size
      contraction.checkAux program buffers.outAux
      let required ← program.scratchBytes contraction.types.out.bytes
      contraction.scratch.check contraction.threads.total required
      return program

/-- The contraction and the answer of a launch; a refused launch changes nothing. -/
def settle (result : Except Error (Contraction α × Outcome α)) :
    Contraction α × Except Error (Outcome α) :=
  match result with
  | .error e => (contraction, .error e)
  | .ok (next, outcome) => (next, .ok outcome)

/-- Contracts buffers that are as long as the program reaches. -/
def contract [Scalar α] (buffers : Buffers α) : Contraction α × Except Error (Outcome α) :=
  contraction.settle do
    let program ← contraction.checkBuffers buffers
    contraction.launch program buffers 0

/-- Contracts the parts of buffers that start at the given addresses. Only the scratch slices are
counted. Without an auxiliary buffer the auxiliary stream starts at zero. -/
def contractRaw [Scalar α] (buffers : Buffers α) (base : Operands Int) :
    Contraction α × Except Error (Outcome α) :=
  contraction.settle do
    match contraction.program with
    | none => .error .notCompiled
    | some program =>
        let slices ← contraction.scratch.slices
        if slices.length < program.works.length then
          .error (.undefined .sliceForEachThread)
        let base := { base with outAux := if buffers.outAux.isSome then base.outAux else 0 }
        contraction.launch program buffers base

end Contraction

end LoopNest
