import LoopNest.Launch.Call
import LoopNest.Program

/-!
# The calls of a thread

A thread goes through the levels of a program from the outside in and calls the kernels at the
innermost one (`Program.visit`). It keeps a state of its own: how often it has visited each output
cell of its box, counted modulo the number of K tasks, and which block of an input each packing slot
holds.

Two flags accompany the walk, one for the first and one for the last visit of an output tile. A
sequential K loop keeps the first flag in its first iteration only and the last flag in its last; a
K loop on the curve does the same by counting the visits of a cell.

A packed input is copied at the level in front of its packing loop: at every iteration of a
sequential level, and on the parallel levels only if the slot does not hold the block already.
-/

namespace LoopNest

/-- What a thread remembers. -/
structure ThreadState where
  /-- Visits of each output cell, modulo the number of K tasks. -/
  visits : Array Int
  /-- Address of the block that each left slot holds. -/
  heldLeft : List (Option Int)
  /-- Address of the block that each right slot holds. -/
  heldRight : List (Option Int)
  deriving DecidableEq

namespace ThreadState

/-- The blocks held of an input. -/
def held (state : ThreadState) : Side → List (Option Int)
  | .left => state.heldLeft
  | .right => state.heldRight

/-- The state after a slot was filled with the block at an address. -/
def hold (state : ThreadState) (side : Side) (slot : Nat) (address : Int) : ThreadState :=
  match side with
  | .left => { state with heldLeft := state.heldLeft.set slot (some address) }
  | .right => { state with heldRight := state.heldRight.set slot (some address) }

/-- The state of a thread that has visited nothing and holds nothing, with the same cells and
slots. -/
def reset (state : ThreadState) : ThreadState :=
  { visits := state.visits.map fun _ => 0
    heldLeft := state.heldLeft.map fun _ => none
    heldRight := state.heldRight.map fun _ => none }

end ThreadState

/-- A step of a thread. -/
abbrev ThreadStep := StateM ThreadState

/-- A place on the walk through a box: the cursor, and the M and N positions within the box. -/
structure Stop where
  cursor : Cursor
  m : Int
  n : Int
  deriving DecidableEq

/-- Which slots of the two inputs to use again. -/
structure Reuse where
  left : Nat
  right : Nat

/-- The slot of one input. -/
def Reuse.slot (reuse : Reuse) : Side → Nat
  | .left => reuse.left
  | .right => reuse.right

namespace Program

variable (program : Program)

/-- The state of a thread before its first launch. -/
def initialState (work : Work) : ThreadState :=
  { visits := Array.replicate (work.sizeM * work.sizeN).toNat 0
    heldLeft := List.replicate program.slotsLeft none
    heldRight := List.replicate program.slotsRight none }

/-- Copies an input into a slot, unless the slot may be used again and holds the block already. -/
def fillSlot (side : Side) (slot : Nat) (again : Bool) (address : Int) :
    ThreadStep (List Call) := do
  let copy := [Call.pack side address (program.slotAddress side slot)]
  if again then
    let state ← get
    if (state.held side).getD slot none = some address then return []
    set (state.hold side slot address)
    return copy
  else return copy

/-- Packs one input if its packing loop is the loop `next`. -/
def packInput (side : Side) (next : Nat) (reuse : Option Reuse) (cursor : Cursor) :
    ThreadStep (List Call × Cursor) :=
  match program.region side with
  | some region =>
      if region.loop = next then do
        let slot := (reuse.map fun r => r.slot side).getD 0
        let calls ← program.fillSlot side slot reuse.isSome (cursor.input side).address
        return (calls, cursor.withInput side ⟨.scratch, program.slotAddress side slot⟩)
      else return ([], cursor)
  | none => return ([], cursor)

/-- Packs the inputs whose packing loop is the loop `next`. -/
def packInputs (next : Nat) (reuse : Option Reuse) (cursor : Cursor) :
    ThreadStep (List Call × Cursor) := do
  let (left, cursor) ← program.packInput .left next reuse cursor
  let (right, cursor) ← program.packInput .right next reuse cursor
  return (left ++ right, cursor)

/-- The kernel calls at one tile. -/
def kernelCalls (cursor : Cursor) (first last : Bool) : List Call :=
  let touch (which : Touch) (wanted : Bool) : List Call :=
    if wanted then [.touch which cursor.outAux cursor.out] else []
  touch .first (first && program.kernels.first.isSome) ++
    [.main cursor.left cursor.right cursor.out] ++
    touch .last (last && program.kernels.last.isSome)

/-- The stop after a step with a given code. -/
def nextStop (stop : Stop) (move : Nat) : Stop :=
  let direction : Int := if move % 2 = 1 then -1 else 1
  let loop := move / 2
  let axis := program.layout.axisOf loop
  { cursor := stop.cursor.move ((program.strides.getD loop 0).scale direction)
    m := if axis = .m then stop.m + direction else stop.m
    n := if axis = .n then stop.n + direction else stop.n }

/-- The stops of a walk. Each code leads from its stop to the next; the code of the last stop leads
nowhere. -/
def stops (stop : Stop) : List Nat → List Stop
  | [] => []
  | move :: rest => stop :: stops (program.nextStop stop move) rest

/-- Counts a visit of an output cell and gives the number of visits before. -/
def countVisit (work : Work) (stop : Stop) : ThreadStep Int := do
  let state ← get
  let cell := (stop.m + stop.n * work.sizeM).toNat
  let count := state.visits.getD cell 0
  set { state with visits := state.visits.setIfInBounds cell ((count + 1).tmod work.sizeK) }
  return count

/-- The calls of a thread on the given levels, from a cursor on. -/
def visit (work : Work) : List Level → Cursor → (first last : Bool) → ThreadStep (List Call)
  | [], cursor, first, last => return program.kernelCalls cursor first last
  | level :: inner, cursor, first, last =>
      match level.kind with
      | .sequential => do
          let loop := program.layout.loops.getD level.start .unit
          let stride := program.strides.getD level.start 0
          let isReduction : Bool := loop.axis = .k
          let calls ← (upTo loop.size).mapM fun i => do
            let (packing, active) ←
              program.packInputs level.next none (cursor.move (stride.scale i))
            let calls ← visit work inner active
              (first && (!isReduction || i = 0)) (last && (!isReduction || i = loop.size - 1))
            return packing ++ calls
          return calls.flatten
      | .flat => do
          let calls ← (upTo work.omp.length).mapM fun i => do
            let offset := program.layout.ompOffset program.strides (work.omp.start + i)
            let (packing, active) ←
              program.packInputs level.next (some ⟨0, 0⟩) (cursor.move offset)
            let calls ← visit work inner active first last
            return packing ++ calls
          return calls.flatten
      | .curve => do
          let calls ← (program.stops ⟨cursor, 0, 0⟩ work.moves).mapM fun stop => do
            let count ← countVisit work stop
            let reuse : Reuse :=
              ⟨stop.m.toNat % program.slotsLeft, stop.n.toNat % program.slotsRight⟩
            let (packing, active) ← program.packInputs level.next (some reuse) stop.cursor
            let calls ← visit work inner active
              (first && count = 0) (last && count = work.sizeK - 1)
            return packing ++ calls
          return calls.flatten

/-- The calls of a thread in one launch on buffers that start at the given addresses. -/
def threadCalls (work : Work) (base : Operands Int) : ThreadStep (List Call) := do
  modify ThreadState.reset
  let (packing, cursor) ← program.packInputs 0 none ((Cursor.start base).move work.offset)
  let calls ← program.visit work program.layout.levels cursor true true
  return packing ++ calls

end Program

end LoopNest
