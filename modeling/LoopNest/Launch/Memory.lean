import LoopNest.Launch.Thread

/-!
# Running calls on memory

`Program.runCalls` carries out the calls of a thread on an output buffer and the scratch memory of
the thread. `Program.observe` looks at the calls instead: for each kernel call it notes the
addresses in the output and the first elements that the main kernel finds at its inputs, which shows
where packed inputs come from.

Reads outside a buffer give zero and changes outside it are dropped.
-/

namespace LoopNest

/-- The buffers that a launch reads. -/
structure Inputs (α : Type) where
  left : Buffer α
  right : Buffer α
  outAux : Option (Buffer α)

/-- The buffer of an input. -/
def Inputs.buffer {α : Type} (inputs : Inputs α) : Side → Buffer α
  | .left => inputs.left
  | .right => inputs.right

/-- What a kernel call looks like from outside. -/
inductive Observation (α : Type) where
  | touch (which : Touch) (outAux out : Int)
  | main (left right : α) (out : Int)

/-- The address in the output that an observed call works on. -/
def Observation.out {α : Type} : Observation α → Int
  | .touch _ _ out => out
  | .main _ _ out => out

namespace Program

variable {α : Type} [Scalar α] (program : Program) (inputs : Inputs α)

/-- The elements of an input as a kernel sees them from a place on. -/
def view (side : Side) (scratch : Buffer α) (place : Place) : Int → α :=
  match place.source with
  | .buffer => fun i => Buffer.readD (inputs.buffer side) (place.address + i) Scalar.zero
  | .scratch => fun i => Buffer.readD scratch (place.address + i) Scalar.zero

/-- The elements of the auxiliary tensor as a touch kernel sees them from an address on. -/
def auxView (address : Int) : Int → α :=
  match inputs.outAux with
  | some aux => fun i => Buffer.readD aux (address + i) Scalar.zero
  | none => fun _ => Scalar.zero

/-- One of the touch kernels. -/
def touchKernel : Touch → Option TouchKernel
  | .first => program.kernels.first
  | .last => program.kernels.last

/-- The scratch memory after a packed block was copied. -/
def pack (side : Side) (source target : Int) (scratch : Buffer α) : Buffer α :=
  match program.region side with
  | some region =>
      let cell (offset : Int) : α := Buffer.readD (inputs.buffer side) (source + offset) Scalar.zero
      region.copy.fill (fun offset => some (cell offset)) scratch target
  | none => scratch

/-- The updates of the output by a call, with the given scratch memory. -/
def callUpdates (scratch : Buffer α) : Call → List (Update α)
  | .pack .. => []
  | .touch which outAux out =>
      match program.touchKernel which with
      | some kernel => (kernel.updates (auxView inputs outAux)).map fun u => u.shift out
      | none => []
  | .main left right out =>
      let updates := program.kernels.main.updates (view inputs .left scratch left)
        (view inputs .right scratch right)
      updates.map fun u => u.shift out

/-- The output and the scratch memory after a list of calls. -/
def runCalls : List Call → (out scratch : Buffer α) → Buffer α × Buffer α
  | [], out, scratch => (out, scratch)
  | .pack side source target :: rest, out, scratch =>
      runCalls rest out (program.pack inputs side source target scratch)
  | call :: rest, out, scratch =>
      let updates := program.callUpdates inputs scratch call
      runCalls rest (Buffer.updateAll out updates) scratch

/-- What a list of calls looks like, with the given scratch memory before it. -/
def observe : List Call → (scratch : Buffer α) → List (Observation α)
  | [], _ => []
  | .pack side source target :: rest, scratch =>
      observe rest (program.pack inputs side source target scratch)
  | .touch which outAux out :: rest, scratch => .touch which outAux out :: observe rest scratch
  | .main left right out :: rest, scratch =>
      .main (view inputs .left scratch left 0) (view inputs .right scratch right 0) out ::
        observe rest scratch

end Program

end LoopNest
