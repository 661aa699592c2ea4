import LoopNest.Error

/-!
# Scratch memory

Threads pack inputs into scratch memory of their own. A `ScratchPool` keeps the largest size and the
largest number of threads that were reserved, and one buffer per thread once memory has been
allocated. Each buffer is one cache line longer than the reserved size, so that a slice of that size
which starts on a cache line fits in, wherever the buffer lies.

Allocation replaces the buffers only if the reservation has outgrown them; otherwise their contents
stay.

A `ScratchManager` hands out the slices of a pool, possibly fewer and shorter ones than were
reserved. A slice that was made shorter starts where it did. A thread goes by the address of its
slice and never asks for the length, so that the cells behind the address are the same; it is for
`ScratchManager.check` to see that the length will do.
-/

namespace LoopNest

/-- Bytes of a cache line. -/
def cacheLine : Nat := 64

/-- A buffer at a byte address. -/
structure ScratchBuffer (α : Type) where
  address : Nat
  cells : Array α

/-- Bytes from the start of a buffer to the next cache line. -/
def ScratchBuffer.gap {α : Type} (buffer : ScratchBuffer α) : Nat :=
  (cacheLine - buffer.address % cacheLine) % cacheLine

/-- What was reserved and allocated; each cell of a buffer has `unit` bytes. -/
structure ScratchPool (α : Type) where
  unit : Nat
  size : Nat := 0
  threads : Nat := 0
  buffers : List (ScratchBuffer α) := []

/-- Memory handed out to one thread: the address it starts at, the bytes that it is said to have, and
the cells behind the address. -/
structure ScratchSlice (α : Type) where
  address : Nat
  bytes : Nat
  cells : Array α

/-- A slice that is said to have at most `limit` bytes. -/
def ScratchSlice.shorten {α : Type} (slice : ScratchSlice α) (limit : Nat) : ScratchSlice α :=
  { slice with bytes := min limit slice.bytes }

namespace ScratchPool

variable {α : Type}

/-- Reserves at least `size` bytes for each of `threads` threads. -/
def reserve (pool : ScratchPool α) (size threads : Nat) : ScratchPool α :=
  { pool with size := max pool.size size, threads := max pool.threads threads }

/-- Whether the buffers hold what is reserved. -/
def isAllocated (pool : ScratchPool α) : Bool :=
  pool.buffers.length = pool.threads &&
    pool.buffers.all fun buffer => pool.size + cacheLine ≤ buffer.cells.size * pool.unit

/-- Allocates what is reserved, with cells of value `blank`; the buffer of thread `i` comes to lie
at `place i`. -/
def allocate (pool : ScratchPool α) (place : Nat → Nat) (blank : α) : ScratchPool α :=
  if pool.isAllocated || pool.size = 0 then pool
  else
    let buffer (thread : Nat) : ScratchBuffer α :=
      ⟨place thread, Array.replicate ((pool.size + cacheLine) / pool.unit) blank⟩
    { pool with buffers := (List.range pool.threads).map buffer }

/-- The slice of a buffer. -/
def sliceOf (pool : ScratchPool α) (buffer : ScratchBuffer α) : Except Error (ScratchSlice α) :=
  let start := buffer.gap / pool.unit
  let stop := (buffer.gap + pool.size) / pool.unit
  if stop ≤ buffer.cells.size then
    .ok ⟨buffer.address + buffer.gap, pool.size, buffer.cells.extract start stop⟩
  else .error (.undefined .rangeInBuffer)

/-- One slice of the reserved size per thread. Without memory to hand out the slices are empty. -/
def slices (pool : ScratchPool α) : Except Error (List (ScratchSlice α)) :=
  if pool.size = 0 ∨ pool.buffers = [] then .ok (List.replicate pool.threads ⟨0, 0, #[]⟩)
  else pool.buffers.mapM pool.sliceOf

/-- The buffer after its slice got new contents. -/
def fillSlice (pool : ScratchPool α) (buffer : ScratchBuffer α) (contents : Array α) :
    ScratchBuffer α :=
  let start := buffer.gap / pool.unit
  let before := buffer.cells.extract 0 start
  let after := buffer.cells.extract (start + contents.size) buffer.cells.size
  { buffer with cells := before ++ contents ++ after }

/-- The pool after the slice of one thread got new contents. -/
def write (pool : ScratchPool α) (thread : Nat) (contents : Array α) : ScratchPool α :=
  { pool with buffers := pool.buffers.modify thread fun buffer => pool.fillSlice buffer contents }

/-- The pool after every cell of the slice of one thread got the value `x`. -/
def fill (pool : ScratchPool α) (thread : Nat) (x : α) : Except Error (ScratchPool α) := do
  match (← pool.slices)[thread]? with
  | some slice => return pool.write thread (Array.replicate slice.cells.size x)
  | none => .error (.undefined .indexInRange)

end ScratchPool

/-- Bounds on what a manager hands out. -/
structure ScratchLimits where
  slices : Nat
  bytes : Nat
  deriving DecidableEq

/-- A pool, the bounds on what is handed out of it, and the reservations made so far. -/
structure ScratchManager (α : Type) where
  pool : ScratchPool α
  limits : Option ScratchLimits := none
  reservations : List (Nat × Nat) := []

namespace ScratchManager

variable {α : Type}

/-- Reserves and allocates memory. Buffers are placed on cache lines. -/
def provide (manager : ScratchManager α) (size threads : Nat) (blank : α) : ScratchManager α :=
  { manager with
    pool := (manager.pool.reserve size threads).allocate (fun _ => 0) blank
    reservations := manager.reservations ++ [(size, threads)] }

/-- The slices handed out: those of the pool, within the bounds. -/
def slices (manager : ScratchManager α) : Except Error (List (ScratchSlice α)) := do
  let slices ← manager.pool.slices
  match manager.limits with
  | some limits =>
      return (slices.take limits.slices).map fun slice => slice.shorten limits.bytes
  | none => return slices

/-- Lengths in bytes of the slices handed out. -/
def handedOut (manager : ScratchManager α) : Except Error (List Nat) :=
  return (← manager.slices).map ScratchSlice.bytes

/-- Requires a slice of at least `required` bytes for each of `threads` threads. -/
def check (manager : ScratchManager α) (threads required : Nat) : Except Error Unit := do
  let lengths ← manager.handedOut
  let shortest := ((lengths.take threads).min?).getD 0
  if lengths.length < threads ∨ shortest < required then
    .error (.threadMemory threads lengths.length required shortest)

end ScratchManager

end LoopNest
