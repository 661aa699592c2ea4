import LoopNest.Operands

/-!
# Calls of a launch

A thread does three things: it copies a packed block of an input into its scratch memory, it calls a
touch kernel, and it calls the main kernel. A launch is described by the list of these calls, thread
by thread. Nothing in a call depends on the contents of a buffer, only on addresses.

A `Cursor` says where the four operand streams stand. An input stands in the caller's buffer until
it is packed, then in scratch memory.
-/

namespace LoopNest

/-- The memory that an input is read from. -/
inductive Source where
  | buffer
  | scratch
  deriving DecidableEq

/-- Where an input stands. -/
structure Place where
  source : Source
  address : Int
  deriving DecidableEq

/-- Where the four operand streams stand. -/
structure Cursor where
  left : Place
  right : Place
  outAux : Int
  out : Int
  deriving DecidableEq

/-- One of the two touch kernels. -/
inductive Touch where
  | first
  | last
  deriving DecidableEq

/-- One thing that a thread does. -/
inductive Call where
  /-- Copies the packed block of an input from an address of its buffer to an address of the scratch
  memory. -/
  | pack (side : Side) (source target : Int)
  | touch (which : Touch) (outAux out : Int)
  | main (left right : Place) (out : Int)
  deriving DecidableEq

/-- The place `offset` elements further on. -/
def Place.move (place : Place) (offset : Int) : Place := ⟨place.source, place.address + offset⟩

namespace Cursor

/-- The cursor at the given addresses of the caller's buffers. -/
def start (addresses : Operands Int) : Cursor :=
  ⟨⟨.buffer, addresses.left⟩, ⟨.buffer, addresses.right⟩, addresses.outAux, addresses.out⟩

/-- The element addresses of the four streams, each in the memory that the stream is in. -/
def addresses (cursor : Cursor) : Operands Int :=
  ⟨cursor.left.address, cursor.right.address, cursor.outAux, cursor.out⟩

/-- The cursor moved by the given offsets. -/
def move (cursor : Cursor) (offset : Operands Int) : Cursor :=
  { left := cursor.left.move offset.left
    right := cursor.right.move offset.right
    outAux := cursor.outAux + offset.outAux
    out := cursor.out + offset.out }

/-- Where an input stands. -/
def input (cursor : Cursor) : Side → Place
  | .left => cursor.left
  | .right => cursor.right

/-- The cursor with an input at another place. -/
def withInput (cursor : Cursor) (side : Side) (place : Place) : Cursor :=
  match side with
  | .left => { cursor with left := place }
  | .right => { cursor with right := place }

end Cursor

end LoopNest
