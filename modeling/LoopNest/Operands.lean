/-!
# One value per operand stream

A contraction reads a left and a right input, updates an output, and may read an auxiliary
output tensor. `Operands α` holds one value for each of these four streams: strides, offsets and
the element addresses that a launch goes by are `Operands Int`, extents are `Operands Nat`.

Strides and offsets form the evident group, component by component. Where the elements lie in memory
is a matter of 64-bit words, `Operands UInt64`, which move in bytes and with wrap-around
(`Operands.advanced`).
-/

namespace LoopNest

/-- One value for each operand stream of a contraction. -/
structure Operands (α : Type) where
  left : α
  right : α
  outAux : α
  out : α
  deriving DecidableEq

/-- One of the four operand streams. -/
inductive Operand where
  | left
  | right
  | outAux
  | out
  deriving DecidableEq

/-- One of the two inputs. -/
inductive Side where
  | left
  | right
  deriving DecidableEq

/-- The written name of an operand stream. -/
def Operand.name : Operand → String
  | .left => "left"
  | .right => "right"
  | .outAux => "out_aux"
  | .out => "out"

/-- The written name of an input. -/
def Side.name : Side → String
  | .left => "left"
  | .right => "right"

namespace Operands

variable {α β γ : Type}

/-- The same value in every stream. -/
def fill (x : α) : Operands α := ⟨x, x, x, x⟩

/-- A function applied in every stream. -/
def map (f : α → β) (x : Operands α) : Operands β :=
  ⟨f x.left, f x.right, f x.outAux, f x.out⟩

/-- A binary function applied stream by stream. -/
def zipWith (f : α → β → γ) (x : Operands α) (y : Operands β) : Operands γ :=
  ⟨f x.left y.left, f x.right y.right, f x.outAux y.outAux, f x.out y.out⟩

/-- The component of one stream. -/
def get (x : Operands α) : Operand → α
  | .left => x.left
  | .right => x.right
  | .outAux => x.outAux
  | .out => x.out

instance : Zero (Operands Int) := ⟨fill 0⟩

instance : Add (Operands Int) := ⟨zipWith (· + ·)⟩

instance : Sub (Operands Int) := ⟨zipWith (· - ·)⟩

/-- Every component multiplied by `factor`. -/
def scale (x : Operands Int) (factor : Int) : Operands Int := x.map (· * factor)

instance : Neg (Operands Int) := ⟨fun x => x.scale (-1)⟩

/-- Words moved by `strides * factor` bytes, each with wrap-around. With an element address and the
bytes of an element they are the words of that element, for a stream that starts at `words`. -/
def advanced (words : Operands UInt64) (strides : Operands Int) (factor : Int) :
    Operands UInt64 :=
  words.zipWith (fun word stride => word + UInt64.ofInt (stride * factor)) strides

end Operands

end LoopNest
