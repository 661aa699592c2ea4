/-!
# Arithmetic of elements

Kernels add, subtract, multiply and compare elements. `Scalar` names these operations and assumes no
law of them, so what is proved for every `Scalar` holds for rounded arithmetic as well. Single and
double precision numbers are the elements of the two element types; integers are exact.
-/

namespace LoopNest

/-- The operations that kernels apply to elements. -/
class Scalar (α : Type) where
  zero : α
  add : α → α → α
  sub : α → α → α
  mul : α → α → α
  isLess : α → α → Bool

instance : Scalar Float where
  zero := 0.0
  add := (· + ·)
  sub := (· - ·)
  mul := (· * ·)
  isLess x y := x < y

instance : Scalar Float32 where
  zero := 0.0
  add := (· + ·)
  sub := (· - ·)
  mul := (· * ·)
  isLess x y := x < y

instance : Scalar Int where
  zero := 0
  add := (· + ·)
  sub := (· - ·)
  mul := (· * ·)
  isLess x y := x < y

end LoopNest
