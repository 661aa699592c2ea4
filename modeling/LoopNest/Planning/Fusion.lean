import LoopNest.Loop
import LoopNest.Ordering

/-!
# Normal form of a loop list

Planning starts from a list of loops in any order. Loops of one iteration are dropped, the others
are sorted by axis, then from the largest to the smallest output stride, then from the largest to
the smallest right stride. Two neighbours of one axis become one loop if the outer one continues the
inner one in every operand, that is, if its strides are the inner strides times the inner size.
-/

namespace LoopNest

/-- Whether a loop may stand in front of another: smaller axis first, then larger output stride,
then larger right stride. -/
def Loop.precedes (a b : Loop) : Bool :=
  if a.axis.rank ≠ b.axis.rank then a.axis.rank < b.axis.rank
  else if a.strides.out ≠ b.strides.out then b.strides.out < a.strides.out
  else b.strides.right ≤ a.strides.right

/-- Whether a loop continues the loop `inner` in every operand. -/
def Loop.continues (outer inner : Loop) : Bool :=
  outer.axis = inner.axis ∧ outer.strides = inner.strides.scale inner.size

/-- One loop for a loop and the loop `inner` that it continues. Its strides are the outer ones divided
by the size of the inner loop. Since the outer loop continues the inner one, these are the inner
strides, and a loop of a positive size has no other quotients (`Loop.fuseChecked_eq_ok`). -/
def Loop.fuse (outer inner : Loop) : Loop :=
  { outer with size := outer.size * inner.size, strides := inner.strides }

/-- Drops the loops of one iteration outside the kernel. -/
def dropUnits (loops : List Loop) : List Loop :=
  loops.filter fun loop => loop.size ≠ 1 || loop.isPrim

/-- The loops of `current :: rest` after neighbours that continue each other were fused, from the
outside in. -/
def fuseFrom (current : Loop) : List Loop → List Loop
  | [] => [current]
  | next :: rest =>
      if current.continues next then fuseFrom (current.fuse next) rest
      else current :: fuseFrom next rest

/-- The loops of a list after neighbours that continue each other were fused. -/
def fuseLoops : List Loop → List Loop
  | [] => []
  | loop :: rest => fuseFrom loop rest

/-- Sorts the loops and fuses neighbours that continue each other. -/
def sortAndFuse (loops : List Loop) : List Loop := fuseLoops (sortBy Loop.precedes loops)

end LoopNest
