/-!
# Divisors

A loop is split into an outer and an inner loop whose sizes multiply to the size of the loop, so the
size of the inner loop is one of its divisors. `nearestDivisorBy` picks the divisor that comes
closest to a wanted size under a given order of closeness; `splitSize` measures closeness on a
logarithmic scale, so that twice the target and half the target are equally far away.

The search visits the divisors in pairs up to the square root, starts at the whole size, and moves
on for a strictly closer divisor only. A target that divides the size is at distance zero, every
other divisor is farther, and the search would end at it; it is taken without a search.
-/

namespace LoopNest

/-- The divisors of `n` found from `i` on, in pairs `i`, `n / i`, in front of which stand those of
`found`, kept in reverse. -/
def divisorsFrom (n i : Nat) (found : List Nat) : List Nat :=
  if i * i ≤ n then
    let found :=
      if n % i ≠ 0 then found
      else if i = n / i then i :: found
      else n / i :: i :: found
    divisorsFrom n (i + 1) found
  else found.reverse
termination_by n + 1 - i
decreasing_by
  have := Nat.le_mul_self i
  omega

/-- The divisors of `n` in pairs `i`, `n / i` for growing `i`, a square root once. -/
def divisors (n : Nat) : List Nat := divisorsFrom n 1 []

/-- The divisor of `size` closest to `target`, where `closer d e` says that `d` is strictly closer
than `e`. A size below one has no divisors and is returned as it is.

A target that divides the size is taken without a search. This is what the search comes to for any
order of closeness that puts the target in front of all other divisors. -/
def nearestDivisorBy (closer : Int → Int → Bool) (size target : Int) : Int :=
  if 1 ≤ target ∧ 1 ≤ size ∧ size % target = 0 then target
  else
    (divisors size.toNat).foldl
      (fun best (d : Nat) => if closer d best then (d : Int) else best) size

/-- Distance of `d` from `target` on a logarithmic scale.

Rounding does not touch the order that the shortcut of `nearestDivisorBy` rests on. The quotient of
the target by itself is one and the logarithm of one is zero, both exactly, and no distance is below
zero. The quotient of another divisor of the same size never rounds to one: with common factors taken
out it is `a / b` for numbers whose product divides the size, which is below `2 ^ 63`, so it is more
than `2 ^ (-32)` away from one, and its distance is above zero. -/
def logDistance (target d : Int) : Float :=
  (Float.log (Float.ofInt d / Float.ofInt target)).abs

/-- The divisor of `size` closest to `target` on a logarithmic scale. For a target of zero every
distance is infinite and for a negative target none is comparable, so that the size itself is
returned. -/
def splitSize (size target : Int) : Int :=
  nearestDivisorBy (fun d e => logDistance target d < logDistance target e) size target

end LoopNest
