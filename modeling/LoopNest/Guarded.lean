import LoopNest.Error

/-!
# Operations with a domain

Division, remainder and list access are defined on part of their arguments only. The functions of
this module return the cause `Error.undefined` outside that part, so that a result is never taken
from a division by zero or from an index past the end of a list.

Division truncates toward zero and the remainder has the sign of the dividend.
-/

namespace LoopNest

/-- The quotient, truncated toward zero. -/
def quotient (a b : Int) : Except Error Int :=
  if b = 0 then .error (.undefined .nonzeroDivisor) else .ok (a.tdiv b)

/-- The remainder of the truncated quotient. -/
def remainder (a b : Int) : Except Error Int :=
  if b = 0 then .error (.undefined .nonzeroDivisor) else .ok (a.tmod b)

/-- The entry of a list at an index. -/
def entry {α : Type} (xs : List α) (index : Nat) : Except Error α :=
  match xs[index]? with
  | some x => .ok x
  | none => .error (.undefined .indexInRange)

theorem quotient_eq_ok {a b : Int} (hb : b ≠ 0) : quotient a b = .ok (a.tdiv b) := by
  simp [quotient, hb]

theorem remainder_eq_ok {a b : Int} (hb : b ≠ 0) : remainder a b = .ok (a.tmod b) := by
  simp [remainder, hb]

theorem entry_eq_ok {α : Type} {xs : List α} {index : Nat} (h : index < xs.length) :
    entry xs index = .ok xs[index] := by
  simp [entry, h]

end LoopNest
