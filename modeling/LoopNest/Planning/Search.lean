import LoopNest.Loop

/-!
# Searches in a loop list

Kernel loops are found by their strides or by their weight. A search returns the loop together with
its index in the list, so that the loop can be split later, when further loops may have been
appended.
-/

namespace LoopNest

/-- A loop found in a list. -/
structure Found where
  index : Nat
  loop : Loop
  deriving DecidableEq

/-- Whether something was found and its loop has an axis. -/
def Found.hasAxis (found : Option Found) (axis : Axis) : Bool :=
  match found with
  | some f => f.loop.axis = axis
  | none => false

/-- The size of what was found, 1 if nothing was. -/
def Found.size (found : Option Found) : Int :=
  match found with
  | some f => f.loop.size
  | none => 1

/-- The loops of a list with their indices. -/
def indexed (loops : List Loop) : List Found :=
  loops.zipIdx.map fun (loop, index) => ⟨index, loop⟩

/-- The last loop with a property. -/
def lastWith (loops : List Loop) (p : Loop → Bool) : Option Found :=
  (indexed loops).reverse.find? fun found => p found.loop

/-- Bound below which the weights of a search lie: the largest signed 64-bit number. -/
def weightBound : Int := 9223372036854775807

/-- The first of the lightest loops of an axis, apart from the one with index `exclude`. -/
def lightest (loops : List Loop) (axis : Axis) (exclude : Option Nat) : Option Found :=
  let candidates := (indexed loops).filter fun found =>
    found.loop.axis = axis && some found.index ≠ exclude
  candidates.foldl
    (fun best found =>
      let bound := (best.map fun f => f.loop.weight).getD weightBound
      if found.loop.weight < bound then some found else best)
    none

end LoopNest
