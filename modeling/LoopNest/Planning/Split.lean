import LoopNest.Divisor
import LoopNest.Guarded
import LoopNest.Loop

/-!
# Splitting a loop

A loop of `size` iterations is split into an inner loop with its strides and an outer loop that
moves by a whole inner loop at a time. The sizes of the two multiply to the size of the loop,
because the inner size is one of its divisors.
-/

namespace LoopNest

/-- The two loops that replace one loop. -/
structure LoopPair where
  outer : Loop
  inner : Loop
  deriving DecidableEq

/-- Splits a loop into an inner loop of about `target` iterations with mode `mode` and the outer
loop that goes with it. -/
def Loop.split (loop : Loop) (target : Int) (mode : Mode) : Except Error LoopPair := do
  let size := splitSize loop.size target
  return {
    outer := { loop with size := ← quotient loop.size size, strides := loop.strides.scale size }
    inner := { loop with mode := mode, size := size } }

/-- Splits the loop at an index. The outer loop stays in its place and the inner one is appended. -/
def splitAt (loops : List Loop) (index : Nat) (target : Int) (mode : Mode) :
    Except Error (List Loop) := do
  let pair ← (← entry loops index).split target mode
  return loops.set index pair.outer ++ [pair.inner]

end LoopNest
