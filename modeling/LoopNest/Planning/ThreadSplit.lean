import LoopNest.Divisor
import LoopNest.Guarded
import LoopNest.Parallel.Layout

/-!
# Threads per direction

The threads are shared between the two SFC axes and the flat index. Of all ways to write the number
of threads as a product of two, the one with the best balance is taken: similar numbers of tasks on
both axes, and threads that are evenly filled. Neither axis gets more threads than it has tasks;
threads that are left over go to the flat index.
-/

namespace LoopNest

/-- Number of tasks of the fullest of `threads` threads. -/
def fullestShare (tasks threads : Int) : Except Error Int := quotient (tasks + threads - 1) threads

/-- Balance of `threadsM` times `threadsN` threads on `sizeM` times `sizeN` tasks, at most one. -/
def balance (sizeM sizeN threadsM threadsN : Int) : Except Error Float := do
  let tasksM ← fullestShare sizeM threadsM
  let tasksN ← fullestShare sizeN threadsN
  let averageM := Float.ofInt sizeM / Float.ofInt threadsM
  let averageN := Float.ofInt sizeN / Float.ofInt threadsN
  let similarity := 1.0 - Float.ofInt (tasksM - tasksN).natAbs / Float.ofInt (max sizeM sizeN)
  return similarity * (averageM / Float.ofInt tasksM) * (averageN / Float.ofInt tasksN)

/-- The best number of threads on the axis M, with its balance, after one more divisor of the number
of threads. -/
def improveBalance (threads sizeM sizeN : Int) (best : Int × Float) (threadsM : Nat) :
    Except Error (Int × Float) := do
  let threadsN ← quotient threads threadsM
  let score ← balance sizeM sizeN threadsM threadsN
  return if best.2 < score then (threadsM, score) else best

/-- Distributes threads over the SFC axes with `sizeM` and `sizeN` tasks and the flat index. -/
def splitThreads (threads : Nat) (sizeM sizeN : Int) : Except Error ThreadGrid := do
  let (best, _) ← (divisors threads).foldlM (improveBalance threads sizeM sizeN) (1, 0.0)
  let m := max (min best sizeM) 1
  let n := max (min (← quotient threads best) sizeN) 1
  let omp := max (← quotient threads (m * n)) 1
  return { omp := omp.toNat, m := m.toNat, n := n.toNat }

end LoopNest
