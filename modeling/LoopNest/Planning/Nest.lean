import LoopNest.Planning.Blocking
import LoopNest.Planning.Fusion
import LoopNest.Planning.KernelLoops
import LoopNest.Planning.ThreadSplit

/-!
# Planning a loop nest

`Nest.plan` turns a list of loops in any order into a loop nest: sequential loops outermost, then
the loops that threads share, then the kernel loops, together with the main kernel that fits them
and the number of threads in each direction.

Planning normalizes the list, installs the kernel loops, blocks the parallel loops and shares out
the threads. It refuses settings below their least values, loops without iterations, kernels other
than the two plain ones, and a complex dimension that does not fit the kernel.
-/

namespace LoopNest

/-- A planned loop nest. -/
structure Nest where
  /-- The loops, outermost first, ending in the kernel loops. -/
  loops : List Loop
  kernel : KernelTag
  threads : ThreadGrid
  deriving DecidableEq

/-- Plans the contraction given by a list of loops, for the main kernel `Madd` or `CpxMadd` and
outputs of an element type. -/
def Nest.plan (settings : Settings) (kernel : KernelTag) (element : ElementType)
    (loops : List Loop) : Except Error Nest := do
  settings.validate
  checkSizes 0 loops
  let kerneled ← installKernel settings kernel (sortAndFuse (dropUnits loops))
  let blocked ← block settings element (dropUnits kerneled.loops)
  let threads ← splitThreads settings.resolvedThreads blocked.sfcM blocked.sfcN
  return ⟨blocked.loops, kerneled.kernel, threads⟩

end LoopNest
