import LoopNest.Ordering
import LoopNest.Planning.Search
import LoopNest.Planning.Split
import LoopNest.Planning.Targets

/-!
# Parallel blocking

Between the sequential loops and the kernel stands a block of loops that threads share. About half
of the second-level cache holds the output tiles of one pass over the block, which bounds the number
of its tasks. N and M loops fill the block first, lightest loops innermost; batch loops take what is
left. A sequential block of K loops stands in front of it.

`moveInner` moves loops of one axis out of a list until their sizes reach a target; the last loop
moved is split if it is longer than what is left of the target.
-/

namespace LoopNest

/-- The loops that stay, and the loops that were moved, heavier loops first. -/
structure Moved where
  rest : List Loop
  moved : List Loop
  deriving DecidableEq

/-- Moves at most `count` loops of an axis in front of those already moved, the lightest first,
while the target is more than one. -/
def moveInner (axis : Axis) (mode : Mode) :
    (count : Nat) → (target : Int) → Moved → Except Error Moved
  | 0, _, state => .ok state
  | count + 1, target, state =>
      if target ≤ 1 then .ok state
      else
        match lightest state.rest axis none with
        | none => .ok state
        | some found =>
            if target < found.loop.size then do
              let pair ← found.loop.split target mode
              let rest :=
                if pair.outer.size = 1 then state.rest.eraseIdx found.index
                else state.rest.set found.index pair.outer
              return ⟨rest, pair.inner :: state.moved⟩
            else do
              let left ← quotient target found.loop.size
              moveInner axis mode count left
                ⟨state.rest.eraseIdx found.index, { found.loop with mode := mode } :: state.moved⟩

/-- Moves loops of an axis out of a list until their sizes reach a target. -/
def takeInner (axis : Axis) (mode : Mode) (target : Int) (loops : List Loop) :
    Except Error Moved :=
  moveInner axis mode loops.length target ⟨loops, []⟩

/-- Product of the sizes of a loop list. -/
def totalSize (loops : List Loop) : Int := (loops.map Loop.size).foldl (· * ·) 1

/-- Whether a loop stays with the kernel: it is a kernel loop or packed. -/
def Loop.staysWithKernel (loop : Loop) : Bool :=
  loop.isPrim || 0 < loop.sourceLeft || 0 < loop.sourceRight

/-- A blocked loop list, and the numbers of SFC tasks on the axes M and N. -/
structure Blocked where
  loops : List Loop
  sfcM : Int
  sfcN : Int
  deriving DecidableEq

/-- Number of output tiles that a thread should work on in one pass over the parallel loops. -/
def tilesPerThread (settings : Settings) (element : ElementType) (kernel : List Loop) :
    Except Error Int := do
  let tile := totalSize (kernel.filter fun loop => loop.axis ≠ .k)
  return max (← quotient (settings.l2Bytes.tdiv 2) (tile * element.bytes)) 1

/-- Assigns the parallel loops and orders the loops around them. -/
def block (settings : Settings) (element : ElementType) (loops : List Loop) :
    Except Error Blocked := do
  let kernel := loops.filter Loop.staysWithKernel
  let free := loops.filter fun loop => !loop.staysWithKernel
  let limit := settings.resolvedThreads * (← tilesPerThread settings element kernel)
  let (sizeM, sizeN) := sizesMN free
  let (targetM, targetN) ← halveWhile (fun m n => .ok (limit < m * n)) sizeM sizeN
  let targetC ← quotient limit (max (targetM * targetN) 1)
  let parallel : Mode := if settings.curves then .sfc else .omp
  let n ← takeInner .n parallel targetN free
  let m ← takeInner .m parallel targetM n.rest
  let k ← takeInner .k .seq settings.kBlocking m.rest
  let c ← takeInner .c .omp targetC k.rest
  let outer := sortBy (fun a b => b.weight ≤ a.weight) c.rest
  return {
    loops := outer ++ k.moved ++ c.moved ++ n.moved ++ m.moved ++ kernel
    sfcM := if settings.curves then totalSize m.moved else 1
    sfcN := if settings.curves then totalSize n.moved else 1 }

end LoopNest
