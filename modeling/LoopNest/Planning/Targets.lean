import LoopNest.Planning.Candidates

/-!
# Target sizes of the kernel loops

The settings ask for kernel loops of certain sizes. A candidate that is too short for its target
passes the rest of its budget on: K to the batch loop, the batch loop to M, M to N. After that the
output tile is halved until there are enough tiles for all threads.

A kernel that covers all of M or all of N reads no packed block twice; more is then packed at a
time.
-/

namespace LoopNest

/-- Halves the larger of two numbers, the first if they are equal. -/
def halveLarger (m n : Int) : Int × Int := if m < n then (m, n / 2) else (m / 2, n)

/-- Halves the larger of two numbers while `again` says so. -/
def halveWhile (again : Int → Int → Except Error Bool) (m n : Int) : Except Error (Int × Int) :=
  match again m n with
  | .error e => .error e
  | .ok false => .ok (m, n)
  | .ok true =>
      if m < 1 ∧ n < 1 then .ok (m, n)
      else if m < n then halveWhile again m (n / 2)
      else halveWhile again (m / 2) n
termination_by m.toNat + n.toNat
decreasing_by all_goals omega

/-- Products of the sizes of the M loops and of the N loops. -/
def sizesMN (loops : List Loop) : Int × Int := (sizeOfAxis loops .m, sizeOfAxis loops .n)

/-- The budget of a slot after a shorter candidate has taken its part: the target of the slot and
the target of the slot that inherits the rest. -/
def passOn (size target heir : Int) : Except Error (Int × Int) :=
  if size < target then do return (size, heir * (← quotient target size)) else .ok (target, heir)

/-- The targets of the settings before any candidate is known. -/
def initialTargets (settings : Settings) : Slots Int :=
  ⟨1, 1, settings.targetM, settings.targetN, settings.targetK⟩

/-- The targets after budget was passed on. Packed lanes are taken whole. -/
def passOnTargets (sizes targets : Slots Int) : Except Error (Slots Int) := do
  let (k, br) ← passOn sizes.k targets.k targets.br
  let (br, m) ← passOn sizes.br br targets.m
  let (m, n) ← passOn sizes.m m targets.n
  return {
    br := br
    c := if 1 < sizes.c then sizes.c else targets.c
    m := m
    n := min sizes.n n
    k := k }

/-- Target sizes of the kernel loops and of the further packed loops. -/
structure Targets where
  slots : Slots Int
  extraPacking : Int
  deriving DecidableEq

/-- The target sizes for the candidates of a loop list. A batch loop that stands in for a further
packed loop is given the size of one. -/
def targetSizes (settings : Settings) (chosen : Candidates) (loops : List Loop) :
    Except Error Targets := do
  let sizes := chosen.sizes
  let targets ← passOnTargets sizes (initialTargets settings)
  let br :=
    if chosen.batchRequired && targets.br < sizes.br && targets.br < settings.extraPacking then
      settings.extraPacking
    else targets.br
  let (sizeM, sizeN) := sizesMN loops
  let tooFew (m n : Int) : Except Error Bool := do
    return (← quotient (sizeM * sizeN) (m * n)) < settings.resolvedThreads && 1 < m * n
  let (m, n) ← halveWhile tooFew targets.m targets.n
  let noReuse := (← quotient sizeM m) = 1 || (← quotient sizeN n) = 1
  return {
    slots := { targets with br := br, m := m, n := n }
    extraPacking := if noReuse then settings.extraPacking * 2 else settings.extraPacking }

end LoopNest
