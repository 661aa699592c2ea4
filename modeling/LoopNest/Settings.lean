import LoopNest.Error

/-!
# Settings

`Settings` holds the choices of a caller that steer planning: target sizes of the kernel loops, the
cache size that bounds the parallel blocking, the number of threads, and what the kernels support.
The defaults suit a processor with 1 MiB of second-level cache and a kernel that prefers output
tiles of 16 by 64.

A caller may leave the number of threads open. How many workers there are then to run them is no
choice but a fact about where the caller runs, and stands beside the choices as
`Settings.workers`.

`Settings.validate` refuses the first field below one, in the order of `Settings.bounded`.
-/

namespace LoopNest

/-- How kernels support a packed batch loop. -/
inductive PackedSupport where
  /-- No packed batch loop. -/
  | none
  /-- The packed batch loop has stride one in all operands. -/
  | allStrideOne
  /-- The packed batch loop has stride one in the output only. -/
  | outStrideOne
  deriving DecidableEq

/-- The choices that steer planning. -/
structure Settings where
  targetM : Int := 16
  targetN : Int := 64
  targetK : Int := 256
  /-- Second-level cache in bytes. -/
  l2Bytes : Int := 1048576
  /-- Number of threads; 0 stands for one per worker. -/
  threads : Nat := 0
  /-- Number of workers that run the threads of the caller. -/
  workers : Nat := 1
  /-- Whether M and N loops are distributed along a curve. -/
  curves : Bool := true
  /-- Whether the kernels reduce over batches. -/
  batchReduce : Bool := false
  packedSupport : PackedSupport := .allStrideOne
  /-- Size of the extra packing loop of a transposed operand. -/
  extraPacking : Int := 8
  /-- Size of the sequential reduction block in front of the parallel loops. -/
  kBlocking : Int := 64
  /-- Upper bound of the packing slots per thread and operand. -/
  slots : Int := 8
  /-- Operands whose kernel strides are multiples of this are packed. -/
  aliasing : Int := 2048
  deriving DecidableEq

namespace Settings

/-- The fields with a least value of one, in the order in which they are checked. -/
def bounded (settings : Settings) : List (SettingField × Int) :=
  [(.targetM, settings.targetM), (.targetN, settings.targetN), (.targetK, settings.targetK),
    (.extraPacking, settings.extraPacking), (.kBlocking, settings.kBlocking),
    (.slots, settings.slots), (.aliasing, settings.aliasing)]

/-- Refuses the first field with a value below one. -/
def validate (settings : Settings) : Except Error Unit :=
  match settings.bounded.find? fun entry => entry.2 < 1 with
  | some (field, value) => .error (.invalidSetting field value)
  | none => .ok ()

/-- The number of threads, with 0 standing for the number of workers. -/
def resolvedThreads (settings : Settings) : Nat :=
  if settings.threads = 0 then max settings.workers 1 else settings.threads

end Settings

end LoopNest
