import LoopNest.Contraction
import LoopNest.Proofs.Launch.TouchCalls
import LoopNest.Proofs.Planning.IterationSpace
import LoopNest.Proofs.Contraction
import LoopNest.Proofs.Planning.Choices
import LoopNest.Proofs.Planning.KernelRun
import LoopNest.Proofs.Launch.PackedReads
import LoopNest.Proofs.Kernel.Accesses
import LoopNest.Proofs.Launch.Bounds
import LoopNest.Proofs.Planning.Alignment
import LoopNest.Proofs.Planning.Appended
import LoopNest.Proofs.Planning.BufferStrides
import LoopNest.Proofs.Planning.KernelStrides
import LoopNest.Proofs.Planning.NormalForm
import LoopNest.Proofs.Planning.PlannedRegions
import LoopNest.Proofs.Launch.ThreadCounts
import LoopNest.Proofs.Refusals
import LoopNest.Proofs.Parallel.MoveReplay
import LoopNest.Proofs.Curve.HilbertSteps
import LoopNest.Proofs.Launch.Dispatch
import LoopNest.Proofs.Planning.Sharing
import LoopNest.Proofs.Launch.KeptSteps
import LoopNest.Proofs.OneSided
import LoopNest.Proofs.Parallel.Arrangement
import LoopNest.Proofs.Launch.Capacity
import LoopNest.Proofs.Packing.ElementCopy
import LoopNest.Proofs.Planning.ParallelSchedule
import LoopNest.Proofs.Launch.ScratchUse
import LoopNest.Proofs.Launch.ScratchSafety
import LoopNest.Proofs.Kernel.LeadingDimensions
import LoopNest.Proofs.Planning.DenseBuffers
import LoopNest.Proofs.Launch.Extents
import LoopNest.Proofs.Launch.Retries
import LoopNest.Proofs.Planning.ComplexLoops
import LoopNest.Proofs.Planning.InputOrder
import LoopNest.Proofs.Kernel.MatrixProducts
import LoopNest.Proofs.NearestDivisor
import LoopNest.Proofs.Reservations
