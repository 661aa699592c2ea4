import LoopNest.Proofs.Launch.Schedule

/-!
# Routes

Where a visit lies depends on the strides that it is measured by. The strides of the loops lead
through the packing buffers, `Loop.callerStrides` through the buffers of the caller, and
`Loop.blockStrides` to the blocks that are packed. A `Route` is a visit that leaves the strides open,
so that a thread can be followed through all of these at once.

`Program.threadRoutes` are the routes of a thread. With strides put in, they are its schedule
(`Program.map_visit_threadRoutes`).
-/

namespace LoopNest

namespace Loop

/-- The strides of a loop from block to block: the packed loops stay in a block. -/
def blockStrides (loop : Loop) : Operands Int :=
  { loop.strides with
    left := if loop.isPacked .left then 0 else loop.strides.left
    right := if loop.isPacked .right then 0 else loop.strides.right }

theorem strides_input (loop : Loop) (side : Side) : loop.strides.input side = loop.stride side := by
  cases side <;> rfl

theorem callerStrides_input (loop : Loop) (side : Side) :
    loop.callerStrides.input side = loop.bufferStride side := by
  cases side <;> rfl

theorem blockStrides_input (loop : Loop) (side : Side) :
    loop.blockStrides.input side = if loop.isPacked side then 0 else loop.stride side := by
  cases side <;> rfl

end Loop

/-- A visit for any strides of the loops. -/
structure Route where
  offset : (Loop → Operands Int) → Operands Int
  first : Bool
  last : Bool

namespace Route

@[ext] theorem ext {r s : Route} (hoffset : ∀ stride, r.offset stride = s.offset stride)
    (hfirst : r.first = s.first) (hlast : r.last = s.last) : r = s := by
  obtain ⟨offset, first, last⟩ := r
  obtain rfl : offset = s.offset := funext hoffset
  cases s
  simp_all

/-- The visit by some strides. -/
def visit (stride : Loop → Operands Int) (r : Route) : Visit := ⟨r.offset stride, r.first, r.last⟩

/-- The only route without loops. -/
def single : Route := ⟨fun _ => 0, true, true⟩

/-- A route of an outer level joined with one of an inner level. -/
def join (r s : Route) : Route :=
  ⟨fun stride => r.offset stride + s.offset stride, r.first && s.first, r.last && s.last⟩

/-- A route seen from another start. -/
def shift (offset : Operands Int) (r : Route) : Route :=
  { r with offset := fun stride => offset + r.offset stride }

theorem join_assoc (r s t : Route) : (r.join s).join t = r.join (s.join t) := by
  ext1 <;> simp [join, add_assoc, Bool.and_assoc]

theorem join_single (r : Route) : r.join single = r := by
  ext1 <;> simp [join, single]

/-- Address of the block of an input. -/
def block (r : Route) (side : Side) : Int := (r.offset Loop.blockStrides).input side

/-- Where an input lies within its block, in the caller's buffer and in the packing buffer. -/
def within (r : Route) (side : Side) : Int × Int :=
  ((r.offset Loop.callerStrides).input side - r.block side,
    (r.offset Loop.strides).input side - r.block side)

theorem block_join (r s : Route) (side : Side) :
    (r.join s).block side = r.block side + s.block side := Operands.input_add _ _ _

theorem within_join (r s : Route) (side : Side) :
    (r.join s).within side = r.within side + s.within side := by
  rw [within, block_join, join, Operands.input_add, Operands.input_add]
  exact Prod.ext (add_sub_add_comm _ _ _ _) (add_sub_add_comm _ _ _ _)

end Route

/-- The route of a step that moves by its offset, whatever the strides. -/
def Step.route (step : Step) : Route := ⟨fun _ => step.offset, step.first, step.last⟩

/-- The routes of a sequential loop. -/
def loopRoutes (loop : Loop) : List Route :=
  let isReduction : Bool := loop.axis = .k
  (upTo loop.size).map fun i =>
    ⟨fun stride => (stride loop).scale i, !isReduction || i = 0, !isReduction || i = loop.size - 1⟩

namespace Program

variable (program : Program) (share : Share)

/-- The routes of a level. -/
def levelRoutes (level : Level) : List Route :=
  match level.kind with
  | .sequential => loopRoutes (program.layout.loops.getD level.start .unit)
  | .flat => (program.flatSteps share.omp).map Step.route
  | .curve => (program.curveSteps share).map Step.route

/-- The routes of nested levels. -/
def routes : List Level → List Route
  | [] => [.single]
  | level :: inner => (program.levelRoutes share level).flatMap fun r => (routes inner).map r.join

/-- The routes of a thread. -/
def threadRoutes : List Route :=
  (program.routes share program.layout.levels).map (Route.shift (program.taskOffset share.origin))

variable {program share}

theorem map_visit_levelRoutes (stride : Loop → Operands Int) (level : Level) :
    (program.levelRoutes share level).map (Route.visit stride) =
      (program.phaseBy stride share level).steps.map Step.visit := by
  unfold levelRoutes phaseBy
  cases level.kind with
  | sequential =>
      simp only [loopRoutes, sequentialSteps, List.map_map]
      rfl
  | flat => rw [List.map_map]; rfl
  | curve => rw [List.map_map]; rfl

theorem map_visit_routes (stride : Loop → Operands Int) (levels : List Level) :
    (program.routes share levels).map (Route.visit stride) =
      visits (levels.map (program.phaseBy stride share)) := by
  induction levels with
  | nil => rfl
  | cons level inner ih =>
      rw [routes, List.map_cons, visits, nest, ← ih, ← map_visit_levelRoutes, List.map_flatMap,
        List.flatMap_map]
      refine List.flatMap_congr fun r _ => ?_
      rw [List.map_map, List.map_map]
      rfl

/-- With strides put in, the routes of a thread are its schedule. -/
theorem map_visit_threadRoutes (hbuilt : program.IsBuilt) {work : Work}
    (hdoes : program.Does share work) (stride : Loop → Operands Int)
    {before omp sfc after kernel : List Loop}
    (hcut : Layout.Cut program.layout.loops before omp sfc after kernel) :
    (program.threadRoutes share).map (Route.visit stride) =
      program.threadVisits stride before after share := by
  rw [← visits_phasesBy hbuilt hdoes stride hcut, hdoes.offset, ← map_visit_routes, threadRoutes,
    List.map_map, List.map_map]
  rfl

/-- Strides that do not differ in a component lead to the same place in it. -/
theorem map_offset_of_mem_routes (f : Operands Int →+ Int) {stride stride' : Loop → Operands Int}
    (hstride : ∀ loop, f (stride loop) = f (stride' loop)) {levels : List Level} {r : Route}
    (hr : r ∈ program.routes share levels) : f (r.offset stride) = f (r.offset stride') := by
  induction levels generalizing r with
  | nil =>
      obtain rfl := List.mem_singleton.1 hr
      rfl
  | cons level inner ih =>
      obtain ⟨s, hs, hr⟩ := List.mem_flatMap.1 hr
      obtain ⟨t, ht, rfl⟩ := List.mem_map.1 hr
      rw [Route.join, map_add, map_add, ih ht]
      refine congrArg (· + _) ?_
      unfold levelRoutes at hs
      split at hs
      · obtain ⟨i, -, rfl⟩ := List.mem_map.1 hs
        dsimp only
        rw [← Operands.zsmul_eq_scale, ← Operands.zsmul_eq_scale, map_zsmul, map_zsmul, hstride]
      all_goals
        obtain ⟨step, -, rfl⟩ := List.mem_map.1 hs
        rfl

theorem map_offset_of_mem_threadRoutes (f : Operands Int →+ Int)
    (stride stride' : Loop → Operands Int) (hstride : ∀ loop, f (stride loop) = f (stride' loop))
    {r : Route} (hr : r ∈ program.threadRoutes share) :
    f (r.offset stride) = f (r.offset stride') := by
  obtain ⟨s, hs, rfl⟩ := List.mem_map.1 hr
  rw [Route.shift, map_add, map_add, map_offset_of_mem_routes f hstride hs]

end Program

end LoopNest
