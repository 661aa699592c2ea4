import LoopNest.Proofs.Kernel.Accesses
import LoopNest.Proofs.Launch.Updates

/-!
# What the calls of a launch access

`Program.accesses` lists the elements of the caller's buffers that a call reads or writes. A packing
copy reads an input, a touch kernel reads the auxiliary tensor and writes the output, and the main
kernel reads the inputs that are not packed and writes the output. Calls depend on no other element
(`Program.callUpdates_congr`, `Program.pack_congr`) and change no other element
(`Program.address_mem_accesses`).

The kernels of a program access what the kernel loops reach in the caller's buffers
(`KernelTags.follows_of_make`), whatever provider made them.
-/

namespace LoopNest

variable {α : Type}

/-- An element of one of the caller's buffers. -/
structure Access where
  operand : Operand
  address : Int
  deriving DecidableEq

/-- The operand stream of an input. -/
def Side.operand : Side → Operand
  | .left => .left
  | .right => .right

namespace Program

variable (program : Program)

/-- The elements of the caller's buffer that the main kernel reads of an input at a place. -/
def inputAccesses (side : Side) (place : Place) : List Access :=
  match place.source with
  | .buffer => (program.kernels.main.reads side).map fun a => ⟨side.operand, place.address + a⟩
  | .scratch => []

/-- The elements of the caller's buffers that a call reads or writes. -/
def accesses : Call → List Access
  | .pack side source _ =>
      match program.region side with
      | some region => region.copy.moves.map fun move => ⟨side.operand, source + move.1⟩
      | none => []
  | .touch which outAux out =>
      match program.touchKernel which with
      | some kernel =>
          (kernel.reads.map fun a => ⟨.outAux, outAux + a⟩) ++
            kernel.writes.map fun a => ⟨.out, out + a⟩
      | none => []
  | .main left right out =>
      program.inputAccesses .left left ++ program.inputAccesses .right right ++
        program.kernels.main.writes.map fun a => ⟨.out, out + a⟩

variable {program}

theorem mem_inputAccesses {side : Side} {place : Place} {access : Access} :
    access ∈ program.inputAccesses side place ↔ place.source = .buffer ∧
      ∃ a ∈ program.kernels.main.reads side, ⟨side.operand, place.address + a⟩ = access := by
  obtain ⟨source, address⟩ := place
  cases source with
  | buffer => simp [inputAccesses]
  | scratch => simp [inputAccesses]

theorem mem_accesses_pack {side : Side} {source target : Int} {access : Access} :
    access ∈ program.accesses (.pack side source target) ↔
      ∃ region, program.region side = some region ∧
        ∃ move ∈ region.copy.moves, ⟨side.operand, source + move.1⟩ = access := by
  show access ∈ (match program.region side with | some region => _ | none => _) ↔ _
  cases program.region side with
  | none => simp
  | some region => simp

theorem mem_accesses_touch {which : Touch} {outAux out : Int} {access : Access} :
    access ∈ program.accesses (.touch which outAux out) ↔
      ∃ kernel, program.touchKernel which = some kernel ∧
        ((∃ a ∈ kernel.reads, ⟨.outAux, outAux + a⟩ = access) ∨
          ∃ a ∈ kernel.writes, ⟨.out, out + a⟩ = access) := by
  show access ∈ (match program.touchKernel which with | some kernel => _ | none => _) ↔ _
  cases program.touchKernel which with
  | none => simp
  | some kernel => simp

theorem mem_accesses_main {left right : Place} {out : Int} {access : Access} :
    access ∈ program.accesses (.main left right out) ↔
      (access ∈ program.inputAccesses .left left ∨ access ∈ program.inputAccesses .right right) ∨
        ∃ a ∈ program.kernels.main.writes, ⟨.out, out + a⟩ = access := by
  rw [accesses, List.mem_append, List.mem_append, List.mem_map]

theorem made_of_touchKernel {which : Touch} {touch : TouchKernel}
    (h : program.touchKernel which = some touch) :
    program.kernels.first = some touch ∨ program.kernels.last = some touch := by
  cases which with
  | first => exact .inl h
  | last => exact .inr h

theorem callUpdates_touch [Scalar α] (inputs : Inputs α) (scratch : Buffer α) (which : Touch)
    (outAux out : Int) :
    program.callUpdates inputs scratch (.touch which outAux out) =
      (program.touchKernel which).elim [] fun kernel =>
        (kernel.updates (auxView inputs outAux)).map fun u => u.shift out := by
  show (match program.touchKernel which with | some kernel => _ | none => _) = _
  cases program.touchKernel which <;> rfl

end Program

/-! ## Calls depend on what they access -/

/-- The element of an access, if the buffer that is read has it. -/
def Inputs.read? (inputs : Inputs α) (access : Access) : Option α :=
  match access.operand with
  | .left => Buffer.read? inputs.left access.address
  | .right => Buffer.read? inputs.right access.address
  | .outAux => inputs.outAux.bind fun aux => Buffer.read? aux access.address
  | .out => none

namespace Program

variable {program : Program} {inputs inputs' : Inputs α} {call : Call}

theorem read?_input (inputs : Inputs α) (side : Side) (address : Int) :
    inputs.read? ⟨side.operand, address⟩ = Buffer.read? (inputs.buffer side) address := by
  cases side <;> rfl

variable [Scalar α]

/-- The copy of a block depends on no element that it does not access. -/
theorem pack_congr {side : Side} {source target : Int}
    (h : ∀ access ∈ program.accesses (.pack side source target),
      inputs.read? access = inputs'.read? access) (scratch : Buffer α) :
    program.pack inputs side source target scratch =
      program.pack inputs' side source target scratch := by
  cases hregion : program.region side with
  | none => rw [pack, pack, hregion]
  | some region =>
      rw [pack_eq_fill hregion, pack_eq_fill hregion]
      apply List.foldl_ext
      intro scratch move hmove
      have hread := h _ (mem_accesses_pack.2 ⟨region, hregion, move, hmove, rfl⟩)
      rw [read?_input, read?_input] at hread
      dsimp only
      rw [Buffer.readD, Buffer.readD, hread]

theorem auxView_eq_read? (inputs : Inputs α) (address i : Int) :
    auxView inputs address i = (inputs.read? ⟨.outAux, address + i⟩).getD Scalar.zero := by
  unfold auxView Inputs.read?
  cases inputs.outAux with
  | none => rfl
  | some aux => rfl

/-- The main kernel finds the same elements in buffers that agree on what it accesses. -/
theorem view_congr {side : Side} {place : Place}
    (h : ∀ access ∈ program.inputAccesses side place, inputs.read? access = inputs'.read? access)
    (scratch : Buffer α) {a : Int} (ha : a ∈ program.kernels.main.reads side) :
    view inputs side scratch place a = view inputs' side scratch place a := by
  obtain ⟨source, address⟩ := place
  cases source with
  | scratch => rfl
  | buffer =>
      have hread := h _ (mem_inputAccesses.2 ⟨rfl, a, ha, rfl⟩)
      rw [read?_input, read?_input] at hread
      exact congrArg (Option.getD · Scalar.zero) hread

/-- What a kernel call does depends on no element that it does not access. -/
theorem callUpdates_congr
    (h : ∀ access ∈ program.accesses call, inputs.read? access = inputs'.read? access)
    (scratch : Buffer α) :
    program.callUpdates inputs scratch call = program.callUpdates inputs' scratch call := by
  cases call with
  | pack => rfl
  | touch which outAux out =>
      rw [callUpdates_touch, callUpdates_touch]
      cases hkernel : program.touchKernel which with
      | none => rfl
      | some kernel =>
          refine congrArg (List.map _) (TouchKernel.updates_congr fun a ha => ?_)
          rw [auxView_eq_read?, auxView_eq_read?,
            h _ (mem_accesses_touch.2 ⟨kernel, hkernel, .inl ⟨a, ha, rfl⟩⟩)]
  | main left right out =>
      -- an input is read from the buffer, where the accesses agree, or from scratch memory
      have hviews : ∀ side, ∀ a ∈ program.kernels.main.reads side,
          view inputs side scratch ((Cursor.mk left right 0 out).input side) a =
            view inputs' side scratch ((Cursor.mk left right 0 out).input side) a := by
        intro side a ha
        cases side with
        | left =>
            exact view_congr (fun access haccess => h access (mem_accesses_main.2
              (.inl (.inl haccess)))) scratch ha
        | right =>
            exact view_congr (fun access haccess => h access (mem_accesses_main.2
              (.inl (.inr haccess)))) scratch ha
      exact congrArg (List.map _) (MainKernel.updates_congr hviews)

/-- A kernel call changes no element of the output that it does not access. -/
theorem address_mem_accesses {scratch : Buffer α} {u : Update α}
    (hu : u ∈ program.callUpdates inputs scratch call) :
    ⟨.out, u.address⟩ ∈ program.accesses call := by
  cases call with
  | pack => exact absurd hu List.not_mem_nil
  | touch which outAux out =>
      rw [callUpdates_touch] at hu
      cases hkernel : program.touchKernel which with
      | none =>
          rw [hkernel] at hu
          exact absurd hu List.not_mem_nil
      | some kernel =>
          rw [hkernel] at hu
          obtain ⟨v, hv, rfl⟩ := List.mem_map.1 hu
          exact mem_accesses_touch.2 ⟨kernel, hkernel,
            .inr ⟨v.address, TouchKernel.address_mem_writes hv, rfl⟩⟩
  | main left right out =>
      obtain ⟨v, hv, rfl⟩ := List.mem_map.1 hu
      exact mem_accesses_main.2 (.inr ⟨v.address, MainKernel.address_mem_writes hv, rfl⟩)

end Program

/-! ## What kernels access -/

/-- What packed loops reach in the caller's buffer of an input is what these loops reach there. -/
theorem exists_offset_input {side : Side} {loops : List Loop} {x : Int × Int}
    (hx : x ∈ offsets (Loop.sideStrides side) loops) :
    ∃ z ∈ offsets Loop.callerStrides loops, z.input side = x.1 := by
  have hfst : AddMonoidHom.fst Int Int x ∈ offsets (fun loop => loop.bufferStride side) loops := by
    have hmem := List.mem_map_of_mem (f := AddMonoidHom.fst Int Int) hx
    rwa [map_offsets] at hmem
  rw [← offsets_congr fun loop _ => loop.callerStrides_input side] at hfst
  change _ ∈ offsets (fun loop => Operands.inputHom side loop.callerStrides) loops at hfst
  rw [← map_offsets, List.mem_map] at hfst
  exact hfst

namespace KernelNest.Fills

variable {nest : KernelNest} {kernel : List Loop} (h : nest.Fills kernel) {shape : KernelShape}
  (hshape : nest.shape shape Loop.strides = shape) (hsizes : ∀ loop ∈ nest.loops, 1 ≤ loop.size)

include h hshape hsizes

/-- An element of the output block lies where an index tuple of the kernel loops leads. -/
theorem exists_touchAddress {plane : Int} (hplane : plane ∈ upTo shape.planes) {p : TilePoint}
    (hp : p ∈ shape.tile) :
    ∃ z ∈ offsets Loop.callerStrides kernel, z.out = shape.touchAddress plane p ∧
      z.outAux = (shape.elementOffset plane p).outAux := by
  rw [← hshape] at hplane hp
  refine ⟨_, h.elementOffset_mem_offsets shape hsizes hplane hp, ?_, ?_⟩
  · rw [KernelShape.touchAddress_eq]
    show (KernelShape.elementOffset (nest.shape shape Loop.strides) plane p).out = _
    rw [hshape]
  · show (KernelShape.elementOffset (nest.shape shape Loop.strides) plane p).outAux = _
    rw [hshape]

/-- A step of the reduction reads an input that is not packed where an index tuple leads. -/
theorem exists_inputAddress {side : Side} (hside : ∀ loop ∈ kernel, loop.isPacked side = false)
    {plane : Int} (hplane : plane ∈ upTo shape.planes) {p : TilePoint} (hp : p ∈ shape.tile)
    {s : ReductionStep} (hs : s ∈ shape.steps) :
    ∃ z ∈ offsets Loop.callerStrides kernel,
      z.input side = shape.inputAddress side p s + plane * shape.stridePlane.input side := by
  rw [← hshape] at hplane hp hs
  have hmem := h.address_mem_offsets shape hsizes side hp hs hplane
  have hsame := fst_eq_snd_of_mem_offsets hside hmem
  obtain ⟨z, hz, heq⟩ := exists_offset_input hmem
  refine ⟨z, hz, (heq.trans hsame).trans ?_⟩
  exact congrArg (fun shape => KernelShape.inputAddress shape side p s +
    plane * shape.stridePlane.input side) hshape

end KernelNest.Fills

/-- Kernels that access what the kernel loops reach in the caller's buffers. -/
structure KernelSet.Follows (kernels : KernelSet) (kernel : List Loop) : Prop where
  reads : ∀ side, (∀ loop ∈ kernel, loop.isPacked side = false) → ∀ a ∈ kernels.main.reads side,
    ∃ z ∈ offsets Loop.callerStrides kernel, z.input side = a
  writes : ∀ a ∈ kernels.main.writes, ∃ z ∈ offsets Loop.callerStrides kernel, z.out = a
  touchReads : ∀ touch, kernels.first = some touch ∨ kernels.last = some touch →
    ∀ a ∈ touch.reads, ∃ z ∈ offsets Loop.callerStrides kernel, z.outAux = a
  touchWrites : ∀ touch, kernels.first = some touch ∨ kernels.last = some touch →
    ∀ a ∈ touch.writes, ∃ z ∈ offsets Loop.callerStrides kernel, z.out = a

theorem TouchKernel.mem_reads {kernel : TouchKernel} {a : Int} (ha : a ∈ kernel.reads) :
    ∃ plane ∈ upTo kernel.shape.planes, ∃ p ∈ kernel.shape.tile,
      kernel.shape.auxAddress plane p = a := by
  have hpoints : a ∈ kernel.shape.planePoints.map fun b => kernel.shape.auxAddress b.1 b.2 := by
    unfold reads at ha
    split at ha
    · exact ha
    · exact ha
    · exact absurd ha List.not_mem_nil
  obtain ⟨b, hb, rfl⟩ := List.mem_map.1 hpoints
  obtain ⟨plane, hplane, hb⟩ := List.mem_flatMap.1 hb
  obtain ⟨p, hp, rfl⟩ := List.mem_map.1 hb
  exact ⟨plane, hplane, p, hp, rfl⟩

theorem TouchKernel.mem_writes {kernel : TouchKernel} {a : Int} (ha : a ∈ kernel.writes) :
    ∃ plane ∈ upTo kernel.shape.planes, ∃ p ∈ kernel.shape.tile,
      kernel.shape.touchAddress plane p = a := by
  have hpoints : a ∈ kernel.shape.planePoints.map fun b => kernel.shape.touchAddress b.1 b.2 := by
    unfold writes at ha
    split at ha
    · exact absurd ha List.not_mem_nil
    · exact ha
  obtain ⟨b, hb, rfl⟩ := List.mem_map.1 hpoints
  obtain ⟨plane, hplane, hb⟩ := List.mem_flatMap.1 hb
  obtain ⟨p, hp, rfl⟩ := List.mem_map.1 hb
  exact ⟨plane, hplane, p, hp, rfl⟩

namespace Provider

variable {provider : Provider} {tag : KernelTag} {shape : KernelShape}

/-- A main kernel computes no other parts than those of its tag. -/
theorem parts_of_mainKernel {main : MainKernel} (h : provider.mainKernel tag shape = .ok main) :
    main.shape = shape ∧ ∀ part ∈ main.method.parts, part ∈ tag.parts := by
  by_cases hprovider : provider = .recording
  · subst hprovider
    obtain rfl := Except.ok.inj h
    exact ⟨rfl, fun part hpart => absurd hpart List.not_mem_nil⟩
  · obtain ⟨hshape, hparts⟩ := mainKernel_eq_ok hprovider h
    exact ⟨hshape, fun part hpart => hparts ▸ hpart⟩

/-- A touch kernel reads the auxiliary tensor only if its tag says so. -/
theorem readsAux_of_touchKernel {kernel : TouchKernel}
    (h : provider.touchKernel tag shape = .ok kernel) :
    kernel.shape = shape ∧ (kernel.reads ≠ [] → tag.readsAux = true) := by
  have hstrided : stridedTouch tag shape = .ok kernel →
      kernel.shape = shape ∧ (kernel.reads ≠ [] → tag.readsAux = true) := by
    intro h
    obtain ⟨⟨⟩, -, h⟩ := bind_eq_ok.1 h
    split at h <;> first
      | (obtain rfl := pure_eq_ok.1 h; exact ⟨rfl, fun hreads => absurd rfl hreads⟩)
      | (obtain rfl := pure_eq_ok.1 h; exact ⟨rfl, fun _ => rfl⟩)
      | exact absurd h (by simp)
  cases provider with
  | strided => exact hstrided h
  | matrix => exact hstrided h
  | recording =>
      obtain rfl := Except.ok.inj h
      exact ⟨rfl, fun hreads => absurd rfl hreads⟩

end Provider

namespace KernelTags

variable {tags : KernelTags} {provider : Provider} {loops : List Loop} {kernels : KernelSet}

theorem touchKernel_of_makeTouch {tag : KernelTag} {shape : KernelShape} {kernel : TouchKernel}
    (h : makeTouch provider shape tag = .ok (some kernel)) :
    provider.touchKernel tag shape = .ok kernel := by
  rcases makeTouch_eq_ok h with ⟨-, hnone⟩ | ⟨made, hmade, hsome⟩
  · cases hnone
  · obtain rfl := Option.some.inj hsome
    exact hmade

/-- The touch kernels that were made are those of two of the tags. -/
theorem touchKernel_of_make (h : tags.make provider loops = .ok kernels) {touch : TouchKernel}
    (htouch : kernels.first = some touch ∨ kernels.last = some touch) :
    ∃ tag ∈ [tags.first, tags.last], provider.touchKernel tag kernels.shape = .ok touch := by
  obtain ⟨-, -, hfirst, hlast⟩ := make_eq_ok h
  rcases htouch with htouch | htouch
  · rw [htouch] at hfirst
    exact ⟨tags.first, by simp, touchKernel_of_makeTouch hfirst⟩
  · rw [htouch] at hlast
    exact ⟨tags.last, by simp, touchKernel_of_makeTouch hlast⟩

/-- Kernels are made for a nest that fills the kernel loops at the end of a list. -/
theorem exists_nest_of_make (hsizes : ∀ loop ∈ loops, 1 ≤ loop.size)
    (h : tags.make provider loops = .ok kernels) :
    ∃ nest : KernelNest, nest.Fills (KernelShape.kernelEnd loops) ∧
      nest.shape kernels.main.shape Loop.strides = kernels.main.shape ∧
      kernels.main.shape = kernels.shape ∧ kernels.shape.AuxFits ∧
      (∀ loop ∈ nest.loops, 1 ≤ loop.size) ∧
      ∀ part ∈ kernels.main.method.parts, part.plane ∈ upTo kernels.main.shape.planes := by
  obtain ⟨hshape, hmain, -, -⟩ := make_eq_ok h
  obtain ⟨nest, hfills, hnest, haux, hplanes⟩ := KernelShape.exists_nest_kernelEnd hshape
  obtain ⟨hsame, hparts⟩ := Provider.parts_of_mainKernel hmain
  rw [hsame]
  refine ⟨nest, hfills, hnest, rfl, haux, ?_, ?_⟩
  · exact hfills.forall_loops (Int.le_refl 1) fun loop hloop =>
      hsizes loop ((KernelShape.kernelEnd_suffix loops).mem hloop)
  · intro part hpart
    -- a complex kernel has a plane for each part, any other kernel a single plane
    have hmem := hparts part hpart
    rw [hplanes]
    unfold KernelTag.parts at hmem
    split at hmem
    · rename_i hcomplex
      rw [if_pos hcomplex]
      rcases List.mem_cons.1 hmem with rfl | hmem
      · decide
      · obtain rfl := List.mem_singleton.1 hmem
        decide
    · rename_i hreal
      rw [if_neg hreal]
      obtain rfl := List.mem_singleton.1 hmem
      decide

/-- The main kernel that is made for a list of loops reads its inputs where the kernel loops at the
end of the list lead. -/
theorem exists_offset_of_mem_reads (hsizes : ∀ loop ∈ loops, 1 ≤ loop.size)
    (h : tags.make provider loops = .ok kernels) {side : Side} {a : Int}
    (ha : a ∈ kernels.main.reads side) :
    ∃ x ∈ offsets (Loop.sideStrides side) (KernelShape.kernelEnd loops), x.2 = a := by
  obtain ⟨nest, hfills, hnest, -, -, hunits, hplane⟩ := exists_nest_of_make hsizes h
  obtain ⟨part, hpart, p, hp, s, hs, rfl⟩ := MainKernel.mem_reads.1 ha
  have hplane := hplane part hpart
  rw [← hnest] at hp hs hplane
  refine ⟨_, hfills.address_mem_offsets kernels.main.shape hunits side hp hs hplane, ?_⟩
  exact congrArg (fun shape => KernelShape.inputAddress shape side p s +
    part.plane * shape.stridePlane.input side) hnest

/-- The kernels that are made for a list of loops access what its kernel loops reach. -/
theorem follows_of_make (hkernel : KernelLast loops) (hsizes : ∀ loop ∈ loops, 1 ≤ loop.size)
    (h : tags.make provider loops = .ok kernels) : kernels.Follows (kernelLoops loops) := by
  have htouch : ∀ {touch}, kernels.first = some touch ∨ kernels.last = some touch →
      ∃ tag ∈ [tags.first, tags.last], provider.touchKernel tag kernels.shape = .ok touch :=
    touchKernel_of_make h
  obtain ⟨nest, hfills, hnest, hsame, haux, hunits, hplane⟩ := exists_nest_of_make hsizes h
  rw [KernelShape.kernelEnd_eq hkernel] at hfills
  rw [← hsame] at htouch haux
  -- the inputs and the output of the main kernel, then what touch kernels read and write
  refine ⟨?_, ?_, ?_, ?_⟩
  · intro side hside a ha
    obtain ⟨part, hpart, p, hp, s, hs, rfl⟩ := MainKernel.mem_reads.1 ha
    exact hfills.exists_inputAddress hnest hunits hside (hplane part hpart) hp hs
  · intro a ha
    obtain ⟨part, hpart, ha⟩ := List.mem_flatMap.1 ha
    obtain ⟨p, hp, rfl⟩ := List.mem_map.1 ha
    obtain ⟨z, hz, hout, -⟩ := hfills.exists_touchAddress hnest hunits (hplane part hpart) hp
    exact ⟨z, hz, hout⟩
  · intro touch hmade a ha
    obtain ⟨tag, -, htag⟩ := htouch hmade
    obtain ⟨hsame, -⟩ := Provider.readsAux_of_touchKernel htag
    obtain ⟨plane, hplane, p, hp, rfl⟩ := TouchKernel.mem_reads ha
    rw [hsame] at hplane hp ⊢
    obtain ⟨z, hz, -, hz'⟩ := hfills.exists_touchAddress hnest hunits hplane hp
    exact ⟨z, hz, hz'.trans (KernelShape.auxAddress_eq haux plane hp).symm⟩
  · intro touch hmade a ha
    obtain ⟨tag, -, htag⟩ := htouch hmade
    obtain ⟨hsame, -⟩ := Provider.readsAux_of_touchKernel htag
    obtain ⟨plane, hplane, p, hp, rfl⟩ := TouchKernel.mem_writes ha
    rw [hsame] at hplane hp ⊢
    obtain ⟨z, hz, hout, -⟩ := hfills.exists_touchAddress hnest hunits hplane hp
    exact ⟨z, hz, hout⟩

end KernelTags

end LoopNest
