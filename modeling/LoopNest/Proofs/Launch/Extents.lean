import LoopNest.Proofs.Contraction
import LoopNest.Proofs.Launch.Bounds
import LoopNest.Proofs.Launch.ScratchSafety

/-!
# How long the buffers of a launch have to be

Loops reach as far in a buffer as the sum of their strides, each without its sign and taken once for
every iteration but the first (`reachBy`). Planning cuts and joins loops along whole multiples of
their strides, and it keeps the strides through the caller's buffers where it packs an input; so a
planned nest reaches exactly as far as the loops that it was planned from (`Reshapes.reachBy_eq`).

A launch of a planned contraction is therefore refused for a short buffer exactly if a buffer is
shorter than the given loops reach (`Contraction.contract_tooSmall_iff`).
-/

namespace LoopNest

variable {α : Type}

/-! ## Reach of loops -/

/-- Distance between the first and the last element that loops reach, for strides of either sign. -/
def reachBy (stride : Loop → Int) (loops : List Loop) : Int :=
  (loops.map fun loop => |stride loop| * (loop.size - 1)).sum

/-- Number of elements that loops need in the buffer of an operand stream. -/
def neededLength (loops : List Loop) (operand : Operand) : Int :=
  1 + reachBy (fun loop => loop.strides.get operand) loops

theorem reachBy_cons (stride : Loop → Int) (loop : Loop) (rest : List Loop) :
    reachBy stride (loop :: rest) = |stride loop| * (loop.size - 1) + reachBy stride rest := by
  rw [reachBy, List.map_cons, List.sum_cons, reachBy]

/-- The extent of loops with iterations is one more than their reach. -/
theorem natCast_extentBy {loops : List Loop} (hsize : ∀ loop ∈ loops, 1 ≤ loop.size)
    (stride : Loop → Int) : (Program.extentBy loops stride : Int) = 1 + reachBy stride loops := by
  have hnonneg : 0 ≤ reachBy stride loops := by
    apply List.sum_nonneg
    intro x hx
    obtain ⟨loop, hloop, rfl⟩ := List.mem_map.1 hx
    have hone := hsize loop hloop
    exact Int.mul_nonneg (abs_nonneg _) (by omega)
  have habs : (loops.map fun loop => ((stride loop).natAbs : Int) * (loop.size - 1)) =
      loops.map fun loop => |stride loop| * (loop.size - 1) :=
    List.map_congr_left fun loop _ => by rw [Int.natCast_natAbs]
  rw [Program.extentBy, ← List.sum_eq_foldl, habs, ← reachBy, Int.toNat_of_nonneg (by omega),
    add_comm]

/-- The two parts of a loop reach as far as the loop. -/
theorem reach_of_isSplit {loop outer inner : Loop} (h : IsSplit loop outer inner)
    (operand : Operand) :
    |outer.callerStrides.get operand| * (outer.size - 1) +
        |inner.callerStrides.get operand| * (inner.size - 1) =
      |loop.callerStrides.get operand| * (loop.size - 1) := by
  have hinner := h.inner_pos
  have houter : outer.callerStrides.get operand = loop.callerStrides.get operand * inner.size := by
    rw [Loop.callerStrides_of_isUnpacked h.outer_unpacked,
      Loop.callerStrides_of_isUnpacked h.unpacked, h.outer_strides]
    cases operand <;> rfl
  have hsame : inner.callerStrides.get operand = loop.callerStrides.get operand := by
    rw [Loop.callerStrides_of_isUnpacked h.inner_unpacked,
      Loop.callerStrides_of_isUnpacked h.unpacked, h.inner_strides]
  rw [houter, hsame, h.size, abs_mul, abs_of_nonneg (show 0 ≤ inner.size by omega)]
  ring

/-- Every change that planning makes keeps the reach in the buffers of the caller. -/
theorem Reshapes.reachBy_eq {a b : List Loop} (h : Reshapes a b) (operand : Operand) :
    reachBy (fun loop => loop.callerStrides.get operand) b =
      reachBy (fun loop => loop.callerStrides.get operand) a := by
  induction h with
  | perm h => exact ((h.map _).sum_eq).symm
  | trans _ _ ih ih' => exact ih'.trans ih
  | cons loop _ ih => rw [reachBy_cons, reachBy_cons, ih]
  | drop rest hsize => rw [reachBy_cons, hsize, sub_self, mul_zero, zero_add]
  | add axis rest =>
      rw [reachBy_cons, show (placeholder axis).size = 1 from rfl, sub_self, mul_zero, zero_add]
  | split rest hs => rw [reachBy_cons, reachBy_cons, reachBy_cons, ← add_assoc, reach_of_isSplit hs]
  | join rest hs => rw [reachBy_cons, reachBy_cons, reachBy_cons, ← add_assoc, reach_of_isSplit hs]
  | retag loop mode rest => rw [reachBy_cons, reachBy_cons, callerStrides_retag]
  | repack stride rest hsource hstride =>
      rw [reachBy_cons, reachBy_cons, size_repack, callerStrides_repack stride hsource hstride]

/-- A planned nest reaches as far in the buffers of the caller as the loops it was planned from. -/
theorem plan_reachBy {settings : Settings} {kernel : KernelTag} {element : ElementType}
    {loops : List Loop} {nest : Nest} (hunpacked : ∀ loop ∈ loops, loop.IsUnpacked)
    (h : Nest.plan settings kernel element loops = .ok nest) (operand : Operand) :
    1 + reachBy (fun loop => loop.callerStrides.get operand) nest.loops =
      neededLength loops operand := by
  rw [(plan_reshapes hunpacked h).reachBy_eq operand, neededLength, reachBy, reachBy]
  refine congrArg (fun xs : List Int => 1 + xs.sum) (List.map_congr_left fun loop hloop => ?_)
  rw [Loop.callerStrides_of_isUnpacked (hunpacked loop hloop)]

/-! ## Checking the buffers -/

/-- A buffer that was given is shorter than loops need. -/
def Buffers.IsShort (buffers : Buffers α) (loops : List Loop) (operand : Operand) : Prop :=
  ∃ buffer, buffers.get operand = some buffer ∧ (buffer.size : Int) < neededLength loops operand

namespace Contraction

variable (contraction : Contraction α) (program : Program) (buffers : Buffers α)

/-- What the check of the buffers of a launch can find. -/
inductive Fitting : Except Error Unit → Prop where
  | mistyped (h : buffers.element ≠ contraction.types.out) :
      Fitting (.error (.elementTypeMismatch contraction.types.out buffers.element))
  | short {operand : Operand} {buffer : Buffer α} (hgiven : buffers.get operand = some buffer)
      (h : buffer.size < program.extents.get operand) :
      Fitting (.error (.bufferTooSmall operand (program.extents.get operand) buffer.size))
  | missing {kernel : KernelTag} (hnone : buffers.outAux = none)
      (hlong : ∀ operand buffer, buffers.get operand = some buffer →
        program.extents.get operand ≤ buffer.size) :
      Fitting (.error (.missingAuxiliary kernel))
  | fits (hlong : ∀ operand buffer, buffers.get operand = some buffer →
        program.extents.get operand ≤ buffer.size) : Fitting (.ok ())

theorem checkLength_cases (operand : Operand) (required actual : Nat) :
    actual < required ∧
        checkLength operand required actual = .error (.bufferTooSmall operand required actual) ∨
      required ≤ actual ∧ checkLength operand required actual = .ok () := by
  unfold checkLength
  split
  · rename_i hshort
    exact .inl ⟨hshort, rfl⟩
  · rename_i hlong
    exact .inr ⟨not_lt.1 hlong, rfl⟩

/-- The buffers are checked one after the other, the auxiliary one last. -/
theorem fitting : contraction.Fitting program buffers (contraction.checkFit program buffers) := by
  unfold checkFit
  by_cases helement : buffers.element = contraction.types.out
  swap
  · rw [if_pos helement]
    exact .mistyped helement
  rw [if_neg (not_not.2 helement)]
  rcases checkLength_cases .left program.extents.left buffers.left.size with
    ⟨hshort, hcheck⟩ | ⟨hleft, hcheck⟩
  · rw [hcheck]
    exact .short (show buffers.get .left = _ from rfl) hshort
  rw [hcheck]
  rcases checkLength_cases .right program.extents.right buffers.right.size with
    ⟨hshort, hcheck⟩ | ⟨hright, hcheck⟩
  · rw [hcheck]
    exact .short (show buffers.get .right = _ from rfl) hshort
  rw [hcheck]
  rcases checkLength_cases .out program.extents.out buffers.out.size with
    ⟨hshort, hcheck⟩ | ⟨hout, hcheck⟩
  · rw [hcheck]
    exact .short (show buffers.get .out = _ from rfl) hshort
  rw [hcheck]
  -- all buffers but the auxiliary one are long enough
  have hlong : (∀ aux, buffers.outAux = some aux → program.extents.outAux ≤ aux.size) →
      ∀ operand buffer, buffers.get operand = some buffer →
        program.extents.get operand ≤ buffer.size := by
    intro haux operand buffer hgiven
    cases operand with
    | left => exact Option.some.inj hgiven ▸ hleft
    | right => exact Option.some.inj hgiven ▸ hright
    | outAux => exact haux buffer hgiven
    | out => exact Option.some.inj hgiven ▸ hout
  show contraction.Fitting program buffers (contraction.checkAux program buffers.outAux)
  cases haux : buffers.outAux with
  | none =>
      have hlong := hlong (by simp [haux])
      unfold checkAux
      cases contraction.tags.readsAux with
      | none => exact .fits hlong
      | some kernel => exact .missing haux hlong
  | some aux =>
      rw [checkAux]
      rcases checkLength_cases .outAux program.extents.outAux aux.size with
        ⟨hshort, hcheck⟩ | ⟨henough, hcheck⟩
      · rw [hcheck]
        exact .short haux hshort
      · rw [hcheck]
        exact .fits (hlong fun given hgiven => Option.some.inj (haux.symm.trans hgiven) ▸ henough)

variable {contraction program buffers}

namespace Fitting

variable {result : Except Error Unit}

theorem exists_short {operand : Operand} {required actual : Nat}
    (h : contraction.Fitting program buffers (.error (.bufferTooSmall operand required actual))) :
    ∃ buffer, buffers.get operand = some buffer ∧ buffer.size < program.extents.get operand ∧
      required = program.extents.get operand ∧ actual = buffer.size := by
  cases h with
  | short hgiven hless => exact ⟨_, hgiven, hless, rfl, rfl⟩

/-- Among buffers of the right element type a short one is noticed. -/
theorem tooSmall_of_short (h : contraction.Fitting program buffers result)
    (helement : buffers.element = contraction.types.out) {operand : Operand} {buffer : Buffer α}
    (hgiven : buffers.get operand = some buffer)
    (hless : buffer.size < program.extents.get operand) :
    ∃ short required actual, result = .error (.bufferTooSmall short required actual) := by
  cases h with
  | mistyped hne => exact absurd helement hne
  | short => exact ⟨_, _, _, rfl⟩
  | missing _ hlong => exact absurd (hlong operand buffer hgiven) (not_le.2 hless)
  | fits hlong => exact absurd (hlong operand buffer hgiven) (not_le.2 hless)

/-- Buffers for all operands that are long enough and have the right element type fit. -/
theorem ok_of_long (h : contraction.Fitting program buffers result)
    (helement : buffers.element = contraction.types.out) (haux : buffers.outAux.isSome = true)
    (hlong : ∀ operand buffer, buffers.get operand = some buffer →
      program.extents.get operand ≤ buffer.size) : result = .ok () := by
  cases h with
  | mistyped hne => exact absurd helement hne
  | short hgiven hless => exact absurd (hlong _ _ hgiven) (not_le.2 hless)
  | missing hnone =>
      rw [hnone] at haux
      cases haux
  | fits => rfl

end Fitting

/-! ## Launches of planned contractions -/

/-- The program of a planned nest reaches as far in each buffer as the loops it was planned from. -/
theorem IsReady.natCast_extents (hready : contraction.IsReady program) {settings : Settings}
    {kernel : KernelTag} {element : ElementType} {loops : List Loop} {nest : Nest}
    (hunpacked : ∀ loop ∈ loops, loop.IsUnpacked)
    (hplan : Nest.plan settings kernel element loops = .ok nest)
    (hloops : contraction.loops = nest.loops) (operand : Operand) :
    (program.extents.get operand : Int) = neededLength loops operand := by
  rw [hready.built.get_extents, natCast_extentBy hready.built.sizes, hready.loops, hloops]
  exact plan_reachBy hunpacked hplan operand

variable [Scalar α]

/-- A launch is refused for what the check of its buffers finds, and else only for a lack of
memory. -/
theorem IsReady.refusal (hready : contraction.IsReady program)
    (hprogram : contraction.program = some program) (hhands : contraction.HandsOut)
    (buffers : Buffers α) :
    (∀ e, contraction.checkFit program buffers = .error e →
      (contraction.contract buffers).2 = .error e) ∧
    ∀ e, (contraction.contract buffers).2 = .error e →
      contraction.checkFit program buffers = .error e ∨
        ∃ threads slices required shortest, e = .threadMemory threads slices required shortest := by
  obtain ⟨bytes, hbytes, -⟩ := hready.scratch
  obtain ⟨lengths, hlengths⟩ := ScratchManager.exists_handedOut (hhands program hprogram)
  have hrefused : ∀ e, (contraction.contract buffers).2 = .error e ↔ _ := fun e =>
    (contract_eq_error_iff hhands).trans (checkBuffers_eq_error_iff hprogram hbytes)
  refine ⟨fun e hfit => (hrefused e).2 (.inl hfit), fun e herror => ?_⟩
  rcases (hrefused e).1 herror with hfit | ⟨-, hcheck⟩
  · exact .inl hfit
  · obtain ⟨slices, shortest, rfl⟩ := ScratchManager.check_eq_error hlengths hcheck
    exact .inr ⟨_, _, _, _, rfl⟩

/-- A compiled contraction refuses buffers of its element type for their length exactly if one of
them is shorter than the loops need that the contraction was planned from. The refusal names such a
buffer, the length that is needed and the one that it has. Buffers that are all long enough, the
auxiliary one included, are contracted unless memory is lacking. -/
theorem contract_tooSmall_iff {loops : List Loop} {element : ElementType} {tags : KernelTags}
    {settings : Settings} {provider : Provider} {pools : PoolBuilder}
    (hunpacked : ∀ loop ∈ loops, loop.IsUnpacked)
    (hplanned : planned loops element tags settings provider pools = .ok contraction)
    (requests : List (Request α))
    (hcompiled : (requests.foldl serve contraction).isCompiled = true)
    (helement : buffers.element = element) :
    ((∃ operand required actual, ((requests.foldl serve contraction).contract buffers).2 =
        .error (.bufferTooSmall operand required actual)) ↔
      ∃ operand, buffers.IsShort loops operand) ∧
    (∀ operand required actual, ((requests.foldl serve contraction).contract buffers).2 =
        .error (.bufferTooSmall operand required actual) →
      buffers.IsShort loops operand ∧ (required : Int) = neededLength loops operand ∧
        (buffers.get operand).map Array.size = some actual) ∧
    ((∀ operand, ¬buffers.IsShort loops operand) → buffers.outAux.isSome = true →
      (∀ threads slices required shortest,
        ((requests.foldl serve contraction).contract buffers).2 ≠
          .error (.threadMemory threads slices required shortest)) →
      ∃ outcome, ((requests.foldl serve contraction).contract buffers).2 = .ok outcome) := by
  obtain ⟨nest, hplan, hloops, -, -, hnew, -, htype⟩ := planned_eq_ok hplanned
  obtain ⟨hready, hsame⟩ := isReady_foldl_serve (isReady_of_new hnew) requests
  have hhands := handsOut_foldl_serve hnew requests
  rw [← hsame.loops] at hloops
  rw [← hsame.types] at htype
  generalize requests.foldl serve contraction = current at *
  obtain ⟨program, hprogram⟩ := Option.isSome_iff_exists.1 hcompiled
  have hready := hready program hprogram
  have hextents := hready.natCast_extents hunpacked hplan hloops
  have hfitting := current.fitting program buffers
  obtain ⟨hrefused, hrefusal⟩ := hready.refusal hprogram hhands buffers
  have hnamed : ∀ operand required actual,
      (current.contract buffers).2 = .error (.bufferTooSmall operand required actual) →
        buffers.IsShort loops operand ∧ (required : Int) = neededLength loops operand ∧
          (buffers.get operand).map Array.size = some actual := by
    intro operand required actual herror
    obtain hfit | ⟨_, _, _, _, ⟨⟩⟩ := hrefusal _ herror
    rw [hfit] at hfitting
    obtain ⟨buffer, hgiven, hless, rfl, rfl⟩ := hfitting.exists_short
    exact ⟨⟨buffer, hgiven, hextents operand ▸ Int.ofNat_lt.2 hless⟩, hextents operand,
      by rw [hgiven]; rfl⟩
  refine ⟨⟨?_, ?_⟩, hnamed, ?_⟩
  · rintro ⟨operand, required, actual, herror⟩
    exact ⟨operand, (hnamed operand required actual herror).1⟩
  · rintro ⟨operand, buffer, hgiven, hshort⟩
    rw [← hextents, Int.ofNat_lt] at hshort
    obtain ⟨_, _, _, hfit⟩ :=
      hfitting.tooSmall_of_short (helement.trans htype.symm) hgiven hshort
    exact ⟨_, _, _, hrefused _ hfit⟩
  · intro hlong haux hmemory
    cases hresult : (current.contract buffers).2 with
    | ok outcome => exact ⟨outcome, rfl⟩
    | error e =>
        obtain hfit | ⟨_, _, _, _, rfl⟩ := hrefusal e hresult
        · have hfits := hfitting.ok_of_long (helement.trans htype.symm) haux
            fun operand buffer hgiven => by
              have henough := hlong operand
              contrapose! henough
              exact ⟨buffer, hgiven, hextents operand ▸ Int.ofNat_lt.2 henough⟩
          cases hfit.symm.trans hfits
        · exact absurd hresult (hmemory _ _ _ _)

/-- The left matrix of `transposedProduct` takes up 16 elements, although the loops planned for it
have other strides: 15 elements are refused and 16 are not. -/
theorem contract_tooSmall_iff_transposedProduct :
    (∃ operand required actual, (([.compile].foldl serve transposedContraction).contract
      { transposedBuffers with left := .replicate 15 0 }).2 =
        .error (.bufferTooSmall operand required actual)) ∧
    ¬∃ operand required actual, (([.compile].foldl serve transposedContraction).contract
      transposedBuffers).2 = .error (.bufferTooSmall operand required actual) := by
  have hunpacked : ∀ loop ∈ transposedProduct, loop.IsUnpacked := by
    unfold Loop.IsUnpacked
    decide
  have hcompiled : ([.compile].foldl serve transposedContraction).isCompiled = true := by
    decide +kernel
  obtain ⟨hshort, -⟩ := contract_tooSmall_iff hunpacked planned_transposedProduct [.compile]
    hcompiled (show { transposedBuffers with left := .replicate 15 0 }.element = .fp32 from rfl)
  obtain ⟨hlong, -⟩ := contract_tooSmall_iff hunpacked planned_transposedProduct [.compile]
    hcompiled (show transposedBuffers.element = .fp32 from rfl)
  refine ⟨hshort.2 ⟨.left, _, rfl, by decide +kernel⟩, fun hrefused => ?_⟩
  obtain ⟨operand, buffer, hgiven, hless⟩ := hlong.1 hrefused
  cases operand with
  | left =>
      obtain rfl := Option.some.inj hgiven
      revert hless
      decide +kernel
  | right =>
      obtain rfl := Option.some.inj hgiven
      revert hless
      decide +kernel
  | outAux => cases hgiven
  | out =>
      obtain rfl := Option.some.inj hgiven
      revert hless
      decide +kernel

end Contraction

end LoopNest
