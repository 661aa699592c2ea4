import LoopNest.Proofs.Contraction
import LoopNest.Proofs.Planning.PlannedRegions
import LoopNest.Proofs.Stages

/-!
# Refusals of planned contractions

Loops do not fit if they have no kernel shape or no packed region (`Error.isMisfit`). Every other
stage of compiling refuses for another cause, so a contraction whose loops have a shape and their
regions is never refused because its loops do not fit (`compile_neverMisfits`).

Planning keeps what compiling asks for. If the kernel loops of a plan for a separated product are
those of its kernel, compiling never finds a misfit (`planned_compile_fits`). The lanes have to be
taken whole: a lane loop that is a further packed loop too is cut twice, and the kernel loops it
leaves have no shape (`cutLanes_compile`).
-/

namespace LoopNest

/-- Whether a contraction is refused because its loops do not fit their kernel or their packing
buffers. -/
def Error.isMisfit : Error → Bool
  | kernelShape _ _ | invalidPacking _ _ _ => true
  | _ => false

/-- A computation that is refused for other causes only. -/
def NeverMisfits {α : Type} (x : Except Error α) : Prop :=
  ∀ e, x = .error e → e.isMisfit = false

theorem RefusedIn.neverMisfits {α : Type} {stages : List Stage} {x : Except Error α}
    (h : RefusedIn stages x) (hshape : .shape ∉ stages) (hregions : .regions ∉ stages) :
    NeverMisfits x := by
  intro e he
  have hstage := h e he
  cases e with
  | kernelShape kernel fault => exact absurd hstage hshape
  | invalidPacking loop side fault => exact absurd hstage hregions
  | _ => rfl

/-! ## Contractions -/

namespace Contraction

variable {α : Type} [Scalar α]

/-- Compiling loops with a kernel shape and packed regions is refused for other causes only. -/
theorem compile_neverMisfits (contraction : Contraction α)
    (hshape : ∃ shape, KernelShape.ofLoops contraction.tags.main contraction.loops = .ok shape)
    (hregions : ∀ side, ∃ region, PackedRegion.ofLoops side contraction.loops = .ok region) :
    NeverMisfits contraction.compile.2 := by
  intro e h
  rcases Contraction.compile_eq_error h with hkernels | ⟨kernels, -, hprogram | ⟨_, _, -, hcheck⟩⟩
  · have hstages : RefusedIn [.kernels] contraction.makeKernels :=
      contraction.makeKernels_refusedIn (.of_exists hshape) (List.Subset.refl _)
    exact hstages.neverMisfits (by decide) (by decide) e hkernels
  · have hstages : RefusedIn [.layout, .shares, .workers, .domain]
        (contraction.clamped.makeProgram kernels) := by
      apply makeProgram_refusedIn
      · apply Program.build_refusedIn
        · intro side
          exact .of_exists (hregions side)
        · decide
        · intro layout _
          exact (layout.setup_refusedIn _).mono (by decide)
      · decide
    exact hstages.neverMisfits (by decide) (by decide) e hprogram
  · exact (ScratchManager.check_refusedIn _ _ _).neverMisfits (by decide) (by decide) e hcheck

/-- The loops that were planned for a separated product have a kernel shape and packed regions, so
that compiling never finds a misfit, if the kernel loops at their end are as many and of the axes
that the kernel takes, and the lanes are taken whole. -/
theorem planned_compile_fits {loops : List Loop} {element : ElementType} {tags : KernelTags}
    {settings : Settings} {provider : Provider} {pools : PoolBuilder} {contraction : Contraction α}
    (hloops : IsSeparated loops) (hmain : tags.main = .madd)
    (hlanes : TakesLanesWhole settings loops)
    (hplanned : planned loops element tags settings provider pools = .ok contraction)
    (hcheck : KernelShape.checkAxes contraction.tags.main
      (KernelShape.trailing contraction.loops) = .ok ()) :
    (∃ shape, KernelShape.ofLoops contraction.tags.main contraction.loops = .ok shape) ∧
      (∀ side, ∃ region, PackedRegion.ofLoops side contraction.loops = .ok region) ∧
      (∀ kernel fault, contraction.compile.2 ≠ .error (.kernelShape kernel fault)) ∧
      ∀ loop side fault, contraction.compile.2 ≠ .error (.invalidPacking loop side fault) := by
  obtain ⟨nest, hplan, heq, htags, -⟩ := planned_eq_ok hplanned
  have htag : contraction.tags.main = nest.kernel := by rw [htags]
  rw [hmain] at hplan
  rw [htag, heq] at hcheck
  have hshape : ∃ shape, KernelShape.ofLoops contraction.tags.main contraction.loops = .ok shape := by
    rw [htag, heq]
    exact plan_exists_shape hloops hlanes hplan hcheck
  have hregions : ∀ side, ∃ region, PackedRegion.ofLoops side contraction.loops = .ok region := by
    rw [heq]
    exact plan_exists_region hloops hlanes hplan hcheck
  have hfits := compile_neverMisfits contraction hshape hregions
  refine ⟨hshape, hregions, ?_, ?_⟩
  · intro kernel fault h
    cases hfits _ h
  · intro loop side fault h
    cases hfits _ h

/-- The plan for a transposed matrix, which packs its left input, compiles. -/
theorem planned_compile_fits_transposedProduct :
    IsSeparated transposedProduct ∧ TakesLanesWhole Settings.single transposedProduct ∧
      planned transposedProduct .fp32 ⟨.zero, .madd, .relu⟩ Settings.single .strided .unlimited =
        .ok transposedContraction ∧
      KernelShape.checkAxes transposedContraction.tags.main
        (KernelShape.trailing transposedContraction.loops) = .ok () ∧
      (∃ shape, KernelShape.ofLoops transposedContraction.tags.main transposedContraction.loops =
        .ok shape) ∧
      (∀ side, ∃ region, PackedRegion.ofLoops side transposedContraction.loops = .ok region) ∧
      (∀ kernel fault, transposedContraction.compile.2 ≠ .error (.kernelShape kernel fault)) ∧
      ∀ loop side fault,
        transposedContraction.compile.2 ≠ .error (.invalidPacking loop side fault) := by
  have hunpacked : ∀ loop ∈ transposedProduct, loop.sourceLeft = 0 ∧ loop.sourceRight = 0 := by
    decide
  have hloops : IsSeparated transposedProduct := by
    refine ⟨by decide, hunpacked, by decide, ?_, by decide⟩
    intro side
    cases side <;> decide +kernel
  have hlanes : TakesLanesWhole Settings.single transposedProduct := by
    apply takesLanesWhole_of_lanesApart (by decide) hloops.isPrim_eq_false
    intro hsupport
    cases hsupport
  have hcheck : KernelShape.checkAxes transposedContraction.tags.main
      (KernelShape.trailing transposedContraction.loops) = .ok () := by decide +kernel
  exact ⟨hloops, hlanes, planned_transposedProduct, hcheck,
    planned_compile_fits hloops rfl hlanes planned_transposedProduct hcheck⟩

end Contraction

/-! ## Lanes that are cut twice -/

/-- Splitting a loop of one iteration leaves it as it is and gives a copy, whatever the target. -/
theorem split_of_size_one {loop : Loop} (hsize : loop.size = 1) (target : Int) (mode : Mode) :
    loop.split target mode = .ok ⟨loop, { loop with mode := mode }⟩ := by
  obtain ⟨axis, old, size, strides, left, right⟩ := loop
  obtain rfl : size = 1 := hsize
  -- one has no other divisor
  obtain ⟨hpos, hdvd⟩ := splitSize_spec target (Int.le_refl 1)
  have hone : splitSize 1 target = 1 := le_antisymm (Int.le_of_dvd Int.one_pos hdvd) hpos
  have hscale : strides.scale 1 = strides := by
    ext <;> simp
  unfold Loop.split
  dsimp only
  rw [hone, hscale]
  rfl

theorem splitAt_of_size_one {loops : List Loop} {index : Nat} {loop : Loop}
    (hindex : loops[index]? = some loop) (hsize : loop.size = 1) (target : Int) (mode : Mode) :
    splitAt loops index target mode = .ok (loops ++ [{ loop with mode := mode }]) := by
  obtain ⟨hlt, hloop⟩ := List.getElem?_eq_some_iff.1 hindex
  have hentry : entry loops index = .ok loop := by rw [entry_eq_ok hlt, hloop]
  apply bind_eq_ok.2
  refine ⟨loop, hentry, bind_eq_ok.2 ⟨_, split_of_size_one hsize target mode, ?_⟩⟩
  dsimp only
  rw [← hloop, List.set_getElem_self]
  rfl

/-- A product over lanes that have stride one in the right input as well as in the output. -/
def cutLanes : List Loop :=
  [⟨.c, .seq, 2, ⟨2, 1, 0, 1⟩, 0, 0⟩, ⟨.m, .seq, 2, ⟨1, 0, 0, 2⟩, 0, 0⟩,
    ⟨.k, .seq, 2, ⟨4, 2, 0, 0⟩, 0, 0⟩]

/-- Settings for kernels whose lanes have stride one in the output only. -/
def Settings.outLanes : Settings :=
  { threads := 1, packedSupport := .outStrideOne, extraPacking := 1 }

/-- The loops chosen from `cutLanes`: the lane loop is the further packed loop of the right input. -/
def cutChoice : Candidates :=
  { slots := ⟨none, some ⟨0, cutLanes[0]⟩, some ⟨1, cutLanes[1]⟩, none, some ⟨2, cutLanes[2]⟩⟩
    packRight := true
    extraRight := some ⟨0, cutLanes[0]⟩ }

/-- The loops of `cutLanes` after the further packed loop was cut off: both iterations of the lane
loop have gone into it. -/
def cutRest : List Loop :=
  [⟨.c, .seq, 1, ⟨4, 2, 0, 2⟩, 0, 0⟩, cutLanes[1], cutLanes[2], cutLanes[0]]

/-- What is planned for `cutLanes`. -/
def cutNest : Nest :=
  ⟨[⟨.c, .seq, 2, ⟨2, 2, 0, 1⟩, 0, 1⟩, ⟨.c, .prim, 1, ⟨4, 2, 0, 2⟩, 0, 2⟩,
    ⟨.m, .prim, 2, ⟨1, 0, 0, 2⟩, 0, 0⟩, ⟨.n, .prim, 1, 0, 0, 0⟩,
    ⟨.k, .prim, 2, ⟨4, 1, 0, 0⟩, 0, 2⟩], .packedMadd, ⟨1, 1, 1⟩⟩

theorem installSlots_cutRest : installSlots cutChoice ⟨1, 2, 2, 1, 2⟩ cutRest =
    .ok [⟨.c, .seq, 1, ⟨4, 2, 0, 2⟩, 0, 0⟩, ⟨.m, .seq, 1, ⟨2, 0, 0, 4⟩, 0, 0⟩,
      ⟨.k, .seq, 1, ⟨8, 4, 0, 0⟩, 0, 0⟩, cutLanes[0], ⟨.c, .prim, 1, ⟨4, 2, 0, 2⟩, 0, 0⟩,
      ⟨.m, .prim, 2, ⟨1, 0, 0, 2⟩, 0, 0⟩, ⟨.n, .prim, 1, 0, 0, 0⟩,
      ⟨.k, .prim, 2, ⟨4, 2, 0, 0⟩, 0, 0⟩] := by
  have hlane : cutRest[0]? = some ⟨.c, .seq, 1, ⟨4, 2, 0, 2⟩, 0, 0⟩ := rfl
  have hlanes : installSlot .c false cutChoice.slots.c 2 cutRest =
      .ok (cutRest ++ [⟨.c, .prim, 1, ⟨4, 2, 0, 2⟩, 0, 0⟩]) :=
    splitAt_of_size_one hlane rfl 2 .prim
  apply bind_eq_ok.2
  refine ⟨cutRest, rfl, bind_eq_ok.2 ⟨_, hlanes, ?_⟩⟩
  decide +kernel

theorem plan_cutLanes : Nest.plan Settings.outLanes .madd .fp32 cutLanes = .ok cutNest := by
  have hinstall : installKernel Settings.outLanes .madd (sortAndFuse (dropUnits cutLanes)) =
      .ok ⟨[⟨.c, .seq, 1, ⟨4, 2, 0, 2⟩, 0, 0⟩, ⟨.m, .seq, 1, ⟨2, 0, 0, 4⟩, 0, 0⟩,
        ⟨.k, .seq, 1, ⟨8, 4, 0, 0⟩, 0, 0⟩] ++ cutNest.loops, .packedMadd⟩ := by
    unfold installKernel
    apply guard_bind_eq_ok.2
    refine ⟨by decide, bind_eq_ok.2 ⟨(none, cutLanes), by decide +kernel, ?_⟩⟩
    refine bind_eq_ok.2 ⟨cutChoice, by decide +kernel, ?_⟩
    refine bind_eq_ok.2 ⟨⟨⟨1, 2, 2, 1, 2⟩, 2⟩, by decide +kernel, ?_⟩
    refine bind_eq_ok.2 ⟨cutRest, by decide +kernel, ?_⟩
    refine bind_eq_ok.2 ⟨cutRest, by decide +kernel, ?_⟩
    refine bind_eq_ok.2 ⟨_, installSlots_cutRest, ?_⟩
    decide +kernel
  have hstages : Nest.stages Settings.outLanes .madd .fp32 cutLanes =
      .ok (⟨cutNest.loops, 1, 1⟩, .packedMadd) := by
    refine bind_eq_ok.2 ⟨(), by decide, bind_eq_ok.2 ⟨(), by decide, ?_⟩⟩
    refine bind_eq_ok.2 ⟨_, hinstall, ?_⟩
    decide +kernel
  exact plan_eq_ok_of_stages (by decide) hstages

/-- What is planned for `cutLanes`. -/
def cutContraction : Contraction Int :=
  { Contraction.create cutNest.loops ⟨.fp32, .fp32, .fp32, .fp32⟩
      ⟨.undefined, .packedMadd, .undefined⟩ ⟨1, 1, 1⟩ .strided .unlimited with
    maxSlots := Settings.outLanes.slots }

/-- No two index tuples of `cutLanes` meet in an operand, and the kernel loops of its plan are those
of its kernel, but compiling finds that M does not come right behind the one lane that is left. -/
theorem cutLanes_compile :
    IsSeparated cutLanes ∧ (∀ loop ∈ cutLanes, loop.strides.outAux = 0) ∧
      (offsets (fun loop => loop.strides.out) (cutLanes.filter fun loop => loop.axis ≠ .k)).Nodup ∧
      Contraction.planned cutLanes .fp32 ⟨.undefined, .madd, .undefined⟩ Settings.outLanes .strided
        .unlimited = .ok cutContraction ∧
      KernelShape.checkAxes cutContraction.tags.main
        (KernelShape.trailing cutContraction.loops) = .ok () ∧
      cutContraction.compile.2 = .error (.kernelShape .packedMadd .outStride) := by
  have hunpacked : ∀ loop ∈ cutLanes, loop.sourceLeft = 0 ∧ loop.sourceRight = 0 := by
    decide
  refine ⟨⟨by decide, hunpacked, by decide, ?_, by decide⟩, by decide, by decide +kernel, ?_,
    by decide +kernel, by decide +kernel⟩
  · intro side
    cases side <;> decide +kernel
  · unfold Contraction.planned
    rw [plan_cutLanes]
    rfl

end LoopNest
