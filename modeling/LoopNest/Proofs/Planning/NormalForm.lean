import LoopNest.Proofs.Planning.KernelStrides

/-!
# Separated products

A list of sequential loops is a separated product if no two index tuples meet in an input, over the
loops that index it (`IsSeparated`). Loops of more than one iteration then move through every input
that they index, and so do the loops of the normal form (`IsSeparated.spread_normal`).
-/

namespace LoopNest

/-- Whether loops of an axis index an input: all but N index the left one, all but M the right
one. -/
def Axis.indexes (axis : Axis) : Side → Bool
  | .left => axis ≠ .n
  | .right => axis ≠ .m

/-- A list of sequential loops with the strides of a product. Different index tuples have different
offsets in each input, over the loops that index it, and the auxiliary tensor is addressed like the
output or not at all. -/
structure IsSeparated (loops : List Loop) : Prop where
  sequential : ∀ loop ∈ loops, loop.mode = .seq
  unpacked : ∀ loop ∈ loops, loop.IsUnpacked
  multiplies : ∀ loop ∈ loops, loop.axis.Multiplies loop.strides
  apart : ∀ side, (offsets (fun loop => loop.stride side)
    (loops.filter fun loop => loop.axis.indexes side)).Nodup
  outAux : ∀ loop ∈ loops, loop.strides.outAux = 0 ∨ loop.strides.outAux = loop.strides.out

/-- The terms of a sum that does not meet do not meet. -/
theorem nodup_left_of_sumset {A : Type} [AddCommGroup A] {xs ys : List A}
    (h : (sumset xs ys).Nodup) (hys : ys ≠ []) : xs.Nodup := by
  obtain ⟨y, rest, rfl⟩ := List.exists_cons_of_ne_nil hys
  have hswap := (sumset_comm xs (y :: rest)).nodup_iff.1 h
  rw [← List.singleton_append, sumset_append] at hswap
  have hfirst := hswap.of_append_left
  rw [show sumset [y] xs = xs.map (y + ·) by simp [sumset]] at hfirst
  exact hfirst.of_map

/-- A loop that stands still meets itself. -/
theorem stride_ne_zero_of_nodup {A : Type} [AddCommGroup A] {stride : Loop → A} {loops : List Loop}
    (hnodup : (offsets stride loops).Nodup) (hsizes : ∀ loop ∈ loops, 1 ≤ loop.size) {loop : Loop}
    (hloop : loop ∈ loops) (hsize : 2 ≤ loop.size) : stride loop ≠ 0 := by
  intro hzero
  have hperm := List.perm_cons_erase hloop
  rw [(offsets_perm stride hperm).nodup_iff, offsets] at hnodup
  have hrest : offsets stride (loops.erase loop) ≠ [] := by
    apply List.ne_nil_of_mem
    exact zero_mem_offsets stride fun l hl => hsizes l (List.mem_of_mem_erase hl)
  have hmultiples := nodup_left_of_sumset hnodup hrest
  rw [hzero] at hmultiples
  have hfirst : (0 : Int) ∈ upTo loop.size := mem_upTo.2 ⟨by omega, by omega⟩
  have hsecond : (1 : Int) ∈ upTo loop.size := mem_upTo.2 ⟨by omega, by omega⟩
  have heq := List.inj_on_of_nodup_map hmultiples hfirst hsecond (by simp)
  exact absurd heq (by decide)

/-- A rule on single loops that fusing keeps because the inner strides stay holds of the normal
form. -/
theorem forall_normal (rule : Axis → Operands Int → Prop) {loops : List Loop}
    (h : ∀ loop ∈ loops, rule loop.axis loop.strides) :
    ∀ loop ∈ sortAndFuse (dropUnits loops), rule loop.axis loop.strides := by
  apply forall_sortAndFuse
  · intro outer inner hcontinues _ hinner
    have haxis : outer.axis = inner.axis := (of_decide_eq_true hcontinues).1
    show rule outer.axis inner.strides
    rw [haxis]
    exact hinner
  · intro loop hloop
    exact h loop (List.mem_of_mem_filter hloop)

namespace IsSeparated

variable {loops : List Loop}

theorem isPrim_eq_false (h : IsSeparated loops) : ∀ loop ∈ loops, loop.isPrim = false := by
  intro loop hloop
  rw [Loop.isPrim, h.sequential loop hloop]
  rfl

/-- No two index tuples of the normal form meet in an input. -/
theorem apart_normal (h : IsSeparated loops) (hsizes : ∀ loop ∈ loops, 1 ≤ loop.size) (side : Side) :
    (offsets (fun loop => loop.stride side)
      ((sortAndFuse (dropUnits loops)).filter fun loop => loop.axis.indexes side)).Nodup := by
  have hplain : Plain loops := fun loop hloop => ⟨hsizes loop hloop, h.unpacked loop hloop⟩
  obtain ⟨hreshapes, hnormal⟩ := sortAndFuse_reshapes (hplain.filter _ : Plain (dropUnits loops))
  have hperm := ((dropUnits_reshapes loops).trans hreshapes).offsets_filter
    (fun axis => axis.indexes side) fun _ => Operands.inputHom side
  have hstride : ∀ {list : List Loop}, Plain list →
      offsets (fun loop => Operands.inputHom side loop.callerStrides)
        (list.filter fun loop => loop.axis.indexes side) =
      offsets (fun loop => loop.stride side) (list.filter fun loop => loop.axis.indexes side) := by
    intro list hlist
    apply offsets_congr
    intro loop hloop
    rw [Loop.callerStrides_of_isUnpacked (hlist loop (List.mem_of_mem_filter hloop)).2]
    cases side <;> rfl
  rw [hstride hplain, hstride hnormal] at hperm
  exact hperm.nodup_iff.2 (h.apart side)

/-- Loops of the normal form move through the inputs that they index. -/
theorem spread_normal (h : IsSeparated loops) (hsizes : ∀ loop ∈ loops, 1 ≤ loop.size) :
    Spread (sortAndFuse (dropUnits loops)) := by
  have hsize := two_le_size_of_normal hsizes h.isPrim_eq_false
  have hmultiplies := forall_normal Axis.Multiplies h.multiplies
  have hmoves : ∀ side, ∀ loop ∈ sortAndFuse (dropUnits loops), loop.axis.indexes side = true →
      loop.stride side ≠ 0 := by
    intro side loop hloop hindexes
    apply stride_ne_zero_of_nodup (h.apart_normal hsizes side)
    · intro l hl
      have := hsize l (List.mem_of_mem_filter hl)
      omega
    · exact List.mem_filter.2 ⟨hloop, hindexes⟩
    · exact hsize loop hloop
  refine ⟨hsize, hmultiplies, fun loop hloop haxis => ?_, fun loop hloop haxis => ?_,
    forall_normal (fun _ x => x.outAux = 0 ∨ x.outAux = x.out) h.outAux⟩
  · have hne := hmoves .left loop hloop (by rw [haxis]; rfl)
    exact lt_of_le_of_ne (hmultiplies loop hloop).left hne.symm
  · have hne := hmoves .right loop hloop (by rw [haxis]; rfl)
    exact lt_of_le_of_ne (hmultiplies loop hloop).right hne.symm

end IsSeparated

/-- The lane loop that is chosen from the normal form of a list is no further packed loop. -/
def TakesLanesWhole (settings : Settings) (loops : List Loop) : Prop :=
  ∀ chosen, candidates settings (sortAndFuse (dropUnits loops)) = .ok chosen → chosen.LanesWhole

/-- Lanes that have stride one in the output only are taken whole, and so are lanes that need stride
one everywhere. -/
theorem takesLanesWhole_of_lanesApart {settings : Settings} {loops : List Loop}
    (hsizes : ∀ loop ∈ loops, 1 ≤ loop.size) (hprim : ∀ loop ∈ loops, loop.isPrim = false)
    (h : LanesApart settings.packedSupport loops) : TakesLanesWhole settings loops := by
  intro chosen hchosen
  apply lanesWhole_of_lanesApart (two_le_size_of_normal hsizes hprim) _ hchosen
  -- fusing keeps the strides of the inner loop, which stands for both
  intro hsupport
  exact forall_normal (fun axis x => axis = .c → x.out = 1 → x.left ≠ 1 ∧ x.right ≠ 1) (h hsupport)

/-- A real product has no complex loop, so that no loop is taken out of the list. -/
theorem takeComplex_madd {loops rest : List Loop} {complex : Option Loop}
    (h : takeComplex .madd loops = .ok (complex, rest)) : complex = none ∧ rest = loops := by
  rcases takeComplex_cases h with ⟨found, -, hkernel, -⟩ | ⟨-, hcomplex, hrest⟩
  · cases hkernel
  · exact ⟨hcomplex, hrest⟩

/-- The kernel loops at the end of a plan for a separated product have a shape, if they fit the
kernel. -/
theorem plan_exists_shape {settings : Settings} {element : ElementType} {loops : List Loop}
    {nest : Nest} (hloops : IsSeparated loops) (hlanes : TakesLanesWhole settings loops)
    (hplan : Nest.plan settings .madd element loops = .ok nest)
    (hcheck : KernelShape.checkAxes nest.kernel (KernelShape.trailing nest.loops) = .ok ()) :
    ∃ shape, KernelShape.ofLoops nest.kernel nest.loops = .ok shape := by
  obtain ⟨s, kerneled, hs, htag, hkernelLoops⟩ := plan_kernelLoops hloops.unpacked hplan
  obtain ⟨hreal, hrest⟩ := takeComplex_madd hs.takes
  have hspread := hloops.spread_normal (plan_sizes hplan)
  have hwhole := hlanes s.chosen (hrest ▸ hs.chooses)
  have htrailing :=
    KernelShape.trailing_eq (plan_kernelLast hloops.unpacked hloops.isPrim_eq_false hplan)
  obtain ⟨front, m, n, k, heq, hcore⟩ := hs.realCore hreal (hrest ▸ hspread) hwhole
  rw [hkernelLoops, heq] at htrailing
  rw [htag] at hcheck ⊢
  rw [htrailing] at hcheck
  exact hcore.exists_shape hcheck htrailing

end LoopNest
