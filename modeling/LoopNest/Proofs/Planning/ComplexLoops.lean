import LoopNest.Proofs.Planning.NormalForm
import LoopNest.Proofs.Planning.Outcome

/-!
# The complex loops of a list

A complex kernel needs one complex loop, of two iterations, and a real kernel none. What counts are
the complex loops of the normal form (`complexLoops`): loops of one iteration outside the kernel were
dropped before, and loops that continue each other were fused. Planning refuses the complex loops
exactly if these do not fit the kernel (`plan_invalidComplex_iff`), and has a plan otherwise.

The normal form keeps the number of complex iterations, and whether there is a complex loop that is
not dropped. For lists without kernel loops, one complex loop of two iterations in the normal form is
therefore one complex loop of two iterations in the list, next to any number of one iteration.

Complex loops are searched for by weight, and the search overlooks a loop whose weight is the bound of
the search itself. The statements are about lighter loops.
-/

namespace LoopNest

/-! ## Searching by weight -/

/-- The step of the search for the lightest loop. -/
def lighter (best : Option Found) (found : Found) : Option Found :=
  if found.loop.weight < (best.map fun f => f.loop.weight).getD weightBound then some found else best

/-- A search among loops below the bound finds nothing only if there is nothing to find. -/
theorem foldl_lighter_eq_none_iff {candidates : List Found}
    (h : ∀ found ∈ candidates, found.loop.weight < weightBound) (best : Option Found) :
    candidates.foldl lighter best = none ↔ best = none ∧ candidates = [] := by
  induction candidates generalizing best with
  | nil => simp
  | cons found rest ih =>
      rw [List.forall_mem_cons] at h
      have hstep : lighter best found ≠ none := by
        unfold lighter
        cases best with
        | none => simp [h.1]
        | some f => split <;> simp
      rw [List.foldl_cons, ih h.2]
      simp [hstep]

theorem lightest_eq_none_iff {loops : List Loop} {axis : Axis}
    (h : ∀ loop ∈ loops, loop.axis = axis → loop.weight < weightBound) :
    lightest loops axis none = none ↔ ofAxis loops axis = [] := by
  have hloops : ((indexed loops).filter fun found => found.loop.axis = axis).map Found.loop =
      ofAxis loops axis := by
    have hindexed : (indexed loops).map Found.loop = loops := by
      rw [indexed, List.map_map]
      exact List.zipIdx_map_fst 0 loops
    calc ((indexed loops).filter fun found => found.loop.axis = axis).map Found.loop
        = ((indexed loops).map Found.loop).filter fun loop => loop.axis = axis := by
          rw [List.filter_map]
          rfl
      _ = ofAxis loops axis := by rw [hindexed, ofAxis]
  have hfilter : ((indexed loops).filter fun found =>
      found.loop.axis = axis && some found.index ≠ none) =
      (indexed loops).filter fun found => found.loop.axis = axis := by simp
  have hlight : ∀ found ∈ (indexed loops).filter fun found => found.loop.axis = axis,
      found.loop.weight < weightBound := by
    intro found hfound
    have hmem : found.loop ∈ ofAxis loops axis := hloops ▸ List.mem_map_of_mem hfound
    obtain ⟨hloop, haxis⟩ := List.mem_filter.1 hmem
    exact h found.loop hloop (of_decide_eq_true haxis)
  show List.foldl lighter none ((indexed loops).filter fun found =>
      found.loop.axis = axis && some found.index ≠ none) = none ↔ _
  rw [hfilter, foldl_lighter_eq_none_iff hlight, ← hloops, List.map_eq_nil_iff]
  simp

/-- A loop whose weight is the bound of the search is overlooked. -/
example : lightest [⟨.cpx, .seq, 2, ⟨0, 0, 0, weightBound⟩, 0, 0⟩] .cpx none = none := by decide

/-- Complex loops are refused if a complex kernel does not find exactly one, of two iterations, or a
real kernel finds any. -/
theorem takeComplex_error_iff {kernel : KernelTag} (hkernel : kernel = .madd ∨ kernel = .cpxMadd)
    {loops : List Loop} (h : ∀ loop ∈ loops, loop.axis = .cpx → loop.weight < weightBound) :
    (∃ fault, takeComplex kernel loops = .error (.invalidComplex fault)) ↔
      (kernel = .cpxMadd ∧ (ofAxis loops .cpx).map Loop.size ≠ [2]) ∨
        (kernel = .madd ∧ ofAxis loops .cpx ≠ []) := by
  cases hfound : lightest loops .cpx none with
  | none =>
      rw [(lightest_eq_none_iff h).1 hfound, takeComplex, hfound]
      rcases hkernel with rfl | rfl <;> simp
  | some found =>
      obtain ⟨hget, haxis⟩ := lightest_spec hfound
      have hperm : (ofAxis loops .cpx).Perm
          (found.loop :: ofAxis (loops.eraseIdx found.index) .cpx) := by
        have := (perm_cons_eraseIdx hget).filter fun loop => decide (loop.axis = Axis.cpx)
        rwa [List.filter_cons_of_pos (by simpa using haxis)] at this
      have hne : ofAxis loops .cpx ≠ [] := by
        intro hnil
        rw [hnil] at hperm
        exact absurd hperm.length_eq (by simp)
      have hrest : lightest (loops.eraseIdx found.index) .cpx none = none ↔
          ofAxis (loops.eraseIdx found.index) .cpx = [] :=
        lightest_eq_none_iff fun loop hloop => h loop (List.mem_of_mem_eraseIdx hloop)
      have htwo : (ofAxis loops .cpx).map Loop.size = [2] ↔
          found.loop.size = 2 ∧ lightest (loops.eraseIdx found.index) .cpx none = none := by
        rw [hrest, ← List.perm_singleton, (hperm.map Loop.size).congr_left, List.map_cons,
          List.perm_singleton, List.cons.injEq, List.map_eq_nil_iff]
      rw [takeComplex, hfound]
      rcases hkernel with rfl | rfl
      · simp [hne]
      · rw [ne_eq (List.map _ _), htwo]
        by_cases hsize : found.loop.size = 2
        · cases hothers : lightest (loops.eraseIdx found.index) .cpx none <;> simp [hsize, hothers]
        · simp [hsize]

/-! ## Complex loops of the normal form -/

/-- Fusing keeps what is said of all axes that occur. -/
theorem forall_axis_fuseFrom (q : Axis → Prop) (current : Loop) (rest : List Loop) :
    (∀ loop ∈ fuseFrom current rest, q loop.axis) ↔ ∀ loop ∈ current :: rest, q loop.axis := by
  induction rest generalizing current with
  | nil => rfl
  | cons next rest ih =>
      unfold fuseFrom
      split
      · rename_i hcontinues
        have haxis : current.axis = next.axis := (of_decide_eq_true hcontinues).1
        rw [ih, List.forall_mem_cons, List.forall_mem_cons, List.forall_mem_cons]
        show q current.axis ∧ _ ↔ _
        rw [← haxis]
        tauto
      · rw [List.forall_mem_cons, ih, List.forall_mem_cons, List.forall_mem_cons,
          List.forall_mem_cons]

theorem sizeOfAxis_fuseFrom (current : Loop) (rest : List Loop) (axis : Axis) :
    sizeOfAxis (fuseFrom current rest) axis = sizeOfAxis (current :: rest) axis := by
  induction rest generalizing current with
  | nil => rfl
  | cons next rest ih =>
      unfold fuseFrom
      split
      · rename_i hcontinues
        have haxis : current.axis = next.axis := (of_decide_eq_true hcontinues).1
        rw [ih, sizeOfAxis_cons, sizeOfAxis_cons, sizeOfAxis_cons]
        show (if current.axis = axis then current.size * next.size else 1) * _ = _
        rw [← haxis]
        split <;> ring
      · rw [sizeOfAxis_cons, ih, sizeOfAxis_cons current (next :: rest)]

theorem forall_axis_sortAndFuse (q : Axis → Prop) (loops : List Loop) :
    (∀ loop ∈ sortAndFuse loops, q loop.axis) ↔ ∀ loop ∈ loops, q loop.axis := by
  have hperm := sortBy_perm Loop.precedes loops
  rw [sortAndFuse]
  generalize sortBy Loop.precedes loops = sorted at hperm ⊢
  have hsorted : (∀ loop ∈ sorted, q loop.axis) ↔ ∀ loop ∈ loops, q loop.axis :=
    forall_congr' fun loop => by rw [hperm.mem_iff]
  rw [← hsorted]
  cases sorted with
  | nil => rfl
  | cons loop rest => exact forall_axis_fuseFrom q loop rest

/-- The normal form keeps the number of iterations of every axis. -/
theorem sizeOfAxis_normal (loops : List Loop) (axis : Axis) :
    sizeOfAxis (sortAndFuse (dropUnits loops)) axis = sizeOfAxis loops axis := by
  rw [← (dropUnits_reshapes loops).sizeOfAxis_eq axis]
  generalize dropUnits loops = kept
  have hsorted := (Reshapes.perm (sortBy_perm Loop.precedes kept)).sizeOfAxis_eq axis
  rw [hsorted, sortAndFuse]
  cases sortBy Loop.precedes kept with
  | nil => rfl
  | cons loop rest => exact sizeOfAxis_fuseFrom loop rest axis

/-- The complex loops that planning has to fit to the kernel. -/
def complexLoops (loops : List Loop) : List Loop := ofAxis (sortAndFuse (dropUnits loops)) .cpx

/-- There is no complex loop to fit if all of them are dropped. -/
theorem complexLoops_eq_nil_iff (loops : List Loop) :
    complexLoops loops = [] ↔
      ∀ loop ∈ loops, loop.axis = .cpx → loop.size = 1 ∧ loop.isPrim = false := by
  have hnil : complexLoops loops = [] ↔
      ∀ loop ∈ sortAndFuse (dropUnits loops), loop.axis ≠ .cpx := by
    simp [complexLoops, ofAxis, List.filter_eq_nil_iff]
  rw [hnil, forall_axis_sortAndFuse (fun axis => axis ≠ .cpx)]
  simp only [dropUnits, List.mem_filter, and_imp]
  refine forall₂_congr fun loop _ => ?_
  by_cases hsize : loop.size = 1 <;> cases hprim : loop.isPrim <;> simp [hsize]

/-- Numbers of at least two with the product two are two alone. -/
theorem eq_two_iff_prod {sizes : List Int} (h : ∀ size ∈ sizes, 2 ≤ size) :
    sizes = [2] ↔ sizes.prod = 2 := by
  constructor
  · rintro rfl
    rfl
  intro hprod
  cases sizes with
  | nil => exact absurd hprod (by decide)
  | cons first rest =>
      rw [List.forall_mem_cons] at h
      rw [List.prod_cons] at hprod
      cases rest with
      | nil => simpa using hprod
      | cons second rest =>
          rw [List.forall_mem_cons] at h
          have hrest : 1 ≤ rest.prod := List.one_le_prod fun size hsize =>
            le_trans (by decide) (h.2.2 size hsize)
          rw [List.prod_cons] at hprod
          have hinner : 2 ≤ second * rest.prod :=
            le_trans h.2.1 (le_mul_of_one_le_right (by omega) hrest)
          have hall := mul_le_mul h.1 hinner (by decide) (by omega)
          omega

/-- In a list without complex kernel loops of one iteration, the complex loop of the normal form is
one of two iterations if the list has one such loop and no other of more than one iteration. -/
theorem complexLoops_eq_two_iff {loops : List Loop} (hsizes : Sized loops)
    (hprim : ∀ loop ∈ loops, loop.axis = .cpx → loop.size = 1 → loop.isPrim = false) :
    (complexLoops loops).map Loop.size = [2] ↔
      ((ofAxis loops .cpx).filter fun loop => loop.size ≠ 1).map Loop.size = [2] := by
  have hkept : ∀ loop ∈ dropUnits loops, loop.axis = .cpx → 2 ≤ loop.size := by
    intro loop hloop haxis
    obtain ⟨hmem, hkept⟩ := List.mem_filter.1 hloop
    have hsize := hsizes loop hmem
    have hunit := hprim loop hmem haxis
    by_contra hlt
    have hone : loop.size = 1 := by omega
    simp [hone, hunit hone] at hkept
  have hnormal : ∀ loop ∈ sortAndFuse (dropUnits loops),
      1 ≤ loop.size ∧ (loop.axis = .cpx → 2 ≤ loop.size) := by
    apply forall_sortAndFuse
    · intro outer inner _ houter hinner
      refine ⟨one_le_mul_of_one_le_of_one_le houter.1 hinner.1, fun haxis => ?_⟩
      exact le_trans (houter.2 haxis) (le_mul_of_one_le_right (by omega) hinner.1)
    · exact fun loop hloop => ⟨hsizes.filter _ loop hloop, hkept loop hloop⟩
  have hleft : ∀ size ∈ (complexLoops loops).map Loop.size, 2 ≤ size := by
    intro size hsize
    obtain ⟨loop, hloop, rfl⟩ := List.mem_map.1 hsize
    obtain ⟨hmem, haxis⟩ := List.mem_filter.1 hloop
    exact (hnormal loop hmem).2 (of_decide_eq_true haxis)
  have hright : ∀ size ∈ ((ofAxis loops .cpx).filter fun loop => loop.size ≠ 1).map Loop.size,
      2 ≤ size := by
    intro size hsize
    obtain ⟨loop, hloop, rfl⟩ := List.mem_map.1 hsize
    obtain ⟨hmem, hne⟩ := List.mem_filter.1 hloop
    have hone := hsizes loop (List.mem_of_mem_filter hmem)
    have hne := of_decide_eq_true hne
    omega
  have hunits : ∀ list : List Loop,
      ((list.filter fun loop => loop.size ≠ 1).map Loop.size).prod = (list.map Loop.size).prod := by
    intro list
    induction list with
    | nil => rfl
    | cons loop rest ih =>
        by_cases hone : loop.size = 1 <;> simp_all
  rw [eq_two_iff_prod hleft, eq_two_iff_prod hright, hunits, complexLoops, ← sizeOfAxis_eq_prod,
    ← sizeOfAxis_eq_prod, sizeOfAxis_normal]

/-! ## Refusals of planning -/

/-- Planning refuses the complex loops exactly if the normal form does not have what the kernel needs,
one complex loop of two iterations or none, and otherwise has a plan. The normal form has a complex
loop unless all of them are dropped; and unless one of a single iteration belongs to the kernel, those
of a single iteration do not count. -/
theorem plan_invalidComplex_iff {settings : Settings} (hsettings : settings.validate = .ok ())
    {kernel : KernelTag} (hkernel : kernel = .madd ∨ kernel = .cpxMadd) (element : ElementType)
    {loops : List Loop} (hsizes : Sized loops)
    (hweights : ∀ loop ∈ loops, loop.axis = .cpx → loop.weight < weightBound) :
    ((∃ fault, Nest.plan settings kernel element loops = .error (.invalidComplex fault)) ↔
        (kernel = .cpxMadd ∧ (complexLoops loops).map Loop.size ≠ [2]) ∨
          (kernel = .madd ∧ complexLoops loops ≠ [])) ∧
      ((¬∃ fault, Nest.plan settings kernel element loops = .error (.invalidComplex fault)) →
        ∃ nest, Nest.plan settings kernel element loops = .ok nest) ∧
      (complexLoops loops = [] ↔
        ∀ loop ∈ loops, loop.axis = .cpx → loop.size = 1 ∧ loop.isPrim = false) ∧
      ((∀ loop ∈ loops, loop.axis = .cpx → loop.size = 1 → loop.isPrim = false) →
        ((complexLoops loops).map Loop.size = [2] ↔
          ((ofAxis loops .cpx).filter fun loop => loop.size ≠ 1).map Loop.size = [2])) := by
  have hnormal := forall_normal
    (fun axis x => axis = .cpx → x.left + x.right + x.out < weightBound) hweights
  have htakes := takeComplex_error_iff hkernel hnormal
  refine ⟨?_, ?_, complexLoops_eq_nil_iff loops, complexLoops_eq_two_iff hsizes⟩
  · rw [complexLoops, ← htakes]
    rcases plan_cases_complex hsettings hkernel element hsizes with
      ⟨fault, hrefused, hplan⟩ | ⟨taken, nest, htaken, hplan⟩
    · exact ⟨fun _ => ⟨fault, hrefused⟩, fun _ => ⟨fault, hplan⟩⟩
    · simp [htaken, hplan]
  · intro hfits
    rcases plan_cases_complex hsettings hkernel element hsizes with
      ⟨fault, -, hplan⟩ | ⟨-, nest, -, hplan⟩
    · exact absurd ⟨fault, hplan⟩ hfits
    · exact ⟨nest, hplan⟩

/-- A real product of four by four by four, next to loops of the complex axis. -/
def besideComplex (complex : List Loop) : List Loop :=
  [⟨.m, .seq, 4, ⟨1, 0, 0, 1⟩, 0, 0⟩, ⟨.n, .seq, 4, ⟨0, 4, 0, 4⟩, 0, 0⟩,
    ⟨.k, .seq, 4, ⟨4, 1, 0, 0⟩, 0, 0⟩] ++ complex

/-- One complex loop of two iterations next to one of one iteration. -/
def complexPair : List Loop :=
  besideComplex
    [⟨.cpx, .seq, 1, ⟨32, 32, 0, 32⟩, 0, 0⟩, ⟨.cpx, .seq, 2, ⟨16, 16, 0, 16⟩, 0, 0⟩]

/-- A complex kernel has a plan for `complexPair`, since only one of the complex loops counts. -/
theorem plan_complexPair :
    Settings.single.validate = .ok () ∧ Sized complexPair ∧
      (∀ loop ∈ complexPair, loop.axis = .cpx → loop.weight < weightBound) ∧
      (complexLoops complexPair).map Loop.size = [2] ∧
      ∃ nest, Nest.plan Settings.single .cpxMadd .fp64 complexPair = .ok nest := by
  have hsettings : Settings.single.validate = .ok () := rfl
  have hsizes : Sized complexPair := by decide
  have hweights : ∀ loop ∈ complexPair, loop.axis = .cpx → loop.weight < weightBound := by decide
  obtain ⟨hrefused, hplan, -, htwo⟩ :=
    plan_invalidComplex_iff hsettings (.inr rfl) .fp64 hsizes hweights
  have hone : (complexLoops complexPair).map Loop.size = [2] := (htwo (by decide)).2 (by decide)
  refine ⟨hsettings, hsizes, hweights, hone, hplan fun hfault => ?_⟩
  rcases hrefused.1 hfault with ⟨-, hne⟩ | ⟨hmadd, -⟩
  · exact hne hone
  · cases hmadd

/-- A complex loop of one iteration is dropped before the complex loops are looked at, so that a real
kernel has a plan for a list with such a loop. -/
theorem plan_unitComplex :
    Settings.single.validate = .ok () ∧
      Sized (besideComplex [⟨.cpx, .seq, 1, ⟨16, 16, 0, 16⟩, 0, 0⟩]) ∧
      (∃ loop ∈ besideComplex [⟨.cpx, .seq, 1, ⟨16, 16, 0, 16⟩, 0, 0⟩], loop.axis = .cpx) ∧
      ∃ nest, Nest.plan Settings.single .madd .fp64
        (besideComplex [⟨.cpx, .seq, 1, ⟨16, 16, 0, 16⟩, 0, 0⟩]) = .ok nest := by
  have hsizes : Sized (besideComplex [⟨.cpx, .seq, 1, ⟨16, 16, 0, 16⟩, 0, 0⟩]) := by decide
  have hsettings : Settings.single.validate = .ok () := rfl
  refine ⟨hsettings, hsizes, by decide, ?_⟩
  obtain ⟨nest, hplan, -⟩ := succeeds_plan hsettings (.inl rfl) .fp64 hsizes
    (show takeComplex .madd (sortAndFuse (dropUnits _)) = .ok (none, besideComplex []) by decide)
  exact ⟨nest, hplan⟩

end LoopNest
