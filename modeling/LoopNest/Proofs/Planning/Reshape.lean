import LoopNest.Planning.Nest
import LoopNest.Proofs.Offsets

/-!
# What planning may do to a loop list

Planning changes a loop list by a few kinds of steps only: it reorders loops, drops or adds loops of
one iteration, cuts a loop in two or joins two loops that continue each other, changes the mode of a
loop, and replaces a stride by a buffer stride while it keeps the old stride as source stride.
`Reshapes` is the relation generated by these steps.

Two facts make the relation useful. It preserves the offsets through the buffers of the caller, axis
by axis (`Reshapes.offsets_filter`), and it preserves every property of single loops that the steps
respect (`Reshapes.forall_of_stable`).
-/

namespace LoopNest

/-- The loops of one axis. -/
def ofAxis (loops : List Loop) (axis : Axis) : List Loop :=
  loops.filter fun loop => loop.axis = axis

/-- `outer` and `inner` together do what `loop` does; none of the three is packed. -/
structure IsSplit (loop outer inner : Loop) : Prop where
  outer_axis : outer.axis = loop.axis
  inner_axis : inner.axis = loop.axis
  size : loop.size = outer.size * inner.size
  outer_pos : 1 ≤ outer.size
  inner_pos : 1 ≤ inner.size
  outer_strides : outer.strides = loop.strides.scale inner.size
  inner_strides : inner.strides = loop.strides
  unpacked : loop.IsUnpacked
  outer_unpacked : outer.IsUnpacked
  inner_unpacked : inner.IsUnpacked

/-- The changes that planning makes to a loop list. -/
inductive Reshapes : List Loop → List Loop → Prop where
  | perm {a b : List Loop} : a.Perm b → Reshapes a b
  | trans {a b c : List Loop} : Reshapes a b → Reshapes b c → Reshapes a c
  | cons (loop : Loop) {a b : List Loop} : Reshapes a b → Reshapes (loop :: a) (loop :: b)
  | drop {loop : Loop} (rest : List Loop) : loop.size = 1 → Reshapes (loop :: rest) rest
  | add (axis : Axis) (rest : List Loop) : Reshapes rest (placeholder axis :: rest)
  | split {loop outer inner : Loop} (rest : List Loop) :
      IsSplit loop outer inner → Reshapes (loop :: rest) (outer :: inner :: rest)
  | join {loop outer inner : Loop} (rest : List Loop) :
      IsSplit loop outer inner → Reshapes (outer :: inner :: rest) (loop :: rest)
  | retag (loop : Loop) (mode : Mode) (rest : List Loop) :
      Reshapes (loop :: rest) ({ loop with mode := mode } :: rest)
  | repack {loop : Loop} {side : Side} (stride : Int) (rest : List Loop) :
      loop.source side = 0 → 0 < loop.stride side →
        Reshapes (loop :: rest) (loop.repack side stride :: rest)

namespace Reshapes

theorem refl (loops : List Loop) : Reshapes loops loops := .perm (List.Perm.refl loops)

theorem append_left {a b : List Loop} (outer : List Loop) (h : Reshapes a b) :
    Reshapes (outer ++ a) (outer ++ b) := by
  induction outer with
  | nil => exact h
  | cons loop outer ih => exact .cons loop ih

theorem append_right {a b : List Loop} (h : Reshapes a b) (inner : List Loop) :
    Reshapes (a ++ inner) (b ++ inner) :=
  .trans (.perm List.perm_append_comm)
    (.trans (append_left inner h) (.perm List.perm_append_comm))

/-- A change of the first loop may be made to any loop of a list, and the new loops may stand
anywhere. -/
theorem of_perm {a a' b b' : List Loop} (ha : a.Perm a') (h : Reshapes a' b') (hb : b'.Perm b) :
    Reshapes a b := .trans (.perm ha) (.trans h (.perm hb))

end Reshapes

/-! ## Strides of the loops that a step makes -/

theorem callerStrides_placeholder (axis : Axis) : (placeholder axis).callerStrides = 0 := rfl

theorem axis_repack (loop : Loop) (side : Side) (stride : Int) :
    (loop.repack side stride).axis = loop.axis := by
  cases side <;> rfl

theorem size_repack (loop : Loop) (side : Side) (stride : Int) :
    (loop.repack side stride).size = loop.size := by
  cases side <;> rfl

/-- The buffer stride takes the place of the old stride, which the source stride keeps. -/
theorem callerStrides_repack {loop : Loop} {side : Side} (stride : Int)
    (hsource : loop.source side = 0) (hstride : 0 < loop.stride side) :
    (loop.repack side stride).callerStrides = loop.callerStrides := by
  have hne : loop.stride side ≠ 0 := ne_of_gt hstride
  cases side with
  | left =>
      have hs : loop.strides.left ≠ 0 := hne
      refine Operands.ext ?_ rfl rfl rfl
      simp [Loop.callerStrides, Loop.repack, Loop.bufferStride, Loop.isPacked, Loop.source,
        Loop.stride, hs, show loop.sourceLeft = 0 from hsource]
  | right =>
      have hs : loop.strides.right ≠ 0 := hne
      refine Operands.ext rfl ?_ rfl rfl
      simp [Loop.callerStrides, Loop.repack, Loop.bufferStride, Loop.isPacked, Loop.source,
        Loop.stride, hs, show loop.sourceRight = 0 from hsource]

theorem callerStrides_retag (loop : Loop) (mode : Mode) :
    ({ loop with mode := mode } : Loop).callerStrides = loop.callerStrides := rfl

/-! ## Offsets are kept -/

section Offsets

variable {A : Type} [AddCommGroup A]

/-- The multiples of the two parts of a loop fill its multiples, seen through any additive function
of the strides. -/
theorem multiples_of_isSplit (f : Operands Int →+ A) {loop outer inner : Loop}
    (h : IsSplit loop outer inner) :
    sumset (multiples outer.size (f outer.callerStrides))
        (multiples inner.size (f inner.callerStrides)) =
      multiples loop.size (f loop.callerStrides) := by
  have houter := h.outer_pos
  have hinner := h.inner_pos
  rw [Loop.callerStrides_of_isUnpacked h.inner_unpacked,
    Loop.callerStrides_of_isUnpacked h.outer_unpacked,
    Loop.callerStrides_of_isUnpacked h.unpacked, h.inner_strides, h.outer_strides,
    ← Operands.zsmul_eq_scale, map_zsmul, multiples_mul (by omega) (by omega), h.size]

/-- The two parts of a loop pass a filter on axes together. -/
theorem filtered_multiples_of_isSplit (p : Axis → Bool) (f : Axis → Operands Int →+ A)
    {loop outer inner : Loop} (h : IsSplit loop outer inner) :
    sumset (if p outer.axis then multiples outer.size (f outer.axis outer.callerStrides) else [0])
        (if p inner.axis then multiples inner.size (f inner.axis inner.callerStrides) else [0]) =
      if p loop.axis then multiples loop.size (f loop.axis loop.callerStrides) else [0] := by
  rw [h.outer_axis, h.inner_axis]
  split
  · exact multiples_of_isSplit _ h
  · exact zero_sumset _

/-- The offsets of all loops with a property of the axis are kept by every change, for strides read
off the strides through the buffers of the caller. -/
theorem Reshapes.offsets_filter {a b : List Loop} (h : Reshapes a b) (p : Axis → Bool)
    (f : Axis → Operands Int →+ A) :
    (offsets (fun loop => f loop.axis loop.callerStrides) (b.filter fun loop => p loop.axis)).Perm
      (offsets (fun loop => f loop.axis loop.callerStrides)
        (a.filter fun loop => p loop.axis)) := by
  induction h with
  | perm h => exact (offsets_perm _ (h.filter _)).symm
  | trans _ _ ih ih' => exact ih'.trans ih
  | cons loop _ ih =>
      rw [offsets_filter_cons, offsets_filter_cons]
      exact sumset_perm (List.Perm.refl _) ih
  | @drop loop rest hsize =>
      rw [offsets_filter_cons, hsize, multiples_one, ite_self, zero_sumset]
  | add axis rest =>
      rw [offsets_filter_cons, show (placeholder axis).size = 1 from rfl, multiples_one, ite_self,
        zero_sumset]
  | @split loop outer inner rest hs =>
      rw [offsets_filter_cons, offsets_filter_cons, offsets_filter_cons, ← sumset_assoc,
        filtered_multiples_of_isSplit p f hs]
  | @join loop outer inner rest hs =>
      rw [offsets_filter_cons, offsets_filter_cons, offsets_filter_cons, ← sumset_assoc,
        filtered_multiples_of_isSplit p f hs]
  | retag loop mode rest => rw [offsets_filter_cons, offsets_filter_cons, callerStrides_retag]
  | @repack loop side stride rest hsource hstride =>
      rw [offsets_filter_cons, offsets_filter_cons, axis_repack, size_repack,
        callerStrides_repack stride hsource hstride]

end Offsets

theorem sizeOfAxis_eq_prod (loops : List Loop) (axis : Axis) :
    sizeOfAxis loops axis = ((ofAxis loops axis).map Loop.size).prod :=
  List.prod_eq_foldl.symm

theorem sizeOfAxis_cons (loop : Loop) (rest : List Loop) (axis : Axis) :
    sizeOfAxis (loop :: rest) axis =
      (if loop.axis = axis then loop.size else 1) * sizeOfAxis rest axis := by
  rw [sizeOfAxis_eq_prod, sizeOfAxis_eq_prod, ofAxis, List.filter_cons]
  by_cases h : loop.axis = axis
  · simp [h, ofAxis]
  · simp [h, ofAxis]

/-- Every change keeps the number of iterations of every axis. -/
theorem Reshapes.sizeOfAxis_eq {a b : List Loop} (h : Reshapes a b) (axis : Axis) :
    sizeOfAxis b axis = sizeOfAxis a axis := by
  have hsplit : ∀ {loop outer inner : Loop} (rest : List Loop), IsSplit loop outer inner →
      sizeOfAxis (outer :: inner :: rest) axis = sizeOfAxis (loop :: rest) axis := by
    intro loop outer inner rest hs
    rw [sizeOfAxis_cons, sizeOfAxis_cons, sizeOfAxis_cons, hs.outer_axis, hs.inner_axis, hs.size]
    split <;> ring
  induction h with
  | perm h =>
      rw [sizeOfAxis_eq_prod, sizeOfAxis_eq_prod]
      exact (((h.filter _).map _).prod_eq).symm
  | trans _ _ ih ih' => exact ih'.trans ih
  | cons loop _ ih => rw [sizeOfAxis_cons, sizeOfAxis_cons, ih]
  | drop rest hsize => rw [sizeOfAxis_cons, hsize, ite_self, one_mul]
  | add axis' rest =>
      rw [sizeOfAxis_cons, show (placeholder axis').size = 1 from rfl, ite_self, one_mul]
  | split rest hs => exact hsplit rest hs
  | join rest hs => exact (hsplit rest hs).symm
  | retag loop mode rest => rw [sizeOfAxis_cons, sizeOfAxis_cons]
  | repack stride rest _ _ => rw [sizeOfAxis_cons, sizeOfAxis_cons, axis_repack, size_repack]

/-! ## Properties of single loops -/

/-- A property of single loops that every change of a loop list respects. -/
structure Stable (p : Loop → Prop) : Prop where
  placeholder : ∀ axis, p (placeholder axis)
  split : ∀ {loop outer inner : Loop}, IsSplit loop outer inner → p loop → p outer ∧ p inner
  join : ∀ {loop outer inner : Loop}, IsSplit loop outer inner → p outer → p inner → p loop
  retag : ∀ (loop : Loop) (mode : Mode), p loop → p { loop with mode := mode }
  repack : ∀ {loop : Loop} {side : Side} (stride : Int), loop.source side = 0 →
    0 < loop.stride side → p loop → p (loop.repack side stride)

theorem Reshapes.forall_of_stable {a b : List Loop} (h : Reshapes a b) {p : Loop → Prop}
    (hp : Stable p) (ha : ∀ loop ∈ a, p loop) : ∀ loop ∈ b, p loop := by
  induction h with
  | perm h => exact fun loop hloop => ha loop (h.mem_iff.2 hloop)
  | trans _ _ ih ih' => exact ih' (ih ha)
  | cons loop _ ih =>
      rw [List.forall_mem_cons] at ha ⊢
      exact ⟨ha.1, ih ha.2⟩
  | drop rest _ => exact fun loop hloop => ha loop (List.mem_cons_of_mem _ hloop)
  | add axis rest =>
      rw [List.forall_mem_cons]
      exact ⟨hp.placeholder axis, ha⟩
  | split rest hs =>
      rw [List.forall_mem_cons] at ha
      rw [List.forall_mem_cons, List.forall_mem_cons]
      obtain ⟨ho, hi⟩ := hp.split hs ha.1
      exact ⟨ho, hi, ha.2⟩
  | join rest hs =>
      rw [List.forall_mem_cons, List.forall_mem_cons] at ha
      rw [List.forall_mem_cons]
      exact ⟨hp.join hs ha.1 ha.2.1, ha.2.2⟩
  | retag loop mode rest =>
      rw [List.forall_mem_cons] at ha ⊢
      exact ⟨hp.retag loop mode ha.1, ha.2⟩
  | repack stride rest hsource hstride =>
      rw [List.forall_mem_cons] at ha ⊢
      exact ⟨hp.repack stride hsource hstride ha.1, ha.2⟩

end LoopNest
