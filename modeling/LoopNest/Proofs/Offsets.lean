import LoopNest.Buffer
import LoopNest.Loop
import Mathlib.Tactic

/-!
# Offsets of index tuples

An index tuple of a loop list moves each operand stream by the sum of index times stride. This file
lists the offsets of all index tuples, outermost index slowest (`offsets`), in any commutative
group, so that one definition serves single streams, all four streams, and pairs of streams.

Offset lists form a commutative monoid under pointwise sums up to order (`sumset`). The laws that
planning and scheduling rest on are statements of this monoid: the order of the loops does not
matter (`offsets_perm`), the offsets of a loop cut into an outer and an inner loop add up to those of
the whole loop (`multiples_mul`), and a loop of one iteration adds nothing (`multiples_one`).
-/

namespace LoopNest

attribute [ext] Operands

namespace Operands

@[simp] theorem zero_left : (0 : Operands Int).left = 0 := rfl
@[simp] theorem zero_right : (0 : Operands Int).right = 0 := rfl
@[simp] theorem zero_outAux : (0 : Operands Int).outAux = 0 := rfl
@[simp] theorem zero_out : (0 : Operands Int).out = 0 := rfl

variable (x y : Operands Int) (n : Int)

@[simp] theorem add_left : (x + y).left = x.left + y.left := rfl
@[simp] theorem add_right : (x + y).right = x.right + y.right := rfl
@[simp] theorem add_outAux : (x + y).outAux = x.outAux + y.outAux := rfl
@[simp] theorem add_out : (x + y).out = x.out + y.out := rfl

@[simp] theorem sub_left : (x - y).left = x.left - y.left := rfl
@[simp] theorem sub_right : (x - y).right = x.right - y.right := rfl
@[simp] theorem sub_outAux : (x - y).outAux = x.outAux - y.outAux := rfl
@[simp] theorem sub_out : (x - y).out = x.out - y.out := rfl

@[simp] theorem scale_left : (x.scale n).left = x.left * n := rfl
@[simp] theorem scale_right : (x.scale n).right = x.right * n := rfl
@[simp] theorem scale_outAux : (x.scale n).outAux = x.outAux * n := rfl
@[simp] theorem scale_out : (x.scale n).out = x.out * n := rfl

@[simp] theorem neg_left : (-x).left = -x.left := mul_neg_one _
@[simp] theorem neg_right : (-x).right = -x.right := mul_neg_one _
@[simp] theorem neg_outAux : (-x).outAux = -x.outAux := mul_neg_one _
@[simp] theorem neg_out : (-x).out = -x.out := mul_neg_one _

/-- Strides and offsets form a group component by component; integer multiples are `scale`. -/
instance : AddCommGroup (Operands Int) where
  add_assoc x y z := by ext <;> simp [add_assoc]
  zero_add x := by ext <;> simp
  add_zero x := by ext <;> simp
  add_comm x y := by ext <;> simp [add_comm]
  neg_add_cancel x := by ext <;> simp
  sub_eq_add_neg x y := by ext <;> simp [sub_eq_add_neg]
  nsmul := nsmulRec
  zsmul n x := x.scale n
  zsmul_zero' x := by
    show x.scale 0 = 0
    ext <;> simp
  zsmul_succ' n x := by
    show x.scale _ = x.scale _ + x
    ext <;> simp [mul_add]
  zsmul_neg' n x := by
    show x.scale _ = -x.scale _
    ext <;> simp [Int.negSucc_eq] <;> ring

theorem zsmul_eq_scale : n • x = x.scale n := rfl

/-- Words wrap around as the sum of the offsets does. -/
theorem advanced_advanced (words : Operands UInt64) :
    (words.advanced x n).advanced y n = words.advanced (x + y) n := by
  have hword : ∀ (word : UInt64) (a b : Int), word + UInt64.ofInt (a * n) + UInt64.ofInt (b * n) =
      word + UInt64.ofInt ((a + b) * n) := fun word a b => by
    rw [add_mul, UInt64.ofInt_add, UInt64.add_assoc]
  exact Operands.ext (hword _ _ _) (hword _ _ _) (hword _ _ _) (hword _ _ _)

/-- The component of the output. -/
def outHom : Operands Int →+ Int where
  toFun := Operands.out
  map_zero' := rfl
  map_add' _ _ := rfl

/-- The component of the auxiliary tensor. -/
def outAuxHom : Operands Int →+ Int where
  toFun := Operands.outAux
  map_zero' := rfl
  map_add' _ _ := rfl

/-- The component of one operand stream. -/
def getHom (operand : Operand) : Operands Int →+ Int where
  toFun x := x.get operand
  map_zero' := by cases operand <;> rfl
  map_add' x y := by cases operand <;> rfl

/-- The component of one input. -/
def input {β : Type} (x : Operands β) : Side → β
  | .left => x.left
  | .right => x.right

theorem input_add (side : Side) : (x + y).input side = x.input side + y.input side := by
  cases side <;> rfl

theorem input_scale (side : Side) : (x.scale n).input side = x.input side * n := by
  cases side <;> rfl

/-- The component of one input. -/
def inputHom (side : Side) : Operands Int →+ Int where
  toFun x := x.input side
  map_zero' := by cases side <;> rfl
  map_add' x y := input_add x y side

end Operands

/-! ## Integers below a bound -/

theorem mem_upTo {bound i : Int} : i ∈ upTo bound ↔ 0 ≤ i ∧ i < bound := by
  simp only [upTo, List.mem_map, List.mem_range]
  constructor
  · rintro ⟨k, hk, rfl⟩
    omega
  · rintro ⟨h0, hlt⟩
    exact ⟨i.toNat, by omega, by omega⟩

theorem length_upTo (bound : Int) : (upTo bound).length = bound.toNat := by simp [upTo]

theorem nodup_upTo (bound : Int) : (upTo bound).Nodup :=
  List.nodup_range.map fun _ _ h => Int.ofNat_inj.1 h

theorem upTo_one : upTo 1 = [0] := rfl

theorem upTo_zero : upTo 0 = [] := rfl

theorem upTo_natCast (n : Nat) : upTo n = (List.range n).map fun (i : Nat) => (i : Int) := rfl

theorem upTo_add {a b : Int} (ha : 0 ≤ a) (hb : 0 ≤ b) :
    upTo (a + b) = upTo a ++ (upTo b).map fun j => a + j := by
  obtain ⟨m, rfl⟩ := Int.eq_ofNat_of_zero_le ha
  obtain ⟨n, rfl⟩ := Int.eq_ofNat_of_zero_le hb
  rw [← Nat.cast_add, upTo_natCast, upTo_natCast, upTo_natCast, List.range_add]
  simp [Function.comp_def]

/-- The numbers below a product in mixed radix, the second digit fastest. -/
theorem upTo_mul {a b : Int} (ha : 0 ≤ a) (hb : 0 ≤ b) :
    upTo (a * b) = (upTo a).flatMap fun i => (upTo b).map fun j => i * b + j := by
  obtain ⟨m, rfl⟩ := Int.eq_ofNat_of_zero_le ha
  induction m with
  | zero => simp [upTo_zero]
  | succ m ih =>
      have hm : (0 : Int) ≤ m := Int.natCast_nonneg m
      have hsucc : upTo ((m + 1 : Nat) : Int) = upTo m ++ [(m : Int)] := by
        rw [Nat.cast_add, upTo_add hm (by decide)]
        simp [upTo_one]
      rw [hsucc, List.flatMap_append, ← ih hm, Nat.cast_add, add_mul, Nat.cast_one, one_mul,
        upTo_add (Int.mul_nonneg hm hb) hb]
      simp

/-! ## Quotient and remainder -/

theorem tdiv_mul_add {n q r : Int} (hq : 0 ≤ q) (hr : 0 ≤ r ∧ r < n) :
    (q * n + r).tdiv n = q := by
  have hnonneg : 0 ≤ q * n + r := by
    have := Int.mul_nonneg hq (show 0 ≤ n by omega)
    omega
  rw [Int.tdiv_eq_ediv_of_nonneg hnonneg, Int.add_comm, Int.add_mul_ediv_right r q (by omega),
    Int.ediv_eq_zero_of_lt hr.1 hr.2, zero_add]

theorem tmod_mul_add {n q r : Int} (hq : 0 ≤ q) (hr : 0 ≤ r ∧ r < n) :
    (q * n + r).tmod n = r := by
  have hnonneg : 0 ≤ q * n + r := by
    have := Int.mul_nonneg hq (show 0 ≤ n by omega)
    omega
  rw [Int.tmod_eq_emod_of_nonneg hnonneg, Int.add_comm, Int.add_mul_emod_self_right,
    Int.emod_eq_of_lt hr.1 hr.2]

theorem exists_mul_add {n s : Int} (hn : 0 < n) (hs : 0 ≤ s) :
    ∃ q r, 0 ≤ q ∧ (0 ≤ r ∧ r < n) ∧ s = q * n + r :=
  ⟨s / n, s % n, Int.ediv_nonneg hs (by omega),
    ⟨Int.emod_nonneg s (by omega), Int.emod_lt_of_pos s hn⟩, (Int.ediv_mul_add_emod s n).symm⟩

/-! ## Sums of offset lists -/

section Sumset

variable {A B : Type} [AddCommGroup A] [AddCommGroup B]

/-- All sums of an offset of the first list and one of the second, the second running faster. -/
def sumset (xs ys : List A) : List A := xs.flatMap fun x => ys.map fun y => x + y

theorem sumset_nil (ys : List A) : sumset [] ys = [] := rfl

theorem sumset_append (xs xs' ys : List A) :
    sumset (xs ++ xs') ys = sumset xs ys ++ sumset xs' ys := List.flatMap_append

theorem zero_sumset (ys : List A) : sumset [0] ys = ys := by simp [sumset]

theorem sumset_zero (xs : List A) : sumset xs [0] = xs := by simp [sumset]

theorem mem_sumset {z : A} {xs ys : List A} :
    z ∈ sumset xs ys ↔ ∃ x ∈ xs, ∃ y ∈ ys, x + y = z := by
  simp [sumset]

theorem length_sumset (xs ys : List A) : (sumset xs ys).length = xs.length * ys.length := by
  induction xs with
  | nil => simp [sumset_nil]
  | cons x xs ih =>
      rw [← List.singleton_append, sumset_append, List.length_append, ih]
      simp [sumset, add_mul, Nat.add_comm]

theorem sumset_assoc (xs ys zs : List A) :
    sumset (sumset xs ys) zs = sumset xs (sumset ys zs) := by
  simp [sumset, List.flatMap_assoc, List.flatMap_map, List.map_flatMap, add_assoc]

theorem sumset_comm (xs ys : List A) : (sumset xs ys).Perm (sumset ys xs) := by
  rw [← Multiset.coe_eq_coe]
  simpa [sumset, ← Multiset.coe_bind, add_comm] using
    Multiset.bind_map_comm (xs : Multiset A) (ys : Multiset A) (f := fun x y => x + y)

theorem sumset_perm_left {xs xs' : List A} (h : xs.Perm xs') (ys : List A) :
    (sumset xs ys).Perm (sumset xs' ys) := h.flatMap_right _

theorem sumset_perm {xs xs' ys ys' : List A} (hx : xs.Perm xs') (hy : ys.Perm ys') :
    (sumset xs ys).Perm (sumset xs' ys') :=
  (sumset_perm_left hx ys).trans
    ((sumset_comm xs' ys).trans ((sumset_perm_left hy xs').trans (sumset_comm ys' xs')))

theorem sumset_left_comm (xs ys zs : List A) :
    (sumset xs (sumset ys zs)).Perm (sumset ys (sumset xs zs)) := by
  rw [← sumset_assoc, ← sumset_assoc]
  exact sumset_perm_left (sumset_comm xs ys) zs

theorem map_sumset (f : A →+ B) (xs ys : List A) :
    (sumset xs ys).map f = sumset (xs.map f) (ys.map f) := by
  simp [sumset, List.map_flatMap, List.flatMap_map, Function.comp_def]

/-- The multiples of a stride by the numbers below `size`. -/
def multiples (size : Int) (stride : A) : List A := (upTo size).map fun i => i • stride

theorem multiples_one (stride : A) : multiples 1 stride = [0] := by simp [multiples, upTo_one]

theorem length_multiples (size : Int) (stride : A) :
    (multiples size stride).length = size.toNat := by
  simp [multiples, length_upTo]

theorem map_multiples (f : A →+ B) (size : Int) (stride : A) :
    (multiples size stride).map f = multiples size (f stride) := by
  simp [multiples, Function.comp_def]

/-- Steps of `b` inner steps each, filled with inner steps, are inner steps. -/
theorem multiples_mul {a b : Int} (ha : 0 ≤ a) (hb : 0 ≤ b) (stride : A) :
    sumset (multiples a (b • stride)) (multiples b stride) = multiples (a * b) stride := by
  simp [sumset, multiples, upTo_mul ha hb, List.map_flatMap, List.flatMap_map, Function.comp_def,
    add_smul, mul_smul]

end Sumset

/-! ## Offsets of a loop list -/

section Offsets

variable {A B : Type} [AddCommGroup A] [AddCommGroup B] (stride : Loop → A)

/-- The offsets of all index tuples of a loop list, the innermost index fastest. -/
def offsets : List Loop → List A
  | [] => [0]
  | loop :: inner => sumset (multiples loop.size (stride loop)) (offsets inner)

theorem offsets_append (outer inner : List Loop) :
    offsets stride (outer ++ inner) = sumset (offsets stride outer) (offsets stride inner) := by
  induction outer with
  | nil => exact (zero_sumset _).symm
  | cons loop outer ih =>
      rw [List.cons_append, offsets, ih, offsets, sumset_assoc]

theorem offsets_perm {loops loops' : List Loop} (h : loops.Perm loops') :
    (offsets stride loops).Perm (offsets stride loops') := by
  induction h with
  | nil => exact List.Perm.refl _
  | cons loop _ ih => exact sumset_perm (List.Perm.refl _) ih
  | swap x y loops => exact sumset_left_comm _ _ _
  | trans _ _ ih ih' => exact ih.trans ih'

theorem map_offsets (f : A →+ B) (loops : List Loop) :
    (offsets stride loops).map f = offsets (fun loop => f (stride loop)) loops := by
  induction loops with
  | nil => simp [offsets]
  | cons loop loops ih => rw [offsets, map_sumset, map_multiples, ih, offsets]

theorem offsets_congr {stride stride' : Loop → A} {loops : List Loop}
    (h : ∀ loop ∈ loops, stride loop = stride' loop) :
    offsets stride loops = offsets stride' loops := by
  induction loops with
  | nil => rfl
  | cons loop loops ih =>
      rw [offsets, offsets, h loop List.mem_cons_self,
        ih fun l hl => h l (List.mem_cons_of_mem loop hl)]

/-- The loop at the head of a list contributes its multiples, or nothing if it is filtered out. -/
theorem offsets_filter_cons (q : Loop → Bool) (loop : Loop) (rest : List Loop) :
    offsets stride ((loop :: rest).filter q) =
      sumset (if q loop then multiples loop.size (stride loop) else [0])
        (offsets stride (rest.filter q)) := by
  cases hq : q loop with
  | true => simp [hq, offsets]
  | false => simp [hq, zero_sumset]

/-- Offsets of loops that do not move in some respect do not move in it. -/
theorem eq_zero_of_mem_offsets (f : A →+ B) {loops : List Loop}
    (h : ∀ loop ∈ loops, f (stride loop) = 0) {x : A} (hx : x ∈ offsets stride loops) :
    f x = 0 := by
  induction loops generalizing x with
  | nil =>
      obtain rfl := List.mem_singleton.1 hx
      exact map_zero f
  | cons loop loops ih =>
      rw [List.forall_mem_cons] at h
      obtain ⟨y, hy, z, hz, rfl⟩ := mem_sumset.1 hx
      obtain ⟨i, -, rfl⟩ := List.mem_map.1 hy
      rw [map_add, map_zsmul, h.1, smul_zero, ih h.2 hz, add_zero]

theorem zero_mem_offsets {loops : List Loop} (hsize : ∀ loop ∈ loops, 1 ≤ loop.size) :
    0 ∈ offsets stride loops := by
  induction loops with
  | nil => exact List.mem_singleton.2 rfl
  | cons loop loops ih =>
      rw [List.forall_mem_cons] at hsize
      refine mem_sumset.2 ⟨0, ?_, 0, ih hsize.2, add_zero 0⟩
      exact List.mem_map.2 ⟨0, mem_upTo.2 ⟨Int.le_refl 0, by omega⟩, zero_smul _ _⟩

theorem offsets_filter_ne_nil {loops : List Loop} (hsize : ∀ loop ∈ loops, 1 ≤ loop.size)
    (q : Loop → Bool) : offsets stride (loops.filter q) ≠ [] :=
  List.ne_nil_of_mem (zero_mem_offsets stride fun loop hloop =>
    hsize loop (List.mem_of_mem_filter hloop))

/-- The offsets of some of the loops are among those of all loops. -/
theorem mem_offsets_of_sublist {loops loops' : List Loop} (hsize : ∀ loop ∈ loops, 1 ≤ loop.size)
    (h : loops'.Sublist loops) {x : A} (hx : x ∈ offsets stride loops') :
    x ∈ offsets stride loops := by
  induction h generalizing x with
  | slnil => exact hx
  | cons loop _ ih =>
      rw [List.forall_mem_cons] at hsize
      refine mem_sumset.2 ⟨0, ?_, x, ih hsize.2 hx, zero_add x⟩
      exact List.mem_map.2 ⟨0, mem_upTo.2 ⟨Int.le_refl 0, by omega⟩, zero_smul _ _⟩
  | cons_cons loop _ ih =>
      rw [List.forall_mem_cons] at hsize
      obtain ⟨y, hy, z, hz, rfl⟩ := mem_sumset.1 hx
      exact mem_sumset.2 ⟨y, hy, z, ih hsize.2 hz, rfl⟩

theorem mem_offsets_of_filter {loops : List Loop} (hsize : ∀ loop ∈ loops, 1 ≤ loop.size)
    {q : Loop → Bool} {x : A} (h : x ∈ offsets stride (loops.filter q)) :
    x ∈ offsets stride loops := mem_offsets_of_sublist stride hsize List.filter_sublist h

/-- Loops that do not move may be left out, up to how often an offset is listed. -/
theorem mem_offsets_filter {q : Loop → Bool} {loops : List Loop}
    (hsize : ∀ loop ∈ loops, 1 ≤ loop.size)
    (hfixed : ∀ loop ∈ loops, q loop = false → stride loop = 0) {x : A} :
    x ∈ offsets stride (loops.filter q) ↔ x ∈ offsets stride loops := by
  induction loops generalizing x with
  | nil => exact Iff.rfl
  | cons loop rest ih =>
      rw [List.forall_mem_cons] at hsize hfixed
      rw [offsets_filter_cons, offsets, mem_sumset, mem_sumset]
      have hrest : ∀ {y : A}, y ∈ offsets stride (rest.filter q) ↔ y ∈ offsets stride rest :=
        ih hsize.2 hfixed.2
      cases hq : q loop with
      | true => simp only [if_true, hrest]
      | false =>
          -- a loop that does not move has the multiple zero, and no other
          have hmultiples : ∀ y, y ∈ multiples loop.size (stride loop) ↔ y = 0 := by
            intro y
            rw [hfixed.1 hq, multiples, List.mem_map]
            constructor
            · rintro ⟨i, -, rfl⟩
              exact smul_zero i
            · rintro rfl
              exact ⟨0, mem_upTo.2 ⟨Int.le_refl 0, by omega⟩, smul_zero 0⟩
          simp only [Bool.false_eq_true, if_false, List.mem_singleton, hmultiples, hrest]

/-- Whether a filter lets a loop of one iteration pass does not matter. -/
theorem offsets_filter_congr {q q' : Loop → Bool} {loops : List Loop}
    (h : ∀ loop ∈ loops, loop.size ≠ 1 → q loop = q' loop) :
    offsets stride (loops.filter q) = offsets stride (loops.filter q') := by
  induction loops with
  | nil => rfl
  | cons loop rest ih =>
      rw [List.forall_mem_cons] at h
      rw [offsets_filter_cons, offsets_filter_cons, ih h.2]
      by_cases hsize : loop.size = 1
      · rw [hsize, multiples_one, ite_self, ite_self]
      · rw [h.1 hsize]

/-- Number of index tuples. -/
theorem length_offsets (loops : List Loop) :
    (offsets stride loops).length = (loops.map fun loop => loop.size.toNat).prod := by
  induction loops with
  | nil => rfl
  | cons loop loops ih => rw [offsets, length_sumset, length_multiples, ih, List.map_cons,
      List.prod_cons]

/-- Loops with a single index tuple have one iteration each. -/
theorem size_eq_one_of_length_offsets {loops : List Loop} (hsize : ∀ loop ∈ loops, 1 ≤ loop.size)
    (h : (offsets stride loops).length = 1) : ∀ loop ∈ loops, loop.size = 1 := by
  intro loop hloop
  rw [length_offsets] at h
  have hdvd := List.dvd_prod (List.mem_map_of_mem (f := fun loop => loop.size.toNat) hloop)
  rw [h, Nat.dvd_one] at hdvd
  have := hsize loop hloop
  omega

end Offsets

/-- Offsets of loops that move forward, unless they have one iteration, lie between zero and the
offset of the last index tuple. -/
theorem offsets_bounds {stride : Loop → Int} {loops : List Loop}
    (hstride : ∀ loop ∈ loops, loop.size = 1 ∨ 0 ≤ stride loop) {x : Int}
    (hx : x ∈ offsets stride loops) :
    0 ≤ x ∧ x ≤ (loops.map fun loop => stride loop * (loop.size - 1)).sum := by
  induction loops generalizing x with
  | nil =>
      obtain rfl := List.mem_singleton.1 hx
      exact ⟨Int.le_refl 0, Int.le_refl 0⟩
  | cons loop rest ih =>
      rw [List.forall_mem_cons] at hstride
      obtain ⟨y, hy, z, hz, rfl⟩ := mem_sumset.1 hx
      obtain ⟨i, hi, rfl⟩ := List.mem_map.1 hy
      obtain ⟨hi0, hi1⟩ := mem_upTo.1 hi
      obtain ⟨hz0, hz1⟩ := ih hstride.2 hz
      rw [List.map_cons, List.sum_cons, smul_eq_mul]
      rcases hstride.1 with hone | hforward
      · obtain rfl : i = 0 := by omega
        rw [hone, zero_mul, sub_self, mul_zero]
        exact ⟨by omega, by omega⟩
      · have hlow := Int.mul_nonneg hi0 hforward
        have hhigh := Int.mul_le_mul_of_nonneg_left (show i ≤ loop.size - 1 by omega) hforward
        rw [mul_comm] at hhigh
        exact ⟨by omega, by omega⟩

/-- Loops with iterations have index tuples. -/
theorem one_le_prod_size {loops : List Loop} (hsize : ∀ loop ∈ loops, 1 ≤ loop.size) :
    1 ≤ (loops.map Loop.size).prod := by
  induction loops with
  | nil => simp
  | cons loop loops ih =>
      rw [List.forall_mem_cons] at hsize
      rw [List.map_cons, List.prod_cons]
      exact Int.mul_pos (by omega) (ih hsize.2)

namespace Loop

/-- The strides of a loop through the buffers of the caller: where an input is packed, its source
stride takes the place of the stride through the packing buffer. -/
def callerStrides (loop : Loop) : Operands Int :=
  { loop.strides with left := loop.bufferStride .left, right := loop.bufferStride .right }

/-- A loop along which neither input is packed. -/
def IsUnpacked (loop : Loop) : Prop := loop.sourceLeft = 0 ∧ loop.sourceRight = 0

theorem callerStrides_of_isUnpacked {loop : Loop} (h : loop.IsUnpacked) :
    loop.callerStrides = loop.strides := by
  obtain ⟨hl, hr⟩ := h
  ext <;> simp [callerStrides, bufferStride, isPacked, source, stride, hl, hr]

theorem IsUnpacked.isPacked_eq_false {loop : Loop} (h : loop.IsUnpacked) (side : Side) :
    loop.isPacked side = false := by
  obtain ⟨hl, hr⟩ := h
  cases side with
  | left => simp [isPacked, source, hl]
  | right => simp [isPacked, source, hr]

end Loop

end LoopNest
