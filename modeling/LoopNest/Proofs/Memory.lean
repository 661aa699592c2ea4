import LoopNest.Buffer
import LoopNest.Kernel.Main
import Mathlib.Tactic

/-!
# Elements of a buffer under updates

A list of updates acts on each element of a buffer by itself. `effectAt` is what the list does to
the element at one address; `Buffer.read?_updateAll` says that reading an element after the updates
gives the effect on the element before. The size of a buffer never changes.

Updates that add exactly (`ExactSum`) act by the sum of what they add (`effectAt_adds`). Where the
updates of a list have different addresses, at most one of them acts on an element (`effectAt_map`).
-/

namespace LoopNest

variable {α : Type}

namespace Buffer

theorem read?_eq_some_iff {buffer : Buffer α} {address : Int} {x : α} :
    read? buffer address = some x ↔ 0 ≤ address ∧ buffer[address.toNat]? = some x := by
  unfold read?
  split
  · rename_i h
    simp [h]
  · rename_i h
    simp [h]

/-- An address holds an element if it lies between zero and the size of the buffer. -/
theorem exists_read? {buffer : Buffer α} {address : Int} (h0 : 0 ≤ address)
    (hlt : address < buffer.size) : ∃ x, read? buffer address = some x := by
  have hbound : address.toNat < buffer.size := by omega
  exact ⟨buffer[address.toNat], read?_eq_some_iff.2 ⟨h0, Array.getElem?_eq_getElem hbound⟩⟩

theorem read?_eq_none {buffer : Buffer α} {address : Int}
    (h : ¬(0 ≤ address ∧ address < buffer.size)) : read? buffer address = none := by
  unfold read?
  split
  · exact Array.getElem?_eq_none (by omega)
  · rfl

/-- Buffers of the same size with the same elements are the same. -/
theorem ext_read? {buffer buffer' : Buffer α} (hsize : buffer.size = buffer'.size)
    (h : ∀ address, read? buffer address = read? buffer' address) : buffer = buffer' := by
  refine Array.ext hsize fun i hi hi' => ?_
  have hread := h i
  rw [read?, read?, if_pos (Int.natCast_nonneg i), if_pos (Int.natCast_nonneg i), Int.toNat_natCast,
    Array.getElem?_eq_getElem hi, Array.getElem?_eq_getElem hi'] at hread
  exact Option.some.inj hread

theorem readD_of_read? {buffer : Buffer α} {address : Int} {x : α}
    (h : read? buffer address = some x) (substitute : α) : readD buffer address substitute = x := by
  rw [readD, h, Option.getD_some]

theorem size_update (buffer : Buffer α) (u : Update α) : (buffer.update u).size = buffer.size := by
  unfold update
  split
  · exact Array.size_modify
  · rfl

theorem read?_update (buffer : Buffer α) (u : Update α) (address : Int) :
    read? (buffer.update u) address =
      if u.address = address then (read? buffer address).map u.change else read? buffer address := by
  unfold update read?
  by_cases haddress : 0 ≤ address
  · by_cases hu : 0 ≤ u.address
    · have hsame : u.address.toNat = address.toNat ↔ u.address = address := by omega
      rw [if_pos haddress, if_pos haddress, if_pos hu, Array.getElem?_modify]
      by_cases heq : u.address = address
      · rw [if_pos heq, if_pos (hsame.2 heq)]
      · rw [if_neg heq, if_neg (mt hsame.1 heq)]
    · rw [if_neg hu, if_neg (show u.address ≠ address by omega)]
  · rw [if_neg haddress, if_neg haddress, Option.map_none, ite_self]

theorem size_updateAll (buffer : Buffer α) (updates : List (Update α)) :
    (buffer.updateAll updates).size = buffer.size := by
  induction updates generalizing buffer with
  | nil => rfl
  | cons u rest ih => exact (ih (buffer.update u)).trans (size_update buffer u)

end Buffer

/-! ## Effects of updates on one element -/

/-- What a list of updates does to the element at an address. -/
def effectAt (address : Int) : List (Update α) → α → α
  | [], x => x
  | u :: rest, x => effectAt address rest (if u.address = address then u.change x else x)

theorem Buffer.read?_updateAll (buffer : Buffer α) (updates : List (Update α)) (address : Int) :
    read? (buffer.updateAll updates) address =
      (read? buffer address).map (effectAt address updates) := by
  induction updates generalizing buffer with
  | nil => exact Option.map_id.symm ▸ rfl
  | cons u rest ih =>
      have hrest := ih (buffer.update u)
      rw [read?_update] at hrest
      refine hrest.trans ?_
      by_cases h : u.address = address
      · rw [if_pos h, Option.map_map]
        exact congrArg (fun f => Option.map f _) (by funext x; simp [effectAt, h])
      · rw [if_neg h]
        exact congrArg (fun f => Option.map f _) (by funext x; simp [effectAt, h])

/-- Updates with the same effect on every element leave the same buffer. -/
theorem Buffer.updateAll_congr {updates updates' : List (Update α)}
    (h : ∀ address x, effectAt address updates x = effectAt address updates' x) (buffer : Buffer α) :
    buffer.updateAll updates = buffer.updateAll updates' := by
  refine ext_read? (by rw [size_updateAll, size_updateAll]) fun address => ?_
  rw [read?_updateAll, read?_updateAll]
  exact congrArg (fun f => Option.map f _) (funext (h address))

/-- Steps that make updates of a buffer make all of them one after the other. -/
theorem foldl_updateAll {ι β : Type} {f : Buffer α → β → Buffer α} {g : ι → List (Update α)}
    {is : List ι} {bs : List β}
    (h : List.Forall₂ (fun i b => ∀ out, f out b = Buffer.updateAll out (g i)) is bs)
    (out : Buffer α) : bs.foldl f out = Buffer.updateAll out (is.flatMap g) := by
  induction h generalizing out with
  | nil => rfl
  | cons hib _ ih => rw [List.foldl_cons, hib, ih, List.flatMap_cons, Buffer.updateAll_append]

theorem effectAt_append (address : Int) (first second : List (Update α)) (x : α) :
    effectAt address (first ++ second) x = effectAt address second (effectAt address first x) := by
  induction first generalizing x with
  | nil => rfl
  | cons u first ih => exact ih _

theorem effectAt_flatMap {β : Type} (address : Int) (f : β → List (Update α)) (bs : List β)
    (x : α) : effectAt address (bs.flatMap f) x =
      bs.foldl (fun x b => effectAt address (f b) x) x := by
  induction bs generalizing x with
  | nil => rfl
  | cons b bs ih => rw [List.flatMap_cons, effectAt_append, ih, List.foldl_cons]

/-- Updates of other elements have no effect. -/
theorem effectAt_eq_self {address : Int} {updates : List (Update α)}
    (h : ∀ u ∈ updates, u.address ≠ address) (x : α) : effectAt address updates x = x := by
  induction updates with
  | nil => rfl
  | cons u rest ih =>
      rw [List.forall_mem_cons] at h
      rw [effectAt, if_neg h.1, ih h.2]

/-- Members of a list whose updates are all of other elements may be left out. -/
theorem effectAt_flatMap_filter {β : Type} {address : Int} {f : β → List (Update α)}
    (q : β → Bool) {bs : List β}
    (h : ∀ b ∈ bs, q b = false → ∀ u ∈ f b, u.address ≠ address) (x : α) :
    effectAt address (bs.flatMap f) x = effectAt address ((bs.filter q).flatMap f) x := by
  induction bs generalizing x with
  | nil => rfl
  | cons b rest ih =>
      rw [List.forall_mem_cons] at h
      rw [List.flatMap_cons, effectAt_append, ih h.2]
      cases hq : q b with
      | true => rw [List.filter_cons_of_pos hq, List.flatMap_cons, effectAt_append]
      | false =>
          rw [List.filter_cons_of_neg (by simp [hq]), effectAt_eq_self (h.1 hq)]

/-- Only the order of the members with one key matters if members with different keys update different
elements. -/
theorem effectAt_flatMap_congr {β : Type} {κ : Type} [DecidableEq κ] (key : β → κ)
    {f : β → List (Update α)} {bs bs' : List β}
    (hsame : ∀ k, bs'.filter (fun b => key b = k) = bs.filter fun b => key b = k)
    (hapart : ∀ b ∈ bs, ∀ c ∈ bs, ∀ u ∈ f b, ∀ w ∈ f c, u.address = w.address → key b = key c)
    (address : Int) (x : α) :
    effectAt address (bs'.flatMap f) x = effectAt address (bs.flatMap f) x := by
  have hmem : ∀ b ∈ bs', b ∈ bs := fun b hb => by
    have hkey : b ∈ bs'.filter fun c => key c = key b := List.mem_filter.2 ⟨hb, by simp⟩
    rw [hsame] at hkey
    exact List.mem_of_mem_filter hkey
  -- only the members with the key of one that updates the element matter, if there is one
  by_cases hacts : ∃ b ∈ bs, ∃ u ∈ f b, u.address = address
  · obtain ⟨b, hb, u, hu, haddress⟩ := hacts
    have hother : ∀ c ∈ bs, decide (key c = key b) = false → ∀ w ∈ f c, w.address ≠ address :=
      fun c hc hne w hw heq =>
        of_decide_eq_false hne (hapart c hc b hb w hw u hu (heq.trans haddress.symm))
    rw [effectAt_flatMap_filter _ hother, effectAt_flatMap_filter _ fun c hc => hother c (hmem c hc),
      hsame]
  · have hnone : ∀ {cs : List β}, (∀ c ∈ cs, c ∈ bs) → effectAt address (cs.flatMap f) x = x :=
      fun hcs => effectAt_eq_self (fun u hu heq => by
        obtain ⟨c, hc, hu⟩ := List.mem_flatMap.1 hu
        exact hacts ⟨c, hcs c hc, u, hu, heq⟩) x
    rw [hnone hmem, hnone fun c hc => hc]

/-- Of updates at different addresses one acts on each element. -/
theorem effectAt_map {β : Type} {address : β → Int} (change : β → α → α) {bs : List β}
    (hnodup : (bs.map address).Nodup) {b : β} (hb : b ∈ bs) (x : α) :
    effectAt (address b) (bs.map fun c => ⟨address c, change c⟩) x = change b x := by
  induction bs with
  | nil => exact absurd hb List.not_mem_nil
  | cons c rest ih =>
      rw [List.map_cons, List.nodup_cons] at hnodup
      obtain ⟨hc, hrest⟩ := hnodup
      rw [List.map_cons, effectAt]
      rcases List.mem_cons.1 hb with rfl | hb
      · rw [if_pos rfl]
        refine effectAt_eq_self (fun u hu => ?_) _
        obtain ⟨d, hd, rfl⟩ := List.mem_map.1 hu
        exact fun heq => hc (heq ▸ List.mem_map_of_mem hd)
      · have hne : address c ≠ address b := by
          intro heq
          exact hc (heq ▸ List.mem_map_of_mem hb)
        rw [if_neg hne]
        exact ih hrest hb

theorem effectAt_shift (address base : Int) (updates : List (Update α)) (x : α) :
    effectAt (base + address) (updates.map fun u => u.shift base) x =
      effectAt address updates x := by
  induction updates generalizing x with
  | nil => rfl
  | cons u rest ih =>
      have hsame : (u.shift base).address = base + address ↔ u.address = address :=
        Int.add_right_inj base
      rw [List.map_cons, effectAt, ih, effectAt]
      by_cases h : u.address = address
      · rw [if_pos h, if_pos (hsame.2 h)]
        rfl
      · rw [if_neg h, if_neg (mt hsame.1 h)]

/-- Elements that are added exactly: sums do not depend on the order or the grouping of their terms. -/
class ExactSum (α : Type) [Scalar α] [AddCommMonoid α] : Prop where
  zero_eq : (Scalar.zero : α) = 0
  add_eq : ∀ x y : α, Scalar.add x y = x + y

instance : ExactSum Int := ⟨rfl, fun _ _ => rfl⟩

/-- Updates that add exactly act on an element by the sum of what they add to it. -/
theorem effectAt_adds [Scalar α] [AddCommMonoid α] [ExactSum α] {β : Type} (address : Int)
    (place : β → Int) (amount : β → α) (bs : List β) (x : α) :
    effectAt address (bs.map fun b => KernelShape.addAt (place b) (amount b)) x =
      x + (bs.map fun b => if place b = address then amount b else 0).sum := by
  induction bs generalizing x with
  | nil => exact (add_zero x).symm
  | cons b rest ih =>
      rw [List.map_cons, effectAt, ih, List.map_cons, List.sum_cons, ← add_assoc]
      congr 1
      by_cases h : place b = address
      · rw [if_pos h, if_pos (show (KernelShape.addAt (place b) (amount b)).address = address from h)]
        exact ExactSum.add_eq x (amount b)
      · rw [if_neg h, if_neg (show (KernelShape.addAt (place b) (amount b)).address ≠ address from h),
          add_zero]

/-- A sum over joined lists is the sum of the sums over each. -/
theorem sum_map_flatMap [AddCommMonoid α] {β γ : Type} (f : β → List γ) (amount : γ → α)
    (bs : List β) :
    ((bs.flatMap f).map amount).sum = (bs.map fun b => ((f b).map amount).sum).sum := by
  induction bs with
  | nil => rfl
  | cons b rest ih => rw [List.flatMap_cons, List.map_append, List.sum_append, ih, List.map_cons,
      List.sum_cons]

end LoopNest
