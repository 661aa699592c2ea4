import LoopNest.Guarded
import LoopNest.Loop
import Mathlib.Tactic

/-!
# Successful checked computations

Planning and compiling are chains of checked steps in `Except`. The lemmas of this file take a
chain that succeeded apart into its steps, so that no proof unfolds the chain itself: the value of a
bind (`bind_eq_ok`), of a guard (`guard_eq_ok`), and of a list of steps (`mapM_eq_ok`).
-/

namespace LoopNest

variable {ε α β : Type}

theorem bind_eq_ok {x : Except ε α} {f : α → Except ε β} {b : β} :
    (x >>= f) = .ok b ↔ ∃ a, x = .ok a ∧ f a = .ok b := by
  cases x with
  | error e => simp [bind, Except.bind]
  | ok a => simp [bind, Except.bind]

/-- A chain is refused by its first step, or by the rest. -/
theorem bind_eq_error {x : Except ε α} {f : α → Except ε β} {e : ε} :
    (x >>= f) = .error e ↔ x = .error e ∨ ∃ a, x = .ok a ∧ f a = .error e := by
  cases x with
  | error e' => simp [bind, Except.bind]
  | ok a => simp [bind, Except.bind]

theorem pure_eq_ok {a b : α} : (pure a : Except ε α) = .ok b ↔ a = b := by
  simp [pure, Except.pure]

/-- A guarded chain succeeds if the guard does not refuse. -/
theorem guard_eq_ok {c : Prop} [Decidable c] {e : ε} {x : Except ε α} {a : α} :
    (if c then .error e else x) = .ok a ↔ ¬c ∧ x = .ok a := by
  split <;> simp_all

/-- A guarded chain with a common rest succeeds if the guard does not refuse. -/
theorem guard_bind_eq_ok {c : Prop} [Decidable c] {e : ε} {f : Unit → Except ε α} {a : α} :
    (if c then (Except.error e : Except ε Unit) >>= f else f ()) = .ok a ↔
      ¬c ∧ f () = .ok a := guard_eq_ok

/-- The results of a list of steps are the results of its members in order. -/
theorem mapM_eq_ok {f : α → Except ε β} {xs : List α} {ys : List β} :
    xs.mapM f = .ok ys ↔ List.Forall₂ (fun x y => f x = .ok y) xs ys := by
  induction xs generalizing ys with
  | nil =>
      rw [List.mapM_nil, pure_eq_ok, List.forall₂_nil_left_iff]
      exact eq_comm
  | cons x xs ih =>
      rw [List.mapM_cons, bind_eq_ok, List.forall₂_cons_left_iff]
      constructor
      · rintro ⟨y, hy, h⟩
        obtain ⟨zs, hzs, h⟩ := bind_eq_ok.1 h
        rw [pure_eq_ok] at h
        exact ⟨y, zs, hy, ih.1 hzs, h.symm⟩
      · rintro ⟨y, zs, hy, hzs, rfl⟩
        exact ⟨y, hy, bind_eq_ok.2 ⟨zs, ih.2 hzs, rfl⟩⟩

/-- A list of steps succeeds if each of them does. -/
theorem exists_mapM_iff {f : α → Except ε β} {xs : List α} :
    (∃ ys, xs.mapM f = .ok ys) ↔ ∀ x ∈ xs, ∃ y, f x = .ok y := by
  induction xs with
  | nil => simp [List.mapM_nil, pure_eq_ok]
  | cons x xs ih =>
      simp only [mapM_eq_ok, List.forall₂_cons_left_iff] at ih ⊢
      rw [List.forall_mem_cons, ← ih]
      constructor
      · rintro ⟨-, y, ys, hy, hys, rfl⟩
        exact ⟨⟨y, hy⟩, ys, hys⟩
      · rintro ⟨⟨y, hy⟩, ys, hys⟩
        exact ⟨_, y, ys, hy, hys, rfl⟩

/-- A list of steps with their results mapped. -/
theorem mapM_map {γ : Type} {f : α → Except ε β} {f' : α → Except ε γ} {g : β → γ}
    (h : ∀ x, f' x = (f x).map g) (xs : List α) : xs.mapM f' = (xs.mapM f).map (List.map g) := by
  induction xs with
  | nil => rfl
  | cons x xs ih =>
      rw [List.mapM_cons, List.mapM_cons, h, ih]
      cases f x with
      | error e => rfl
      | ok y => cases xs.mapM f <;> rfl

/-- What depends on a part of a result only is the same where the part is the same. -/
theorem map_eq_map_of_map_eq {γ : Type} {f : α → β} {x x' : Except ε α} (h : x'.map f = x.map f)
    {g g' : α → γ} (hg : ∀ a a', f a' = f a → g' a' = g a) : x'.map g' = x.map g := by
  cases x with
  | error e =>
      cases x' with
      | error e' => exact congrArg Except.error (Except.error.inj h)
      | ok a' => exact nomatch h
  | ok a =>
      cases x' with
      | error e' => exact nomatch h
      | ok a' => exact congrArg Except.ok (hg a a' (Except.ok.inj h))

/-- What depends on a part of a first result only is refused alike, and has the same part, where the
part is the same. -/
theorem map_bind_eq_of_map_eq {γ δ : Type} {f : α → β} {x x' : Except ε α} (h : x'.map f = x.map f)
    {g g' : α → Except ε γ} {part : γ → δ}
    (hg : ∀ a a', f a' = f a → (g' a').map part = (g a).map part) :
    (x' >>= g').map part = (x >>= g).map part := by
  cases x with
  | error e =>
      cases x' with
      | error e' => exact congrArg Except.error (Except.error.inj h)
      | ok a' => exact nomatch h
  | ok a =>
      cases x' with
      | error e' => exact nomatch h
      | ok a' => exact hg a a' (Except.ok.inj h)

/-- Checked loops have at least one iteration. -/
theorem size_pos_of_checkSizes {index : Nat} {loops : List Loop}
    (h : checkSizes index loops = .ok ()) : ∀ loop ∈ loops, 1 ≤ loop.size := by
  induction loops generalizing index with
  | nil => simp
  | cons loop rest ih =>
      obtain ⟨hsize, hrest⟩ := guard_eq_ok.1 h
      exact List.forall_mem_cons.2 ⟨by omega, ih hrest⟩

/-- Each result belongs to an index. -/
theorem exists_left_of_forall₂ {ι β : Type} {R : ι → β → Prop} {is : List ι} {bs : List β}
    (h : List.Forall₂ R is bs) {b : β} (hb : b ∈ bs) : ∃ i ∈ is, R i b := by
  induction h with
  | nil => simp at hb
  | cons hib _ ih =>
      rcases List.mem_cons.1 hb with rfl | hb
      · exact ⟨_, List.mem_cons_self, hib⟩
      · obtain ⟨j, hj, hjb⟩ := ih hb
        exact ⟨j, List.mem_cons_of_mem _ hj, hjb⟩

end LoopNest
