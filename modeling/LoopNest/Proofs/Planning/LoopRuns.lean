import LoopNest.Proofs.Planning.Choices

/-!
# Loops of planning that end by themselves

Two loops of planning have no count of passes. One halves the larger of two target sizes for as long
as a condition asks for it, the other moves loops of an axis out of a list until their sizes reach a
target. `HalveRun` and `MoveRun` are finite runs of these loops as sequences of single passes, without
any bound on their number; every index and every divisor of a pass is checked.

From targets of at least one and loops of at least one iteration both loops end, with the results of
`halveWhile` and `takeInner` (`exists_halveRun`, `exists_moveRun`). What bounds `halveWhile` and
`takeInner` themselves is therefore never what ends them: the larger target gets smaller with each
pass, and a pass that moves a whole loop leaves one loop less, while one that splits a loop leaves
nothing of the target.
-/

namespace LoopNest

/-! ## Computations that succeed -/

/-- A computation that succeeds, with a result of which `p` holds. -/
def Succeeds {α : Type} (x : Except Error α) (p : α → Prop) : Prop := ∃ a, x = .ok a ∧ p a

namespace Succeeds

variable {α β : Type} {p : α → Prop} {q : β → Prop}

theorem ok {a : α} (h : p a) : Succeeds (.ok a) p := ⟨a, rfl, h⟩

theorem mono {p' : α → Prop} {x : Except Error α} (h : Succeeds x p) (hp : ∀ a, p a → p' a) :
    Succeeds x p' := by
  obtain ⟨a, ha, hpa⟩ := h
  exact ⟨a, ha, hp a hpa⟩

theorem chain {x : Except Error α} {f : α → Except Error β} (hx : Succeeds x p)
    (hf : ∀ a, p a → Succeeds (f a) q) : Succeeds (x >>= f) q := by
  obtain ⟨a, rfl, ha⟩ := hx
  exact hf a ha

/-- A first step with a known result. -/
theorem step {x : Except Error α} {a : α} {f : α → Except Error β} (hx : x = .ok a)
    (hf : Succeeds (f a) q) : Succeeds (x >>= f) q := by
  subst hx
  exact hf

/-- What is known of the result of a computation is known of every result it may have. -/
theorem of_eq {x : Except Error α} {a : α} (h : Succeeds x p) (hx : x = .ok a) : p a := by
  obtain ⟨b, hb, hpb⟩ := h
  rwa [Except.ok.inj (hb.symm.trans hx)] at hpb

end Succeeds

/-- A divisor of at least one gives the quotient. -/
theorem succeeds_quotient {a b : Int} (hb : 1 ≤ b) :
    Succeeds (quotient a b) fun q => q = a.tdiv b :=
  ⟨_, quotient_eq_ok (by omega), rfl⟩

/-! ## Loops with iterations -/

/-- All loops have at least one iteration. -/
def Sized (loops : List Loop) : Prop := ∀ loop ∈ loops, 1 ≤ loop.size

instance (loops : List Loop) : Decidable (Sized loops) :=
  inferInstanceAs (Decidable (∀ loop ∈ loops, 1 ≤ loop.size))

namespace Sized

variable {a b : List Loop}

theorem of_perm (h : a.Perm b) (ha : Sized a) : Sized b :=
  fun loop hloop => ha loop (h.mem_iff.2 hloop)

theorem filter (q : Loop → Bool) (h : Sized a) : Sized (a.filter q) :=
  fun loop hloop => h loop (List.mem_of_mem_filter hloop)

theorem append (ha : Sized a) (hb : Sized b) : Sized (a ++ b) := fun loop hloop =>
  (List.mem_append.1 hloop).elim (ha loop) (hb loop)

theorem cons {loop : Loop} (hloop : 1 ≤ loop.size) (h : Sized a) : Sized (loop :: a) :=
  List.forall_mem_cons.2 ⟨hloop, h⟩

theorem eraseIdx (h : Sized a) (index : Nat) : Sized (a.eraseIdx index) :=
  fun loop hloop => h loop (List.mem_of_mem_eraseIdx hloop)

theorem set (h : Sized a) (index : Nat) {new : Loop} (hnew : 1 ≤ new.size) :
    Sized (a.set index new) := by
  intro loop hloop
  rcases List.mem_or_eq_of_mem_set hloop with hmem | rfl
  · exact h loop hmem
  · exact hnew

theorem sizeOfAxis_pos (h : Sized a) (axis : Axis) : 1 ≤ sizeOfAxis a axis := by
  rw [sizeOfAxis_eq_prod]
  exact one_le_prod_size (h.filter fun loop => loop.axis = axis)

end Sized

/-- Splitting a loop with iterations leaves iterations in both parts. -/
theorem succeeds_split {loop : Loop} (target : Int) (mode : Mode) (h : 1 ≤ loop.size) :
    Succeeds (loop.split target mode) fun pair => 1 ≤ pair.outer.size ∧ 1 ≤ pair.inner.size := by
  obtain ⟨hinner, q, hq, hsize, hquotient⟩ := splitSize_cofactor target h
  refine (succeeds_quotient hinner).chain fun outer houter => .ok ⟨?_, hinner⟩
  show 1 ≤ outer
  rw [houter, hquotient]
  exact hq

/-! ## Halving targets -/

/-- A run of the loop that halves the larger of two numbers while `again` asks for it. -/
inductive HalveRun (again : Int → Int → Except Error Bool) : Int → Int → Int × Int → Prop where
  | done {m n : Int} (hagain : again m n = .ok false) : HalveRun again m n (m, n)
  | pass {m n : Int} {result : Int × Int} (hagain : again m n = .ok true)
      (hrest : HalveRun again (halveLarger m n).1 (halveLarger m n).2 result) :
      HalveRun again m n result

/-- Two numbers of at least one are halved a finite number of times, to numbers of at least one, if
the condition is decided for all of these and does not ask to halve one and one. -/
theorem exists_halveRun {again : Int → Int → Except Error Bool}
    (hagain : ∀ m n, 1 ≤ m → 1 ≤ n → Succeeds (again m n) fun b => b = true → 1 < m * n) {m n : Int}
    (hm : 1 ≤ m) (hn : 1 ≤ n) :
    Succeeds (halveWhile again m n) fun result =>
      HalveRun again m n result ∧ 1 ≤ result.1 ∧ 1 ≤ result.2 := by
  induction hsum : m.toNat + n.toNat using Nat.strong_induction_on generalizing m n with
  | _ sum ih =>
      obtain ⟨b, hb, hlarge⟩ := hagain m n hm hn
      unfold halveWhile
      cases b with
      | false =>
          rw [hb]
          exact .ok ⟨.done hb, hm, hn⟩
      | true =>
          rw [hb]
          dsimp only
          rw [if_neg (show ¬(m < 1 ∧ n < 1) by omega)]
          by_cases hlt : m < n
          · have hrun := ih (m.toNat + (n / 2).toNat) (by omega) hm (show 1 ≤ n / 2 by omega) rfl
            rw [if_pos hlt]
            refine hrun.mono fun result h => ⟨.pass hb ?_, h.2⟩
            rw [halveLarger, if_pos hlt]
            exact h.1
          · -- the larger number is more than one, because the product is
            have htwo : 2 ≤ m := by
              by_contra hone
              have hsame : m = 1 ∧ n = 1 := by omega
              rw [hsame.1, hsame.2] at hlarge
              exact absurd (hlarge rfl) (by decide)
            have hrun := ih ((m / 2).toNat + n.toNat) (by omega) (show 1 ≤ m / 2 by omega) hn rfl
            rw [if_neg hlt]
            refine hrun.mono fun result h => ⟨.pass hb ?_, h.2⟩
            rw [halveLarger, if_neg hlt]
            exact h.1

/-! ## Moving loops -/

/-- One pass of the loop that moves loops out of a list: the loop at an index is moved, or its inner
part if the loop is longer than the target, and the target is divided by the size of the loop. -/
def movePass (mode : Mode) (index : Nat) (target : Int) (state : Moved) :
    Except Error (Int × Moved) := do
  let loop ← entry state.rest index
  let left ← quotient target loop.size
  if target < loop.size then
    let pair ← loop.split target mode
    let rest :=
      if pair.outer.size = 1 then state.rest.eraseIdx index else state.rest.set index pair.outer
    return (left, ⟨rest, pair.inner :: state.moved⟩)
  else return (left, ⟨state.rest.eraseIdx index, { loop with mode := mode } :: state.moved⟩)

/-- A run of the loop that moves loops of an axis, the lightest first: it ends when the target is
reached or no loop of the axis is left. -/
inductive MoveRun (axis : Axis) (mode : Mode) : Int → Moved → Moved → Prop where
  | reached {target : Int} {state : Moved} (htarget : target ≤ 1) :
      MoveRun axis mode target state state
  | exhausted {target : Int} {state : Moved} (hnone : lightest state.rest axis none = none) :
      MoveRun axis mode target state state
  | pass {target left : Int} {state next result : Moved} {found : Found} (htarget : 1 < target)
      (hfound : lightest state.rest axis none = some found)
      (hpass : movePass mode found.index target state = .ok (left, next))
      (hrest : MoveRun axis mode left next result) : MoveRun axis mode target state result

theorem moveInner_of_le_one {axis : Axis} {mode : Mode} {target : Int} (htarget : target ≤ 1)
    (count : Nat) (state : Moved) : moveInner axis mode count target state = .ok state := by
  cases count with
  | zero => rfl
  | succ count => rw [moveInner, if_pos htarget]

/-- A pass leaves nothing of the target, or one loop less. -/
theorem succeeds_movePass (mode : Mode) {index : Nat} {target : Int} {state : Moved} {loop : Loop}
    (htarget : 1 < target) (hin : state.rest[index]? = some loop) (hrest : Sized state.rest)
    (hmoved : Sized state.moved) :
    Succeeds (movePass mode index target state) fun next =>
      (next.1 ≤ 1 ∨ next.2.rest.length + 1 = state.rest.length) ∧
        Sized next.2.rest ∧ Sized next.2.moved := by
  have hsize : 1 ≤ loop.size := hrest loop (List.mem_of_getElem? hin)
  have hentry : entry state.rest index = .ok loop := by rw [entry, hin]
  refine .step hentry ((succeeds_quotient hsize).chain fun left hleft => ?_)
  dsimp only
  split
  · rename_i hlt
    have hnothing : left = 0 := by rw [hleft, Int.tdiv_eq_zero_of_lt (by omega) hlt]
    refine (succeeds_split target mode hsize).chain fun pair hpair => .ok ⟨?_, ?_, ?_⟩
    · exact .inl (by simp [hnothing])
    · dsimp only
      split
      · exact hrest.eraseIdx _
      · exact hrest.set _ hpair.1
    · exact hmoved.cons hpair.2
  · have hindex := (List.getElem?_eq_some_iff.1 hin).1
    refine .ok ⟨.inr ?_, hrest.eraseIdx _, hmoved.cons hsize⟩
    rw [List.length_eraseIdx_of_lt hindex]
    omega

/-- While the target is not reached, moving is a pass and then the rest. -/
theorem moveInner_eq_pass {axis : Axis} {mode : Mode} {count : Nat} {target : Int} {state : Moved}
    {found : Found} (htarget : 1 < target) (hfound : lightest state.rest axis none = some found)
    (hrest : Sized state.rest) :
    moveInner axis mode (count + 1) target state =
      movePass mode found.index target state >>= fun next =>
        moveInner axis mode count next.1 next.2 := by
  have hin : state.rest[found.index]? = some found.loop := (lightest_spec hfound).1
  have hsize : 1 ≤ found.loop.size := hrest found.loop (List.mem_of_getElem? hin)
  have hquotient : quotient target found.loop.size = .ok (target.tdiv found.loop.size) :=
    quotient_eq_ok (by omega)
  rw [moveInner, if_neg (by omega), movePass, entry, hfound, hin]
  by_cases hlt : target < found.loop.size
  · obtain ⟨pair, hpair, -⟩ := succeeds_split target mode hsize
    have hnothing : target.tdiv found.loop.size ≤ 1 := by
      rw [Int.tdiv_eq_zero_of_lt (by omega) hlt]
      decide
    simp only [hquotient, hpair, hlt, if_true, bind, Except.bind, pure, Except.pure,
      moveInner_of_le_one hnothing]
  · simp only [hquotient, hlt, if_false, bind, Except.bind, pure, Except.pure]

/-- With as many passes as there are loops, moving ends by itself. -/
theorem exists_moveRun_of_count {axis : Axis} {mode : Mode} {count : Nat} {target : Int}
    {state : Moved} (hcount : target ≤ 1 ∨ state.rest.length ≤ count) (hrest : Sized state.rest)
    (hmoved : Sized state.moved) :
    Succeeds (moveInner axis mode count target state) fun result =>
      MoveRun axis mode target state result ∧ Sized result.rest ∧ Sized result.moved := by
  induction count generalizing target state with
  | zero =>
      rcases hcount with htarget | hcount
      · exact .ok ⟨.reached htarget, hrest, hmoved⟩
      · have hempty : state.rest = [] := List.length_eq_zero_iff.1 (by omega)
        exact .ok ⟨.exhausted (by rw [hempty]; rfl), hrest, hmoved⟩
  | succ count ih =>
      by_cases htarget : target ≤ 1
      · rw [moveInner_of_le_one htarget]
        exact .ok ⟨.reached htarget, hrest, hmoved⟩
      have hlarge : 1 < target := by omega
      cases hfound : lightest state.rest axis none with
      | none =>
          rw [moveInner, if_neg htarget, hfound]
          exact .ok ⟨.exhausted hfound, hrest, hmoved⟩
      | some found =>
          obtain ⟨⟨left, next⟩, hpass, hless, hrest', hmoved'⟩ :=
            succeeds_movePass mode hlarge (lightest_spec hfound).1 hrest hmoved
          rw [moveInner_eq_pass hlarge hfound hrest]
          have hcount' : left ≤ 1 ∨ next.rest.length ≤ count :=
            hless.imp_right fun (h : next.rest.length + 1 = state.rest.length) => by omega
          exact .step hpass ((ih hcount' hrest' hmoved').mono fun result h =>
            ⟨.pass hlarge hfound hpass h.1, h.2⟩)

/-- Moving loops out of a list of loops with iterations ends by itself. -/
theorem exists_moveRun (axis : Axis) (mode : Mode) (target : Int) {loops : List Loop}
    (h : Sized loops) :
    Succeeds (takeInner axis mode target loops) fun result =>
      MoveRun axis mode target ⟨loops, []⟩ result ∧ Sized result.rest ∧ Sized result.moved :=
  exists_moveRun_of_count (.inr (Nat.le_refl _)) h (by simp [Sized])

end LoopNest
