import LoopNest.Contraction
import LoopNest.Proofs.Checked

/-!
# What comes of compiling

Compiling checks the kernels, then the program for as many threads as there are tasks for, builds the
pool of these threads, and checks the scratch memory that it has reserved for them.
`Contraction.Compilation` lists what can come of it and what each refusal leaves behind: the numbers
of threads stay in their bounds, and the scratch memory stays reserved. What compiling keeps, and
what it is refused for, follows by cases (`Contraction.compilation`).
-/

namespace LoopNest

/-- A pool is built where the builder has one for as many threads. -/
theorem PoolBuilder.build_eq_ok_iff {pools : PoolBuilder} {threads : Nat} :
    pools.build threads = .ok () ↔ pools.Supplies threads := by
  unfold build Supplies
  split
  · rename_i hseveral
    cases pools threads with
    | error reason => simp [Except.mapError, hseveral]
    | ok => simp [Except.mapError]
  · rename_i hsingle
    simp [hsingle]

theorem PoolBuilder.supplies_unlimited (threads : Nat) : unlimited.Supplies threads := fun _ => rfl

namespace Contraction

variable {α : Type} (contraction : Contraction α)

/-- There is a program if it can be built, its scratch memory has a size, and there is a pool for its
threads. -/
theorem makeProgram_eq_ok_iff {kernels : KernelSet} {program : Program} {bytes : Nat} :
    contraction.makeProgram kernels = .ok (program, bytes) ↔
      Program.build contraction.loops kernels contraction.threads contraction.maxSlots =
          .ok program ∧
        program.scratchBytes contraction.types.out.bytes = .ok bytes ∧
        contraction.pools.Supplies contraction.threads.total := by
  rw [← PoolBuilder.build_eq_ok_iff]
  constructor
  · intro h
    obtain ⟨built, hbuild, h⟩ := bind_eq_ok.1 h
    obtain ⟨size, hsize, h⟩ := bind_eq_ok.1 h
    obtain ⟨⟨⟩, hpool, h⟩ := bind_eq_ok.1 h
    obtain ⟨rfl, rfl⟩ := Prod.mk.inj (pure_eq_ok.1 h)
    exact ⟨hbuild, hsize, hpool⟩
  · rintro ⟨hbuild, hsize, hpool⟩
    exact bind_eq_ok.2 ⟨program, hbuild, bind_eq_ok.2 ⟨bytes, hsize,
      bind_eq_ok.2 ⟨(), hpool, rfl⟩⟩⟩

/-- The contraction with the threads that it is compiled for. -/
def clamped : Contraction α :=
  { contraction with threads := Program.clampThreads contraction.loops contraction.threads }

variable [Scalar α]

/-- The contraction with `bytes` of scratch memory reserved for each of its threads. -/
def provided (bytes : Nat) : Contraction α :=
  { contraction with
    scratch := contraction.scratch.provide bytes contraction.threads.total Scalar.zero }

/-- What can come of compiling, with the contraction that is left. -/
inductive Compilation : Contraction α × Except Error Unit → Prop where
  | kept (hcompiled : contraction.program.isSome = true) : Compilation (contraction, .ok ())
  | noKernels {e : Error} (hnew : contraction.program = none)
      (h : contraction.makeKernels = .error e) : Compilation (contraction, .error e)
  | noProgram {kernels : KernelSet} {e : Error} (hnew : contraction.program = none)
      (hkernels : contraction.makeKernels = .ok kernels)
      (h : contraction.clamped.makeProgram kernels = .error e) :
      Compilation (contraction.clamped, .error e)
  | noMemory {kernels : KernelSet} {program : Program} {bytes : Nat} {e : Error}
      (hnew : contraction.program = none) (hkernels : contraction.makeKernels = .ok kernels)
      (hmade : contraction.clamped.makeProgram kernels = .ok (program, bytes))
      (h : (contraction.clamped.provided bytes).scratch.check contraction.clamped.threads.total
        bytes = .error e) : Compilation (contraction.clamped.provided bytes, .error e)
  | done {kernels : KernelSet} {program : Program} {bytes : Nat}
      (hnew : contraction.program = none) (hkernels : contraction.makeKernels = .ok kernels)
      (hmade : contraction.clamped.makeProgram kernels = .ok (program, bytes))
      (h : (contraction.clamped.provided bytes).scratch.check contraction.clamped.threads.total
        bytes = .ok ()) :
      Compilation ({ contraction.clamped.provided bytes with
        program := some program
        states := program.works.map program.initialState }, .ok ())

theorem compilation : contraction.Compilation contraction.compile := by
  unfold compile
  split
  · rename_i hcompiled
    exact .kept hcompiled
  rename_i hnew
  rw [isCompiled, Option.not_isSome_iff_eq_none] at hnew
  split
  · rename_i e hkernels
    exact .noKernels hnew hkernels
  rename_i kernels hkernels
  dsimp only
  split
  · rename_i e hmade
    exact .noProgram hnew hkernels hmade
  rename_i program bytes hmade
  split
  · rename_i e hcheck
    exact .noMemory hnew hkernels hmade hcheck
  · rename_i hcheck
    exact .done hnew hkernels hmade hcheck

variable {contraction}

/-- A contraction that cannot be compiled is refused for its kernels, for its program, or for the
memory that was provided. -/
theorem compile_eq_error {e : Error} (h : contraction.compile.2 = .error e) :
    contraction.makeKernels = .error e ∨
      ∃ kernels, contraction.makeKernels = .ok kernels ∧
        (contraction.clamped.makeProgram kernels = .error e ∨
          ∃ program bytes, contraction.clamped.makeProgram kernels = .ok (program, bytes) ∧
            (contraction.scratch.provide bytes contraction.clamped.threads.total
              Scalar.zero).check contraction.clamped.threads.total bytes = .error e) := by
  have hcases := contraction.compilation
  generalize contraction.compile = result at hcases h
  cases hcases with
  | kept => cases h
  | noKernels hnew hkernels =>
      obtain rfl := Except.error.inj h
      exact .inl hkernels
  | noProgram hnew hkernels hmade =>
      obtain rfl := Except.error.inj h
      exact .inr ⟨_, hkernels, .inl hmade⟩
  | noMemory hnew hkernels hmade hcheck =>
      obtain rfl := Except.error.inj h
      exact .inr ⟨_, hkernels, .inr ⟨_, _, hmade, hcheck⟩⟩
  | done => cases h

end Contraction

end LoopNest
