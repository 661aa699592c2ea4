/-!
# Buffers and updates

A buffer is an array of elements that is addressed by integers; an address outside it holds nothing
and is never changed. A kernel acts on a buffer by a list of updates, each of which replaces one
element by a function of itself.
-/

namespace LoopNest

/-- An array of elements. -/
abbrev Buffer (α : Type) := Array α

/-- A change of one element. -/
structure Update (α : Type) where
  address : Int
  change : α → α

namespace Buffer

variable {α : Type}

/-- The element at an address, if there is one. -/
def read? (buffer : Buffer α) (address : Int) : Option α :=
  if 0 ≤ address then buffer[address.toNat]? else none

/-- The element at an address, or a substitute for addresses outside the buffer. -/
def readD (buffer : Buffer α) (address : Int) (substitute : α) : α :=
  (read? buffer address).getD substitute

/-- The buffer with the element at an address replaced by a function of itself. -/
def update (buffer : Buffer α) (u : Update α) : Buffer α :=
  if 0 ≤ u.address then buffer.modify u.address.toNat u.change else buffer

/-- The buffer after a list of updates in order. -/
def updateAll (buffer : Buffer α) (updates : List (Update α)) : Buffer α :=
  updates.foldl update buffer

theorem updateAll_append (buffer : Buffer α) (first second : List (Update α)) :
    updateAll buffer (first ++ second) = updateAll (updateAll buffer first) second :=
  List.foldl_append

end Buffer

/-- An update with its address moved. -/
def Update.shift {α : Type} (u : Update α) (base : Int) : Update α := ⟨base + u.address, u.change⟩

/-- The integers from zero up to, but without, a bound. -/
def upTo (bound : Int) : List Int := (List.range bound.toNat).map fun (i : Nat) => (i : Int)

end LoopNest
