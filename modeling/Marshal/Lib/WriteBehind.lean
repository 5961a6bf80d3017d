import Mathlib.Logic.Basic
import Mathlib.Tactic.TypeStar

/-! A value in memory and the file that many writers save it to.

A writer that changes the value has a save to do: it reads the value some time later, and
writes what it has read later still. As long as the file is up to date or some writer has
still to read the value, or has read it as it is, the last one of them leaves the file up
to date. -/
namespace WriteBehind

inductive Writer (V : Type*) where
  /-- Nothing is to be saved. -/
  | idle
  /-- The value has still to be read. -/
  | pending
  /-- The value was read and is about to be written. -/
  | holding (v : V)

variable {ι V F : Type*}

/-- The writer will leave `mem` in the file, if that stays as it is. -/
def Due (mem : V) : Writer V → Prop
  | .idle => False
  | .pending => True
  | .holding v => v = mem

def Covered (encode : V → F) (mem : V) (file : F) (w : ι → Writer V) : Prop :=
  file = encode mem ∨ ∃ i, Due mem (w i)

section Covered
variable {encode : V → F} {mem : V} {file : F} {w w' : ι → Writer V}

/-- When every writer is done the file is up to date. -/
theorem Covered.saved (h : Covered encode mem file w) (hidle : ∀ i, w i = .idle) :
    file = encode mem := by
  rcases h with hfile | ⟨i, hdue⟩
  · exact hfile
  · rw [hidle i] at hdue
    exact hdue.elim

/-- A writer has changed the value, has still to read it, or reads it. -/
theorem covered_of_due {i : ι} (h : Due mem (w i)) : Covered encode mem file w := .inr ⟨i, h⟩

/-- No writer drops its save. -/
theorem Covered.mono (h : Covered encode mem file w) (hw : ∀ i, Due mem (w i) → Due mem (w' i)) :
    Covered encode mem file w' :=
  h.imp_right fun hdue => hdue.imp hw

/-- A writer drops its save where the file is up to date or another one has a save to do. -/
theorem covered_drop {i : ι} (h : file = encode mem ∨ ∃ j, j ≠ i ∧ Due mem (w j))
    (hw : ∀ j, j ≠ i → w' j = w j) : Covered encode mem file w' := by
  rcases h with hfile | ⟨j, hj, hdue⟩
  · exact .inl hfile
  · exact .inr ⟨j, (hw j hj).symm ▸ hdue⟩

/-- A writer writes the value as it is, or what it has read where another one has a save to do. -/
theorem covered_write {i : ι} {v : V} (h : v = mem ∨ ∃ j, j ≠ i ∧ Due mem (w j))
    (hw : ∀ j, j ≠ i → w' j = w j) : Covered encode mem (encode v) w' :=
  covered_drop (h.imp_left (congrArg encode)) hw

end Covered
end WriteBehind
