import Mathlib.Tactic.TypeStar

/-! Lists that grow at their end.

An entry keeps its place for good, so its index serves as its name. What stands at an
index after one entry was added stood there before or is the new entry. -/
namespace Growing
variable {α : Type*} {l more : List α} {a x : α} {i : Nat}

theorem keep (h : l[i]? = some x) : (l ++ more)[i]? = some x := by
  rw [List.getElem?_append_left (List.getElem?_eq_some_iff.mp h).1]
  exact h

theorem old_or_new (h : (l ++ [a])[i]? = some x) : l[i]? = some x ∨ i = l.length ∧ x = a := by
  rcases Nat.lt_trichotomy i l.length with hlt | heq | hgt
  · rw [List.getElem?_append_left hlt] at h
    exact .inl h
  · subst heq
    rw [List.getElem?_concat_length] at h
    exact .inr ⟨rfl, (Option.some.inj h).symm⟩
  · have hlt := (List.getElem?_eq_some_iff.mp h).1
    rw [List.length_append, List.length_singleton] at hlt
    omega

/-- Only the place after the last changes. -/
theorem concat_other (h : i ≠ l.length) : (l ++ [a])[i]? = l[i]? := by
  rcases Nat.lt_or_gt_of_ne h with hlt | hgt
  · exact List.getElem?_append_left hlt
  · rw [List.getElem?_eq_none (Nat.le_of_lt hgt), List.getElem?_eq_none]
    rw [List.length_append, List.length_singleton]
    exact hgt

end Growing
