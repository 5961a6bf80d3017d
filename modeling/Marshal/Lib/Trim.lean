import Mathlib.Data.List.TakeWhile

/-! Texts trimmed at both ends.

`trim p s` is `s` without the elements with `p` at its front and at its end. It is what is
left when any such elements are put around a text that neither begins nor ends with one. -/
namespace Trim
variable {α : Type*} {p : α → Bool} {s front back : List α}

def trim (p : α → Bool) (s : List α) : List α := ((s.dropWhile p).reverse.dropWhile p).reverse

/-- The text neither begins nor ends with an element to be trimmed. -/
def Trimmed (p : α → Bool) (s : List α) : Prop :=
  (∀ c ∈ s.head?, p c = false) ∧ ∀ c ∈ s.getLast?, p c = false

theorem dropWhile_eq_self (h : ∀ c ∈ s.head?, p c = false) : s.dropWhile p = s := by
  cases s with
  | nil => rfl
  | cons c rest => rw [List.dropWhile_cons, if_neg (by simp [h c rfl])]

theorem head_dropWhile (s : List α) : ∀ c ∈ (s.dropWhile p).head?, p c = false := by
  intro c hc
  have hnot := List.head?_dropWhile_not p s
  rw [Option.mem_def.mp hc] at hnot
  simpa using hnot

theorem dropWhile_all (h : ∀ c ∈ s, p c = true) : s.dropWhile p = [] :=
  List.dropWhile_eq_nil_iff.mpr h

theorem trim_eq_self (h : Trimmed p s) : trim p s = s := by
  unfold trim
  rw [dropWhile_eq_self h.1, dropWhile_eq_self, List.reverse_reverse]
  intro c hc
  rw [List.head?_reverse] at hc
  exact h.2 c hc

theorem trim_all (h : ∀ c ∈ s, p c = true) : trim p s = [] := by
  unfold trim
  rw [dropWhile_all h]
  rfl

/-- What is trimmed may stand on both sides. -/
theorem trim_append (hfront : ∀ c ∈ front, p c = true) (hback : ∀ c ∈ back, p c = true) :
    trim p (front ++ s ++ back) = trim p s := by
  unfold trim
  rw [List.append_assoc, List.dropWhile_append_of_pos hfront, List.dropWhile_append]
  split
  · rename_i hempty
    rw [List.isEmpty_iff.mp hempty, dropWhile_all hback]
  · rw [List.reverse_append, List.dropWhile_append_of_pos fun c hc => hback c (List.mem_reverse.mp hc)]

/-- A text is its trimmed form with what was trimmed on both sides. -/
theorem split_trim (p : α → Bool) (s : List α) : ∃ front back, (∀ c ∈ front, p c = true) ∧
    (∀ c ∈ back, p c = true) ∧ s = front ++ trim p s ++ back := by
  have hend : s.dropWhile p = trim p s ++ ((s.dropWhile p).reverse.takeWhile p).reverse := by
    unfold trim
    rw [← List.reverse_append, List.takeWhile_append_dropWhile, List.reverse_reverse]
  refine ⟨s.takeWhile p, ((s.dropWhile p).reverse.takeWhile p).reverse, ?_, ?_, ?_⟩
  · intro c hc
    exact List.mem_takeWhile_imp hc
  · intro c hc
    exact List.mem_takeWhile_imp (List.mem_reverse.mp hc)
  · rw [List.append_assoc, ← hend, List.takeWhile_append_dropWhile]

theorem trim_subset (p : α → Bool) (s : List α) : trim p s ⊆ s := by
  obtain ⟨front, back, -, -, hs⟩ := split_trim p s
  intro c hc
  rw [hs]
  exact List.mem_append_left back (List.mem_append_right front hc)

theorem length_trim_le (p : α → Bool) (s : List α) : (trim p s).length ≤ s.length := by
  obtain ⟨front, back, -, -, hs⟩ := split_trim p s
  have hparts := congrArg List.length hs
  simp only [List.length_append] at hparts
  omega

/-- Only a trimmed text is as long as what is left of it. -/
theorem trim_eq_of_length (h : s.length ≤ (trim p s).length) : trim p s = s := by
  obtain ⟨front, back, -, -, hs⟩ := split_trim p s
  have hparts := congrArg List.length hs
  simp only [List.length_append] at hparts
  have hfront : front = [] := List.length_eq_zero_iff.mp (by omega)
  have hback : back = [] := List.length_eq_zero_iff.mp (by omega)
  rw [hfront, hback, List.nil_append, List.append_nil] at hs
  exact hs.symm

theorem trimmed_trim (p : α → Bool) (s : List α) : Trimmed p (trim p s) := by
  refine ⟨?_, ?_⟩
  · intro c hc
    -- the front of the trimmed text is the front of the text without what was trimmed there
    have hfront : trim p s <+: s.dropWhile p := by
      have hsuffix := List.dropWhile_suffix p (l := (s.dropWhile p).reverse)
      rw [← List.reverse_prefix, List.reverse_reverse] at hsuffix
      exact hsuffix
    obtain ⟨rest, hrest⟩ := hfront
    refine head_dropWhile s c ?_
    rw [← hrest, List.head?_append, Option.mem_def.mp hc]
    rfl
  · intro c hc
    unfold trim at hc
    rw [List.getLast?_reverse] at hc
    exact head_dropWhile _ c hc

theorem trim_eq_self_iff : trim p s = s ↔ Trimmed p s :=
  ⟨fun h => h ▸ trimmed_trim p s, trim_eq_self⟩

end Trim
