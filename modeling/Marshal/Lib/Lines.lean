import Mathlib.Data.List.Basic
import Mathlib.Data.List.TakeWhile

/-! Texts cut into lines.

A text is lines that each end with a separator, and a rest without one. There is one way
only to see it so (`cut_spec`, `cut_joined`), and what is appended to a text goes on with its rest.

A scanner with a bounded buffer finds a line when it stands in the buffer with its newline, so it
stops at the first that has no room. Lines that all have room are the tokens, as they were written
(`scan_joined`). -/
namespace Lines
variable {α : Type*} [DecidableEq α] {sep : α}

/-- The lines, without their separators, and the rest. -/
def cut (sep : α) : List α → List (List α) × List α
  | [] => ([], [])
  | c :: s =>
    if c = sep then ([] :: (cut sep s).1, (cut sep s).2)
    else match (cut sep s).1 with
      | [] => ([], c :: (cut sep s).2)
      | l :: ls => ((c :: l) :: ls, (cut sep s).2)

/-- Lines with their separators. -/
def joined (sep : α) (ls : List (List α)) : List α := ls.flatMap fun l => l ++ [sep]

omit [DecidableEq α] in
@[simp] theorem joined_nil : joined sep [] = [] := rfl

omit [DecidableEq α] in
@[simp] theorem joined_cons (l : List α) (ls : List (List α)) :
    joined sep (l :: ls) = l ++ sep :: joined sep ls := by
  simp [joined]

omit [DecidableEq α] in
theorem joined_append (ls ls' : List (List α)) : joined sep (ls ++ ls') = joined sep ls ++ joined sep ls' :=
  List.flatMap_append

theorem cut_rest {r : List α} (h : sep ∉ r) : cut sep r = ([], r) := by
  induction r with
  | nil => rfl
  | cons c s ih =>
    rw [List.mem_cons, not_or] at h
    obtain ⟨hc, hs⟩ := h
    rw [cut, if_neg (Ne.symm hc), ih hs]

theorem cut_line {l : List α} (h : sep ∉ l) (s : List α) :
    cut sep (l ++ sep :: s) = (l :: (cut sep s).1, (cut sep s).2) := by
  induction l with
  | nil => rw [List.nil_append, cut, if_pos rfl]
  | cons c l ih =>
    rw [List.mem_cons, not_or] at h
    obtain ⟨hc, hl⟩ := h
    rw [List.cons_append, cut, if_neg (Ne.symm hc), ih hl]

/-- The first line of a text is what stands before the first separator. -/
theorem takeWhile_line {l : List α} (h : sep ∉ l) (s : List α) :
    (l ++ sep :: s).takeWhile (· != sep) = l ∧ (l ++ sep :: s).dropWhile (· != sep) = sep :: s := by
  have hall : ∀ c ∈ l, (c != sep) = true := by
    intro c hc
    rw [bne_iff_ne]
    rintro rfl
    exact h hc
  rw [List.takeWhile_append_of_pos hall, List.dropWhile_append_of_pos hall]
  simp

theorem cut_joined {ls : List (List α)} (hls : ∀ l ∈ ls, sep ∉ l) (s : List α) :
    cut sep (joined sep ls ++ s) = (ls ++ (cut sep s).1, (cut sep s).2) := by
  induction ls with
  | nil => rfl
  | cons l ls ih =>
    rw [joined_cons, List.append_assoc, List.cons_append, cut_line (hls l List.mem_cons_self),
      ih fun l' hl' => hls l' (List.mem_cons_of_mem l hl')]
    rfl

/-- The lines and the rest hold no separator, and are the text. -/
theorem cut_spec (sep : α) (s : List α) : (∀ l ∈ (cut sep s).1, sep ∉ l) ∧ sep ∉ (cut sep s).2 ∧
    joined sep (cut sep s).1 ++ (cut sep s).2 = s := by
  induction s with
  | nil => exact ⟨fun l hl => absurd hl List.not_mem_nil, List.not_mem_nil, rfl⟩
  | cons c s ih =>
    obtain ⟨hlines, hrest, hjoin⟩ := ih
    unfold cut
    by_cases hc : c = sep
    · subst hc
      rw [if_pos rfl]
      refine ⟨?_, hrest, by simp [hjoin]⟩
      intro l hl
      rcases List.mem_cons.mp hl with rfl | hl
      · exact List.not_mem_nil
      · exact hlines l hl
    · rw [if_neg hc]
      cases hcut : (cut sep s).1 with
      | nil =>
        rw [hcut, joined_nil, List.nil_append] at hjoin
        refine ⟨fun l hl => absurd hl List.not_mem_nil, ?_, by simp [hjoin]⟩
        exact List.not_mem_cons_of_ne_of_not_mem (Ne.symm hc) hrest
      | cons l ls =>
        rw [hcut] at hlines hjoin
        refine ⟨?_, hrest, by simpa using hjoin⟩
        intro l' hl'
        rcases List.mem_cons.mp hl' with rfl | hl'
        · exact List.not_mem_cons_of_ne_of_not_mem (Ne.symm hc) (hlines l List.mem_cons_self)
        · exact hlines l' (List.mem_cons_of_mem l hl')

/-- What is appended goes on with the rest. -/
theorem cut_append (s t : List α) : cut sep (s ++ t) =
    ((cut sep s).1 ++ (cut sep ((cut sep s).2 ++ t)).1, (cut sep ((cut sep s).2 ++ t)).2) := by
  obtain ⟨hlines, -, hjoin⟩ := cut_spec sep s
  conv_lhs => rw [← hjoin, List.append_assoc]
  exact cut_joined hlines _

theorem splitOn_eq (s : List α) : s.splitOn sep = (cut sep s).1 ++ [(cut sep s).2] := by
  have hparts : ∀ (ls : List (List α)) (r : List α), (∀ l ∈ ls, sep ∉ l) → sep ∉ r →
      (joined sep ls ++ r).splitOn sep = ls ++ [r] := by
    intro ls r hls hr
    have hnone : ∀ {l : List α}, sep ∉ l → ∀ x ∈ l, (x == sep) = false :=
      fun h x hx => beq_false_of_ne fun heq => h (heq ▸ hx)
    rw [List.splitOn_eq_splitOnP]
    induction ls with
    | nil => exact List.splitOnP_eq_singleton (hnone hr)
    | cons l ls ih =>
      rw [joined_cons, List.append_assoc, List.cons_append,
        List.splitOnP_append_cons_of_forall_mem (hnone (hls l List.mem_cons_self)) sep (beq_self_eq_true sep),
        ih fun l' hl' => hls l' (List.mem_cons_of_mem l hl')]
      rfl
  obtain ⟨hlines, hrest, hjoin⟩ := cut_spec sep s
  conv_lhs => rw [← hjoin]
  exact hparts _ _ hlines hrest

/-- No part of a split text holds the separator. -/
theorem notMem_splitOn {s l : List α} (h : l ∈ s.splitOn sep) : sep ∉ l := by
  obtain ⟨hlines, hrest, -⟩ := cut_spec sep s
  rw [splitOn_eq] at h
  rcases List.mem_append.mp h with h | h
  · exact hlines l h
  · rw [List.mem_singleton.mp h]
    exact hrest

end Lines

namespace Scanner

/-- A line without the carriage return at its end. -/
def dropCR (l : List UInt8) : List UInt8 := if l.getLast? = some 13 then l.dropLast else l

/-- The lines up to the first that has no room in a buffer of `max` bytes, and whether there is one.
The last line needs no newline. -/
def scan (max : Nat) (bs : List UInt8) : List (List UInt8) × Bool :=
  let lines := (Lines.cut 10 bs).1 ++ if (Lines.cut 10 bs).2 = [] then [] else [(Lines.cut 10 bs).2]
  ((lines.takeWhile fun l => l.length < max).map dropCR, lines.any fun l => max ≤ l.length)

theorem scan_joined (max : Nat) (ls : List (List UInt8)) (hline : ∀ l ∈ ls, 10 ∉ l)
    (hend : ∀ l ∈ ls, l.getLast? ≠ some 13) :
    scan max (Lines.joined 10 ls) = (ls.takeWhile fun l => l.length < max, ls.any fun l => max ≤ l.length) := by
  have hcut := Lines.cut_joined hline []
  simp only [List.append_nil, Lines.cut] at hcut
  have hdrop : ∀ l ∈ ls.takeWhile fun l => l.length < max, dropCR l = l :=
    fun l hl => if_neg (hend l (List.takeWhile_subset _ hl))
  simp only [scan, hcut, if_true, List.append_nil, List.map_congr_left hdrop, List.map_id']

end Scanner
