import Mathlib.Data.List.Basic

/-! Texts cut into blocks of one length.

Blocks are cut off the front of a text as long as it is not shorter than a block. What is
appended to the text goes on with the rest. -/
namespace Blocks
variable {α : Type*} {n : Nat}

/-- The blocks of length `n`, and the rest; for 0 there are none. -/
def cut (n : Nat) (p : List α) : List (List α) × List α :=
  if 0 < n ∧ n ≤ p.length then
    let r := cut n (p.drop n)
    (p.take n :: r.1, r.2)
  else ([], p)
termination_by p.length
decreasing_by
  simp only [List.length_drop]
  omega

theorem cut_short {p : List α} (h : p.length < n) : cut n p = ([], p) := by
  rw [cut, if_neg (by omega)]

theorem cut_long (hn : 0 < n) {p : List α} (h : n ≤ p.length) :
    cut n p = (p.take n :: (cut n (p.drop n)).1, (cut n (p.drop n)).2) := by
  rw [cut, if_pos ⟨hn, h⟩]

/-- A text is shorter than a block, or begins with one. -/
theorem block_cases (n : Nat) (p : List α) : p.length < n ∨ ∃ b q, b.length = n ∧ p = b ++ q := by
  rcases Nat.lt_or_ge p.length n with h | h
  · exact Or.inl h
  · exact Or.inr ⟨p.take n, p.drop n, List.length_take_of_le h, (List.take_append_drop n p).symm⟩

theorem cut_block (hn : 0 < n) {b : List α} (hb : b.length = n) (q : List α) :
    cut n (b ++ q) = (b :: (cut n q).1, (cut n q).2) := by
  rw [cut_long hn (by simp only [List.length_append]; omega), List.take_left' hb, List.drop_left' hb]

/-- The blocks have the length, the rest is shorter, and together they are the text. -/
theorem cut_spec (hn : 0 < n) (p : List α) : (∀ b ∈ (cut n p).1, b.length = n) ∧ (cut n p).2.length < n ∧
    (cut n p).1.flatten ++ (cut n p).2 = p := by
  induction hlen : p.length using Nat.strongRecOn generalizing p with
  | _ len ih =>
    rcases block_cases n p with hshort | ⟨b, q, hb, rfl⟩
    · rw [cut_short hshort]
      exact ⟨fun b hb => absurd hb List.not_mem_nil, hshort, rfl⟩
    · rw [List.length_append] at hlen
      obtain ⟨hblocks, hrest, hjoin⟩ := ih q.length (by omega) q rfl
      rw [cut_block hn hb]
      refine ⟨?_, hrest, by simp [hjoin]⟩
      intro b' hb'
      rcases List.mem_cons.mp hb' with rfl | hb'
      · exact hb
      · exact hblocks b' hb'

/-- What is appended goes on with the rest. -/
theorem cut_append (hn : 0 < n) (p q : List α) : cut n (p ++ q) =
    ((cut n p).1 ++ (cut n ((cut n p).2 ++ q)).1, (cut n ((cut n p).2 ++ q)).2) := by
  induction hlen : p.length using Nat.strongRecOn generalizing p with
  | _ len ih =>
    rcases block_cases n p with hshort | ⟨b, p', hb, rfl⟩
    · rw [cut_short hshort]
      rfl
    · rw [List.length_append] at hlen
      rw [List.append_assoc, cut_block hn hb, cut_block hn hb, ih p'.length (by omega) p' rfl]
      rfl

end Blocks
