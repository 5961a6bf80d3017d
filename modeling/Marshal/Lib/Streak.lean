import Mathlib.Data.List.Basic

/-! Streaks in a history.

A history is a list with the newest entry first. Its `streak` is how many of the
newest entries have a property without a break, and `Streaks n` says that no block
of entries that all have it is longer than `n`. Both follow the history as it
grows, so a counter that is reset on a break bounds every block ever seen. -/
namespace History
variable {α : Type*} (p : α → Bool)

/-- The length of the unbroken run of entries with `p` at the new end. -/
def streak (history : List α) : Nat := (history.takeWhile p).length

/-- Every block of consecutive entries that all have `p` has at most `n` entries. -/
def Streaks (n : Nat) (history : List α) : Prop :=
  ∀ block, block <:+: history → (∀ a ∈ block, p a = true) → block.length ≤ n

variable {p}

theorem streak_cons_pos {a : α} {history : List α} (h : p a = true) :
    streak p (a :: history) = streak p history + 1 := by
  simp [streak, h]

theorem streak_cons_neg {a : α} {history : List α} (h : p a = false) :
    streak p (a :: history) = 0 := by
  simp [streak, h]

theorem streaks_nil (n : Nat) : Streaks p n [] := by
  intro block hblock _
  rw [List.infix_nil.mp hblock]
  exact Nat.zero_le n

/-- A block at the new end is part of the streak. -/
theorem prefix_le_streak {block history : List α} (hblock : block <+: history)
    (hall : ∀ a ∈ block, p a = true) : block.length ≤ streak p history := by
  induction block generalizing history with
  | nil => exact Nat.zero_le _
  | cons a rest ih =>
    obtain ⟨more, rfl⟩ := hblock
    rw [List.cons_append, streak_cons_pos (hall a (by simp)), List.length_cons]
    have hrest := ih (List.prefix_append rest more) (fun b hb => hall b (by simp [hb]))
    omega

/-- A new entry keeps the bound if the streak it continues stays within it. -/
theorem Streaks.cons {n : Nat} {a : α} {history : List α} (h : Streaks p n history)
    (hstreak : streak p (a :: history) ≤ n) : Streaks p n (a :: history) := by
  intro block hblock hall
  rcases List.infix_cons_iff.mp hblock with hnew | hold
  · exact Nat.le_trans (prefix_le_streak hnew hall) hstreak
  · exact h block hold hall

theorem Streaks.tail {n : Nat} {a : α} {history : List α} (h : Streaks p n (a :: history)) :
    Streaks p n history :=
  fun block hblock hall => h block (hblock.trans (List.infix_cons (List.infix_refl history))) hall

end History
