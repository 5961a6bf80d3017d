import Mathlib.Algebra.Group.Nat.Defs
import Mathlib.Data.List.TakeDrop

/-! Decimal numbers in texts.

A natural number is written by its digits, and read from the run of digits a text
starts with (`leading`), which ends where no digit follows (`Stops`). A fraction is
written with a fixed number of places, less the zeros at its end (`fraction`); its
value is then that of its digits, scaled by the places left out. -/
namespace Decimal

/-! ### Whole numbers -/

def value (ds : List Char) : Nat := Nat.ofDigitChars 10 ds 0

/-- The digits a text starts with, and the rest. -/
def leading (s : List Char) : List Char × List Char :=
  (s.takeWhile Char.isDigit, s.dropWhile Char.isDigit)

/-- No digit stands at the front. -/
def Stops (s : List Char) : Prop := ∀ c rest, s = c :: rest → c.isDigit = false

theorem value_toDigits (n : Nat) : value (Nat.toDigits 10 n) = n := Nat.ofDigitChars_ten_toDigits

theorem isDigit_toDigits (n : Nat) : ∀ c ∈ Nat.toDigits 10 n, c.isDigit = true := fun _ hc =>
  Nat.isDigit_of_mem_toDigits (by decide) (by decide) hc

theorem toDigits_ne_nil (n : Nat) : Nat.toDigits 10 n ≠ [] := by
  rw [Nat.toDigits_eq_if (by decide)]
  split <;> simp

theorem stops_cons {c : Char} {rest : List Char} (h : c.isDigit = false) : Stops (c :: rest) := by
  intro d more heq
  cases heq
  exact h

theorem leading_append {ds s : List Char} (hds : ∀ c ∈ ds, c.isDigit = true) (hs : Stops s) :
    leading (ds ++ s) = (ds, s) := by
  have hfront : s.takeWhile Char.isDigit = [] ∧ s.dropWhile Char.isDigit = s := by
    cases s with
    | nil => exact ⟨rfl, rfl⟩
    | cons c rest => simp [hs c rest rfl]
  unfold leading
  rw [List.takeWhile_append_of_pos hds, List.dropWhile_append_of_pos hds, hfront.1, hfront.2,
    List.append_nil]

/-! ### Fractions -/

/-- The last `places` digits of `v`, less the zeros at the end unless something was printed
behind them. -/
def fraction : Nat → Nat → Bool → List Char
  | 0, _, _ => []
  | places + 1, v, printed =>
    let printed := printed || v % 10 ≠ 0
    fraction places (v / 10) printed ++ if printed then [Nat.digitChar (v % 10)] else []

theorem isDigit_fraction (places v : Nat) (printed : Bool) :
    ∀ c ∈ fraction places v printed, c.isDigit = true := by
  induction places generalizing v printed with
  | zero => simp [fraction]
  | succ places ih =>
    intro c hc
    rcases List.mem_append.mp hc with hc | hc
    · exact ih _ _ c hc
    · split at hc
      · rw [List.mem_singleton.mp hc]
        rw [Nat.isDigit_digitChar]
        exact decide_eq_true (Nat.mod_lt _ (by decide))
      · cases hc

theorem value_concat (ds : List Char) {d : Nat} (h : d < 10) :
    value (ds ++ [Nat.digitChar d]) = 10 * value ds + d := by
  unfold value
  rw [Nat.ofDigitChars_append, Nat.ofDigitChars_cons_digitChar_of_lt_ten h, Nat.ofDigitChars_nil]

/-- Nothing is left out once something is printed. -/
theorem length_fraction (places v : Nat) : (fraction places v true).length = places := by
  induction places generalizing v with
  | zero => rfl
  | succ places ih => simp [fraction, ih]

/-- The digits give the last places of `v`. -/
theorem value_fraction (places v : Nat) (printed : Bool) :
    (fraction places v printed).length ≤ places ∧
    value (fraction places v printed) * 10 ^ (places - (fraction places v printed).length) =
      v % 10 ^ places := by
  induction places generalizing v printed with
  | zero => exact ⟨Nat.le_refl _, by simp [fraction, value, Nat.mod_one]⟩
  | succ places ih =>
    have hsplit : v % 10 ^ (places + 1) = 10 * (v / 10 % 10 ^ places) + v % 10 := by
      rw [Nat.pow_succ', Nat.mod_mul, Nat.add_comm]
    by_cases hprinted : (printed || decide (v % 10 ≠ 0)) = true
    · obtain ⟨-, hrest⟩ := ih (v / 10) true
      have hfraction : fraction (places + 1) v printed =
          fraction places (v / 10) true ++ [Nat.digitChar (v % 10)] := by
        simp only [fraction, hprinted, if_true]
      rw [length_fraction, Nat.sub_self, Nat.pow_zero, Nat.mul_one] at hrest
      rw [hfraction, value_concat _ (Nat.mod_lt _ (by decide)), hsplit, hrest]
      simp [length_fraction]
    · rw [Bool.not_eq_true] at hprinted
      obtain ⟨hlength, hrest⟩ := ih (v / 10) false
      have hfraction : fraction (places + 1) v printed = fraction places (v / 10) false := by
        simp only [fraction, hprinted, Bool.false_eq_true, if_false, List.append_nil]
      have hzero : v % 10 = 0 := by
        simpa using (Bool.or_eq_false_iff.mp hprinted).2
      rw [hfraction, hsplit, hzero, ← hrest]
      refine ⟨Nat.le_succ_of_le hlength, ?_⟩
      rw [Nat.succ_sub hlength, Nat.pow_succ]
      ac_rfl

end Decimal
