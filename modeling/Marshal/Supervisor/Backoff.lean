import Mathlib.Algebra.Order.Ring.Int
import Marshal.Supervisor.Instance

/-! The delay before a restart.

As long as the loop of `Backoff` goes on, the delay is below the cap, and so far below the
largest duration that it can be doubled once more. -/
namespace Marshal.Supervisor

/-- What the loop multiplies to, before it is cut to 64 bits. -/
def products (d cap : Int) : Nat → List Int
  | 0 => []
  | attempt + 1 =>
    d * 2 :: if duration (d * 2) ≥ cap then [] else products (duration (d * 2)) cap attempt

/-- `math.MinInt64` to `math.MaxInt64`. -/
def IsDuration (d : Int) : Prop := -2 ^ 63 ≤ d ∧ d < 2 ^ 63

theorem duration_of_isDuration {d : Int} (h : IsDuration d) : duration d = d := by
  obtain ⟨hlow, hhigh⟩ := h
  rw [duration, Int.bmod_def]
  omega

/-- A delay that can be doubled. -/
theorem isDuration_double {d : Int} (hd : 0 ≤ d ∧ d < 2 ^ 62) : IsDuration (d * 2) := by
  rw [IsDuration]
  omega

theorem backoffLoop_succ {d : Int} (hd : 0 ≤ d ∧ d < 2 ^ 62) (cap : Int) (attempt : Nat) :
    backoffLoop d cap (attempt + 1) = if d * 2 ≥ cap then cap else backoffLoop (d * 2) cap attempt := by
  rw [backoffLoop, duration_of_isDuration (isDuration_double hd)]

theorem products_succ {d : Int} (hd : 0 ≤ d ∧ d < 2 ^ 62) (cap : Int) (attempt : Nat) :
    products d cap (attempt + 1) = d * 2 :: if d * 2 ≥ cap then [] else products (d * 2) cap attempt := by
  rw [products, duration_of_isDuration (isDuration_double hd)]

section Range
variable {d cap : Int}

theorem backoffLoop_eq (hd : 0 ≤ d ∧ d < 2 ^ 62) (hcap : cap ≤ 2 ^ 62) (attempt : Nat) :
    backoffLoop d cap attempt = min (d * 2 ^ attempt) cap := by
  induction attempt generalizing d with
  | zero =>
    rw [backoffLoop, pow_zero, mul_one]
    split <;> omega
  | succ attempt ih =>
    have hpow : d * 2 ^ (attempt + 1) = d * 2 * 2 ^ attempt := by rw [pow_succ', mul_assoc]
    rw [backoffLoop_succ hd, hpow]
    by_cases hreached : d * 2 ≥ cap
    · have hgrows : d * 2 ≤ d * 2 * 2 ^ attempt := le_mul_of_one_le_right (by omega) (one_le_pow₀ (by decide))
      rw [if_pos hreached, min_eq_right (le_trans hreached hgrows)]
    · rw [if_neg hreached, ih (by omega)]

theorem products_isDuration (hd : 0 ≤ d ∧ d < 2 ^ 62) (hcap : cap ≤ 2 ^ 62) (attempt : Nat) :
    ∀ p ∈ products d cap attempt, IsDuration p := by
  induction attempt generalizing d with
  | zero => exact fun p hp => absurd hp List.not_mem_nil
  | succ attempt ih =>
    rw [products_succ hd]
    refine List.forall_mem_cons.mpr ⟨isDuration_double hd, ?_⟩
    by_cases hreached : d * 2 ≥ cap
    · rw [if_pos hreached]
      exact fun p hp => absurd hp List.not_mem_nil
    · rw [if_neg hreached]
      exact ih (by omega)

end Range

/-- **The delay is the base doubled for each attempt, up to the cap; no product leaves 64 bits; and
more attempts never shorten it.** -/
theorem Backoff_exact {base cap : Int} (hbase : 0 ≤ base ∧ base < 2 ^ 62) (hcap : 0 ≤ cap ∧ cap ≤ 2 ^ 62)
    (attempt : Nat) :
    Backoff attempt base cap = min (base * 2 ^ attempt) cap ∧
      (∀ p ∈ products base cap attempt, IsDuration p) ∧
      ∀ more, attempt ≤ more → Backoff attempt base cap ≤ Backoff more base cap := by
  refine ⟨backoffLoop_eq hbase hcap.2 attempt, products_isDuration hbase hcap.2 attempt, fun more hmore => ?_⟩
  have hgrows : base * 2 ^ attempt ≤ base * 2 ^ more :=
    Int.mul_le_mul_of_nonneg_left (pow_le_pow_right₀ (by decide) hmore) hbase.1
  rw [Backoff, Backoff, backoffLoop_eq hbase hcap.2, backoffLoop_eq hbase hcap.2]
  exact min_le_min_right cap hgrows

/-- From 100 ms on, with a cap of 15 s. -/
theorem Backoff_exact_default :
    Backoff 7 100000000 15000000000 = min (100000000 * 2 ^ 7) 15000000000 ∧
      (∀ p ∈ products 100000000 15000000000 7, IsDuration p) ∧
      ∀ more, 7 ≤ more → Backoff 7 100000000 15000000000 ≤ Backoff more 100000000 15000000000 :=
  Backoff_exact (by decide) (by decide) 7

example : Backoff 7 100000000 15000000000 = 12800000000 ∧ Backoff 8 100000000 15000000000 = 15000000000 := by
  decide

end Marshal.Supervisor
