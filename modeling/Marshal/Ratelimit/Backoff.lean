import Marshal.Lib.Growing
import Marshal.Ratelimit.Streaks
import Mathlib.Algebra.Order.Ring.Int
import Mathlib.Tactic.SplitIfs

/-! How long the locks of a key last.

Each lock is to last twice as long as the one before, up to the cap. The doubled duration is computed in
64 bits, and a result that is not positive is taken for an overflow. A duration that wraps around to a
small positive number is taken for the doubled one (`Unwrapped`). -/
namespace Marshal.Ratelimit
namespace Policy
variable {pol : Policy} {n m : Nat}

/-- The `n` times doubled duration fits under the cap, or its last 64 bits are no duration under it. -/
def Unwrapped (pol : Policy) (n : Nat) : Prop :=
  pol.Base * 2 ^ n ≤ pol.Cap ∨ pol.Base * 2 ^ n % 2 ^ 64 = 0 ∨ pol.Cap ≤ pol.Base * 2 ^ n % 2 ^ 64

instance (pol : Policy) (n : Nat) : Decidable (pol.Unwrapped n) := inferInstanceAs (Decidable (_ ∨ _ ∨ _))

theorem lockFor_eq_iff (hvalid : pol.Valid) (hcap : pol.Cap ≤ maxDuration) (n : Nat) :
    pol.lockFor n = min pol.Cap (pol.Base * 2 ^ n) ↔ pol.Unwrapped n := by
  have hbase := hvalid.base
  have hle := hvalid.cap
  have hpos : 0 < pol.Base * 2 ^ n := Int.mul_pos hbase (Int.pow_pos (by decide))
  unfold lockFor Unwrapped shift maxDuration at *
  generalize pol.Base * 2 ^ n = doubled at *
  simp only [Int.bmod_def]
  split_ifs <;> omega

/-- Doubled often enough nothing is left of the duration. -/
theorem unwrapped_of_le (h : 64 ≤ n) : pol.Unwrapped n := by
  refine .inr (.inl (Int.emod_eq_zero_of_dvd ?_))
  exact Int.dvd_mul_of_dvd_right (pow_dvd_pow 2 h)

theorem lockFor_mono (hvalid : pol.Valid) (hcap : pol.Cap ≤ maxDuration) (hm : pol.Unwrapped m)
    (hn : pol.Unwrapped n) (h : m ≤ n) : pol.lockFor m ≤ pol.lockFor n := by
  rw [(lockFor_eq_iff hvalid hcap m).mpr hm, (lockFor_eq_iff hvalid hcap n).mpr hn]
  have hpow : (2 : Int) ^ m ≤ 2 ^ n := pow_le_pow_right₀ (by decide) h
  have hdoubled : pol.Base * 2 ^ m ≤ pol.Base * 2 ^ n :=
    Int.mul_le_mul_of_nonneg_left hpow (Int.le_of_lt hvalid.base)
  omega

/-- The two policies in use never meet the wrap. -/
theorem unwrapped_inUse (n : Nat) : lockoutPolicy.Unwrapped n ∧ grpcThrottlePolicy.Unwrapped n := by
  by_cases h : 64 ≤ n
  · exact ⟨unwrapped_of_le h, unwrapped_of_le h⟩
  · have hall : ∀ n < 64, lockoutPolicy.Unwrapped n ∧ grpcThrottlePolicy.Unwrapped n := by decide +kernel
    exact hall n (by omega)

end Policy

namespace Clocked
variable {k : String} {s t : Clocked}

/-- The locks of `k` since its entry was created: how long each lasts as it is engaged. -/
def locks (k : String) (durations : List Int) (s : Clocked) : Call → List Int
  | .fail key =>
    if key = k then
      let durations := if s.limiter.kept s.now k = none then [] else durations
      if s.limiter.pol.Threshold ≤ (s.before k).fails + 1
      then durations ++ [((s.step (.fail k)).limiter.RetryAfter s.now k).2]
      else durations
    else durations
  | .reset key => if key = k then [] else durations
  | .retryAfter _ | .tick _ => durations

/-- The entry knows how many locks there were, and each lasts as its number says. -/
structure Backoff (pol : Policy) (k : String) (durations : List Int) (s : Clocked) : Prop where
  policy : s.limiter.pol = pol
  counted : ∀ e, s.limiter.m.get k = some e → e.lockedOnce = durations.length
  lasts : ∀ i d, durations[i]? = some d → d = pol.lockFor i

variable {pol : Policy} {durations : List Int}

/-- What is asked right after a lock is engaged. -/
theorem retryAfter_engaged (hvalid : s.limiter.pol.Valid) (hcap : s.limiter.pol.Cap ≤ maxDuration)
    (hfull : s.limiter.pol.Threshold ≤ (s.before k).fails + 1) :
    (s.step (.fail k)).limiter.RetryAfter s.now k =
      (true, s.limiter.pol.lockFor (s.before k).lockedOnce) := by
  have hbounds := hvalid.lockFor_bounds (s.before k).lockedOnce
  have hget := @get_fail_self k s
  rw [Policy.fail_of_le hfull] at hget
  unfold Limiter.RetryAfter
  rw [hget]
  simp only [if_pos (hvalid.lt_lockUntil s.now _), Prod.mk.injEq, true_and]
  unfold Sub Add maxDuration minDuration at *
  omega

theorem backoff_fail (hvalid : pol.Valid) (hcap : pol.Cap ≤ maxDuration) (hs : Backoff pol k durations s) :
    Backoff pol k (locks k durations s (.fail k)) (s.step (.fail k)) := by
  obtain ⟨rfl, hcounted, hlasts⟩ := hs
  -- what the entry before this failure counts, and what is on record of it
  obtain ⟨old, hold, hlength, hlasts⟩ : ∃ old : List Int,
      old = (if s.limiter.kept s.now k = none then [] else durations) ∧
      (s.before k).lockedOnce = old.length ∧ ∀ i d, old[i]? = some d → d = s.limiter.pol.lockFor i := by
    refine ⟨_, rfl, ?_⟩
    cases hkept : s.limiter.kept s.now k with
    | none => simp [before, hkept]
    | some e =>
      have he := hcounted e (Limiter.kept_eq_some.mp hkept).1
      simpa [before, hkept, he] using hlasts
  have hget := @get_fail_self k s
  simp only [locks, if_true, ← hold]
  by_cases hfull : s.limiter.pol.Threshold ≤ (s.before k).fails + 1
  · rw [if_pos hfull, retryAfter_engaged hvalid hcap hfull]
    rw [Policy.fail_of_le hfull] at hget
    refine ⟨rfl, fun e he => ?_, fun i d hd => ?_⟩
    · rw [hget, Option.some.injEq] at he
      subst he
      simp [hlength]
    · rcases Growing.old_or_new hd with hd | hd
      · exact hlasts i d hd
      · rw [hd.2, hd.1, hlength]
  · rw [if_neg hfull]
    rw [Policy.fail_of_lt (Nat.not_le.mp hfull)] at hget
    refine ⟨rfl, fun e he => ?_, hlasts⟩
    rw [hget, Option.some.injEq] at he
    subst he
    exact hlength

theorem backoff_other (hs : Backoff pol k durations s) {key : String} (hne : k ≠ key) :
    Backoff pol k durations (s.step (.fail key)) := by
  refine ⟨hs.policy, fun e he => ?_, hs.lasts⟩
  rw [show (s.step (.fail key)).limiter = s.limiter.Fail s.now key from rfl, Limiter.get_Fail_other hne] at he
  exact hs.counted e (Limiter.kept_eq_some.mp he).1

theorem backoff_step (hvalid : pol.Valid) (hcap : pol.Cap ≤ maxDuration) (hs : Backoff pol k durations s)
    (c : Call) : Backoff pol k (locks k durations s c) (s.step c) := by
  cases c with
  | fail key =>
    by_cases hkey : key = k
    · subst hkey
      exact backoff_fail hvalid hcap hs
    · simp only [locks, if_neg hkey]
      exact backoff_other hs (Ne.symm hkey)
  | reset key =>
    by_cases hkey : key = k
    · subst hkey
      have hnone : (s.step (.reset key)).limiter.m.get key = none := Table.get_del_self _ _
      simp only [locks, if_true]
      exact ⟨hs.policy, by simp [hnone], by simp⟩
    · simp only [locks, if_neg hkey]
      refine ⟨hs.policy, fun e he => hs.counted e ?_, hs.lasts⟩
      rwa [show (s.step (.reset key)).limiter = s.limiter.Reset key from rfl,
        Limiter.get_Reset_other (Ne.symm hkey)] at he
  | retryAfter key => exact hs
  | tick d => exact ⟨hs.policy, hs.counted, hs.lasts⟩

theorem backoff_run {as : List Call} (hvalid : s.limiter.pol.Valid) (hcap : s.limiter.pol.Cap ≤ maxDuration)
    (hs : machine.init s) (hrun : machine.run s as = some t) :
    Backoff s.limiter.pol k (machine.record (locks k) [] s as) t := by
  refine machine.record_invariant (locks k) (I := Backoff s.limiter.pol k) ?_ ⟨rfl, ?_, by simp⟩ hrun
  · intro durations u c v hu hstep
    obtain rfl : u.step c = v := Option.some.inj hstep
    exact backoff_step hvalid hcap hu c
  · intro e he
    rw [show s.limiter.m = ∅ from hs, Table.get_empty] at he
    cases he

/-- **The locks of a key double up to the cap exactly where the doubled duration does not wrap.** In every
history, the lock number `i`, from 0 on, of those engaged since the entry was created lasts
`min Cap (Base * 2 ^ i)` if and only if `Unwrapped` holds of the policy and `i`; and where it holds of all
of them, they last longer than nothing and none is shorter than one before it. -/
theorem locks_double_iff {as : List Call} (hvalid : s.limiter.pol.Valid)
    (hcap : s.limiter.pol.Cap ≤ maxDuration) (hs : machine.init s) (hrun : machine.run s as = some t)
    (k : String) :
    (∀ i d, (machine.record (locks k) [] s as)[i]? = some d →
      (d = min s.limiter.pol.Cap (s.limiter.pol.Base * 2 ^ i) ↔ s.limiter.pol.Unwrapped i)) ∧
    ((∀ i < (machine.record (locks k) [] s as).length, s.limiter.pol.Unwrapped i) →
      (∀ d ∈ machine.record (locks k) [] s as, 0 < d) ∧
      (machine.record (locks k) [] s as).Pairwise (· ≤ ·)) := by
  have hbackoff : Backoff s.limiter.pol k (machine.record (locks k) [] s as) t := backoff_run hvalid hcap hs hrun
  refine ⟨fun i d hd => ?_, fun hunwrapped => ⟨fun d hd => ?_, ?_⟩⟩
  · rw [hbackoff.lasts i d hd]
    exact Policy.lockFor_eq_iff hvalid hcap i
  · obtain ⟨i, hi⟩ := List.mem_iff_getElem?.mp hd
    rw [hbackoff.lasts i d hi]
    exact (hvalid.lockFor_bounds i).1
  · rw [List.pairwise_iff_getElem]
    intro i j hi hj hlt
    rw [hbackoff.lasts i _ (List.getElem?_eq_getElem hi), hbackoff.lasts j _ (List.getElem?_eq_getElem hj)]
    exact Policy.lockFor_mono hvalid hcap (hunwrapped i hi) (hunwrapped j hj) hlt.le

/-! ### A duration that wraps -/

/-- A limiter whose third doubling of the duration is 2^64 + 4 nanoseconds. -/
def wrapping : Clocked := ⟨⟨⟨1, 2 ^ 62 + 1, maxDuration⟩, ∅⟩, 0⟩

theorem wrapping_valid : wrapping.limiter.pol.Valid := ⟨by decide, by decide, by decide⟩

/-- The third lock lasts four nanoseconds. -/
theorem locks_wrap :
    machine.record (locks "ip") [] wrapping (List.replicate 3 (.fail "ip")) = [2 ^ 62 + 1, maxDuration, 4] ∧
    ¬ ∀ s as t k, s.limiter.pol.Valid → s.limiter.pol.Cap ≤ maxDuration → machine.init s →
      machine.run s as = some t → ∀ i d, (machine.record (locks k) [] s as)[i]? = some d →
        d = min s.limiter.pol.Cap (s.limiter.pol.Base * 2 ^ i) := by
  have hlocks : machine.record (locks "ip") [] wrapping (List.replicate 3 (.fail "ip")) =
      [2 ^ 62 + 1, maxDuration, 4] := by decide +kernel
  refine ⟨hlocks, fun h => ?_⟩
  have hthird := h wrapping (List.replicate 3 (.fail "ip")) _ "ip" wrapping_valid (by decide) rfl rfl 2 4
  rw [hlocks] at hthird
  exact absurd (hthird rfl) (by decide)

/-- A minute, two minutes and four. -/
theorem locks_double_dashboard :
    (machine.record (locks "ip") [] dashboard (fails 15)) = [minute, 2 * minute, 4 * minute] ∧
    ∀ i d, (machine.record (locks "ip") [] dashboard (fails 15))[i]? = some d →
      (d = min lockoutPolicy.Cap (lockoutPolicy.Base * 2 ^ i) ↔ lockoutPolicy.Unwrapped i) :=
  ⟨by decide +kernel, (@locks_double_iff dashboard _ (fails 15) lockoutPolicy_valid (by decide) rfl rfl "ip").1⟩

end Clocked
end Marshal.Ratelimit
