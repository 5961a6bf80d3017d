import Marshal.Lib.System
import Marshal.Lib.Table
import Mathlib.Algebra.Group.Int.Defs
import Mathlib.Algebra.Group.Nat.Defs
import Mathlib.Order.Lattice

/-! The failure limiter: a lockout per key with exponential backoff.

Instants are nanoseconds since Go's zero time, which is 0; durations are 64-bit counts of
nanoseconds. Every call takes the limiter's lock for as long as it runs, so a history is
a list of calls with the clock moving between them (`Clocked`). -/
namespace Marshal.Ratelimit

/-! ### Times -/

def maxDuration : Int := 9223372036854775807
def minDuration : Int := -9223372036854775808

/-- `t.Sub(u)`, which saturates. -/
def Sub (t u : Nat) : Int := max minDuration (min maxDuration (t - u))

/-- `t.Add(d)`. -/
def Add (t : Nat) (d : Int) : Nat := (t + d).toNat

/-- `d << n` on 64 bits. -/
def shift (d : Int) (n : Nat) : Int := (d * 2 ^ n).bmod (2 ^ 64)

/-! ### The limiter -/

structure Policy where
  /-- Consecutive failures before a lock engages. -/
  Threshold : Nat
  /-- The first lock's duration. -/
  Base : Int
  /-- The longest lock's duration, and the idle-eviction window. -/
  Cap : Int
  deriving DecidableEq, Repr

structure Entry where
  fails : Nat := 0
  lockUntil : Nat := 0
  /-- Locks engaged so far. -/
  lockedOnce : Nat := 0
  lastSeen : Nat := 0
  deriving DecidableEq, Repr

namespace Policy

/-- How long the lock after `n` earlier ones lasts. -/
def lockFor (pol : Policy) (n : Nat) : Int :=
  let dur := shift pol.Base n
  if dur > pol.Cap ∨ dur ≤ 0 then pol.Cap else dur

/-- What `pruneLocked` drops. -/
def drops (pol : Policy) (now : Nat) (e : Entry) : Bool :=
  if e.lockUntil = 0 then Sub now e.lastSeen > pol.Cap
  else e.lockUntil < now ∧ Sub now e.lockUntil > pol.Cap

/-- An entry after one more failure. -/
def fail (pol : Policy) (now : Nat) (e : Entry) : Entry :=
  let e := { e with lastSeen := now, fails := e.fails + 1 }
  if pol.Threshold ≤ e.fails then
    { e with
      lockUntil := Add now (pol.lockFor e.lockedOnce)
      lockedOnce := e.lockedOnce + 1
      fails := 0 }
  else e

/-- Locks engage, and last between the first duration and the cap. -/
structure Valid (pol : Policy) : Prop where
  threshold : 1 ≤ pol.Threshold
  base : 0 < pol.Base
  cap : pol.Base ≤ pol.Cap

end Policy

/-- The dashboard's: five failures, one minute, a quarter of an hour. -/
def lockoutPolicy : Policy := ⟨5, 60000000000, 900000000000⟩

/-- The gRPC interceptors': ten failures, five seconds, five minutes. -/
def grpcThrottlePolicy : Policy := ⟨10, 5000000000, 300000000000⟩

structure Limiter where
  pol : Policy
  m : Table String Entry := ∅

namespace Limiter

def RetryAfter (l : Limiter) (now : Nat) (key : String) : Bool × Int :=
  match l.m.get key with
  | none => (false, 0)
  | some e => if now < e.lockUntil then (true, Sub e.lockUntil now) else (false, 0)

def pruneLocked (l : Limiter) (now : Nat) : Limiter :=
  { l with m := l.m.discard fun _ e => l.pol.drops now e }

def Fail (l : Limiter) (now : Nat) (key : String) : Limiter :=
  let l := l.pruneLocked now
  { l with m := l.m.set key (l.pol.fail now ((l.m.get key).getD {})) }

def Reset (l : Limiter) (key : String) : Limiter := { l with m := l.m.del key }

end Limiter

/-! ### Histories of calls -/

structure Clocked where
  limiter : Limiter
  now : Nat := 0

inductive Call where
  | fail (key : String)
  | reset (key : String)
  | retryAfter (key : String)
  | tick (d : Nat)
  deriving DecidableEq, Repr

namespace Clocked

def step (s : Clocked) : Call → Clocked
  | .fail key => { s with limiter := s.limiter.Fail s.now key }
  | .reset key => { s with limiter := s.limiter.Reset key }
  | .retryAfter _ => s
  | .tick d => { s with now := s.now + d }

def locked (s : Clocked) (key : String) : Bool := (s.limiter.RetryAfter s.now key).1

/-- The histories of a new limiter. -/
def machine : Transition.System Clocked Call where
  init s := s.limiter.m = ∅
  step s c := some (s.step c)

end Clocked

/-! ### What the calls do to an entry -/

theorem Sub_mono {t t' u u' : Nat} (ht : t ≤ t') (hu : u' ≤ u) : Sub t u ≤ Sub t' u' := by
  unfold Sub minDuration maxDuration
  omega

theorem Sub_of_le {t u : Nat} (h : t ≤ u) : Sub t u ≤ 0 := by
  unfold Sub minDuration maxDuration
  omega

namespace Policy
variable {pol : Policy}

theorem Valid.cap_pos (h : pol.Valid) : 0 < pol.Cap := Int.lt_of_lt_of_le h.base h.cap

/-- A lock lasts, and no longer than the cap. -/
theorem Valid.lockFor_bounds (h : pol.Valid) (n : Nat) : 0 < pol.lockFor n ∧ pol.lockFor n ≤ pol.Cap := by
  have hcap := h.cap_pos
  unfold lockFor
  dsimp only
  split <;> omega

theorem Valid.lt_lockUntil (h : pol.Valid) (now n : Nat) : now < Add now (pol.lockFor n) := by
  have hpos := (h.lockFor_bounds n).1
  unfold Add
  omega

theorem drops_of_free {now : Nat} {e : Entry} (h : e.lockUntil = 0) :
    pol.drops now e = true ↔ Sub now e.lastSeen > pol.Cap := by
  simp [drops, h]

theorem drops_of_locked {now : Nat} {e : Entry} (h : e.lockUntil ≠ 0) :
    pol.drops now e = true ↔ e.lockUntil < now ∧ Sub now e.lockUntil > pol.Cap := by
  simp [drops, h]

/-- A lock that has not ended is not dropped. -/
theorem keeps_of_lt {now : Nat} {e : Entry} (h : now < e.lockUntil) : pol.drops now e = false := by
  rw [← Bool.not_eq_true, drops_of_locked (by omega)]
  omega

theorem fail_of_lt {now : Nat} {e : Entry} (h : e.fails + 1 < pol.Threshold) :
    pol.fail now e = { e with lastSeen := now, fails := e.fails + 1 } :=
  if_neg (Nat.not_le.mpr h)

theorem fail_of_le {now : Nat} {e : Entry} (h : pol.Threshold ≤ e.fails + 1) :
    pol.fail now e =
      ⟨0, Add now (pol.lockFor e.lockedOnce), e.lockedOnce + 1, now⟩ :=
  if_pos h

@[simp] theorem fail_lastSeen (now : Nat) (e : Entry) : (pol.fail now e).lastSeen = now := by
  simp only [fail]
  split <;> rfl

end Policy

namespace Limiter
variable {l : Limiter} {now : Nat} {key k : String}

/-- What is on record for a key once the idle entries are dropped. -/
def kept (l : Limiter) (now : Nat) (k : String) : Option Entry :=
  (l.m.get k).filter fun e => !l.pol.drops now e

theorem get_pruneLocked : (l.pruneLocked now).m.get k = l.kept now k := l.m.get_discard _ k

@[simp] theorem Fail_pol : (l.Fail now key).pol = l.pol := rfl

theorem get_Fail_self : (l.Fail now k).m.get k = some (l.pol.fail now ((l.kept now k).getD {})) := by
  show Table.get (Table.set _ _ _) _ = _
  rw [Table.get_set_self, get_pruneLocked]
  rfl

theorem get_Fail_other (h : k ≠ key) : (l.Fail now key).m.get k = l.kept now k := by
  show Table.get (Table.set _ _ _) _ = _
  rw [Table.get_set, if_neg h, get_pruneLocked]

theorem get_Reset_other (h : k ≠ key) : (l.Reset key).m.get k = l.m.get k := by
  show Table.get (Table.del _ _) _ = _
  rw [Table.get_del, if_neg h]

theorem kept_eq_some {e : Entry} :
    l.kept now k = some e ↔ l.m.get k = some e ∧ l.pol.drops now e = false := by
  simp [kept, Option.filter_eq_some_iff]

theorem locked_iff :
    (l.RetryAfter now k).1 = true ↔ ∃ e, l.m.get k = some e ∧ now < e.lockUntil := by
  unfold RetryAfter
  cases hget : l.m.get k with
  | none => simp
  | some e => by_cases hlt : now < e.lockUntil <;> simp [hlt]

/-- A locked key's entry survives every other key's calls. -/
theorem kept_of_locked (h : (l.RetryAfter now k).1 = true) : l.kept now k = l.m.get k := by
  obtain ⟨e, hget, hlt⟩ := locked_iff.mp h
  rw [hget]
  exact kept_eq_some.mpr ⟨hget, Policy.keeps_of_lt hlt⟩

end Limiter
end Marshal.Ratelimit
