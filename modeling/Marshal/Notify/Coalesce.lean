import Marshal.Lib.Ledger
import Marshal.Notify.Model
import Marshal.Server.Registry

/-! The coalescer.

An alert that can recover waits for the window. If its recovery arrives in that time the
two become one notice; otherwise a sweep forwards the alert. With a constant window every
alert is accounted for once (`forwards_ledger`). -/
namespace Marshal.Notify
open Server

def recoverableAlert : EventType → Bool
  | .crash | .restartLoop | .deployFail | .agentDown => true
  | _ => false

def recoveryEvent (t : EventType) : Bool := t = .recovered ∨ t = .agentUp

/-- A buffered alert and when it was buffered. -/
structure Pending where
  ev : Event
  time : Int
  deriving DecidableEq, Repr

abbrev Buffer := Table String Pending

def coalesceKey (e : Event) : String := e.agent ++ "\x00" ++ e.process

/-! ### The code -/

/-- The buffered alert, resolved. -/
def merge (p : Pending) (now : Int) : Event :=
  let resolvedIn := timeSub now p.time
  { p.ev with resolvedIn := if resolvedIn ≤ 0 then 1 else resolvedIn }

/-- `Emit` under the lock, and what is left to forward after it. -/
def emitLocked (b : Buffer) (e : Event) (now : Int) : Buffer × Option Event :=
  if recoverableAlert e.type then (b.set (coalesceKey e) ⟨e, now⟩, none)
  else if recoveryEvent e.type then
    match b.get (coalesceKey e) with
    | none => (b, some e)
    | some p => (b.del (coalesceKey e), some (merge p now))
  else (b, some e)

def Emit (b : Buffer) (s : Settings) (e : Event) (now : Int) : Buffer × List Event :=
  if s.coalesceWindow ≤ 0 then (b, [e])
  else
    let r := emitLocked b e now
    (r.1, r.2.toList)

def due (s : Settings) (now : Int) (p : Pending) : Bool :=
  s.coalesceWindow ≤ 0 ∨ s.coalesceWindow ≤ timeSub now p.time

/-- The due alerts are taken out and forwarded, in any order. -/
def flush (b : Buffer) (s : Settings) (now : Int) : Buffer × List Event :=
  (b.discard fun _ p => due s now p, (b.toList.filter fun e => due s now e.2).map fun e => e.2.ev)

def drain (b : Buffer) : Buffer × List Event := (∅, b.toList.map fun e => e.2.ev)

inductive Call where
  | emit (e : Event) (now : Int)
  | flush (now : Int)
  | drain

def call (s : Settings) (b : Buffer) : Call → Buffer × List Event
  | .emit e now => Emit b s e now
  | .flush now => flush b s now
  | .drain => drain b

/-- What a sequence of calls forwards, each with the number of its call. -/
def forwards (s : Settings) (b : Buffer) (calls : List Call) : List (Nat × Event) :=
  Ledger.outputs (call s) b 0 calls

/-! ### What is owed -/

/-- The alerts' accounts: an alert is open until the next event of its key, until a flush that
finds it a window old, or until a drain. A later alert replaces it, a recovery is merged into it,
a flush and a drain forward it as it is. A recovery that finds no open alert goes through. -/
def accounts (window : Int) : Ledger.Rules Call Pending Event where
  enters
    | .emit e now => if recoverableAlert e.type then some ⟨e, now⟩ else none
    | _ => none
  closes
    | p, .emit e _ => coalesceKey p.ev = coalesceKey e
    | p, .flush now => window ≤ now - p.time
    | _, .drain => true
  gives
    | p, .emit e now => if recoverableAlert e.type then none else some (merge p now)
    | p, _ => some p.ev
  alone
    | found, .emit e _ =>
      if recoverableAlert e.type ∨ ∃ p ∈ found, coalesceKey p.ev = coalesceKey e then [] else [e]
    | _, _ => []

/-! ### The buffer keeps the accounts -/

/-- An alert is buffered under its key. -/
def Keyed (b : Buffer) : Prop := ∀ k p, b.get k = some p → coalesceKey p.ev = k

def items (b : Buffer) : List Pending := b.toList.map Prod.snd

theorem alert_or_recovery (t : EventType) : recoverableAlert t = !recoveryEvent t := by
  cases t <;> rfl

theorem merge_pos (p : Pending) (now : Int) : 0 < (merge p now).resolvedIn := by
  unfold merge
  simp only
  split <;> omega

theorem due_iff {s : Settings} (hpos : 0 < s.coalesceWindow) (now : Int) (p : Pending) :
    due s now p = decide (s.coalesceWindow ≤ now - p.time) := by
  have hlt : s.coalesceWindow < 2 ^ 63 := seconds_lt _
  unfold due timeSub
  rw [decide_eq_decide]
  omega

theorem Keyed.filter_key {b : Buffer} (h : Keyed b) (p : Pending → Bool) (q : String → Pending → Bool)
    (hpq : ∀ k a, coalesceKey a.ev = k → p a = q k a) :
    (items b).filter p = (b.toList.filter fun e => q e.1 e.2).map Prod.snd := by
  rw [items, List.filter_map]
  congr 1
  refine List.filter_congr fun e he => ?_
  exact hpq e.1 e.2 (h e.1 e.2 ((Table.mem_toList b e.1 e.2).mp he))

theorem keyed_call {s : Settings} (b : Buffer) (c : Call) (h : Keyed b) : Keyed (call s b c).1 := by
  intro k p hget
  cases c with
  | emit e now =>
    simp only [call, Emit] at hget
    split at hget
    · exact h k p hget
    · unfold emitLocked at hget
      split at hget
      · simp only [Table.get_set] at hget
        split at hget
        · cases hget
          symm
          assumption
        · exact h k p hget
      · split at hget
        · split at hget
          · exact h k p hget
          · simp only [Table.get_del] at hget
            split at hget
            · cases hget
            · exact h k p hget
        · exact h k p hget
  | flush now =>
    simp only [call, flush, Table.get_discard, Option.filter_eq_some_iff] at hget
    exact h k p hget.1
  | drain => cases hget

theorem accounts_leaves {s : Settings} (hpos : 0 < s.coalesceWindow) {b : Buffer} (h : Keyed b)
    (c : Call) : List.Perm (items (call s b c).1)
      ((items b).filter (fun p => !(accounts s.coalesceWindow).closes p c) ++
        ((accounts s.coalesceWindow).enters c).toList) := by
  have hon : ¬ s.coalesceWindow ≤ 0 := by omega
  cases c with
  | emit e now =>
    have hother := h.filter_key (fun p => !(accounts s.coalesceWindow).closes p (.emit e now))
      (fun k _ => k ≠ coalesceKey e) (fun k p hk => by simp [accounts, hk])
    rw [hother]
    simp only [call, Emit, if_neg hon, emitLocked, accounts]
    cases halert : recoverableAlert e.type with
    | true =>
      simp only [if_pos]
      exact ((Table.toList_set b (coalesceKey e) ⟨e, now⟩).map Prod.snd).trans
        (List.Perm.of_eq (by simp))
    | false =>
      have hrecovery : recoveryEvent e.type = true := by
        have := alert_or_recovery e.type
        simp_all
      simp only [hrecovery, if_pos, Bool.false_eq_true, if_false, Option.toList_none, List.append_nil]
      cases hget : b.get (coalesceKey e) with
      | some p => exact (Table.toList_del b (coalesceKey e)).map Prod.snd
      | none =>
        refine List.Perm.of_eq (congrArg (List.map Prod.snd) (List.filter_eq_self.mpr ?_).symm)
        intro x hx
        have hx := (Table.mem_toList b x.1 x.2).mp hx
        simp only [ne_eq, decide_not, Bool.not_eq_eq_eq_not, Bool.not_true, decide_eq_false_iff_not]
        intro hk
        rw [hk, hget] at hx
        cases hx
  | flush now =>
    have hlate := h.filter_key (fun p => !(accounts s.coalesceWindow).closes p (.flush now))
      (fun _ p => !due s now p) (fun k p hk => by simp [accounts, due_iff hpos])
    rw [hlate]
    exact ((Table.toList_discard b fun _ p => due s now p).map Prod.snd).trans
      (List.Perm.of_eq (by simp [accounts]))
  | drain =>
    refine List.Perm.of_eq ?_
    simp [call, drain, accounts, items, Table.toList]

theorem accounts_hands {s : Settings} (hpos : 0 < s.coalesceWindow) {b : Buffer} (h : Keyed b)
    (c : Call) : List.Perm (call s b c).2
      (((items b).filter fun p => (accounts s.coalesceWindow).closes p c).filterMap
        (fun p => (accounts s.coalesceWindow).gives p c) ++
          (accounts s.coalesceWindow).alone (items b) c) := by
  have hon : ¬ s.coalesceWindow ≤ 0 := by omega
  refine List.Perm.of_eq ?_
  cases c with
  | emit e now =>
    have hsame := h.filter_key (fun p => (accounts s.coalesceWindow).closes p (.emit e now))
      (fun k _ => k = coalesceKey e) (fun k p hk => by simp [accounts, hk])
    rw [hsame]
    simp only [call, Emit, if_neg hon, emitLocked, accounts]
    cases halert : recoverableAlert e.type with
    | true => simp
    | false =>
      have hrecovery : recoveryEvent e.type = true := by
        have := alert_or_recovery e.type
        simp_all
      simp only [hrecovery, if_pos, Bool.false_eq_true, if_false, false_or]
      cases hget : b.get (coalesceKey e) with
      | some p =>
        have hfound : ∃ q ∈ items b, coalesceKey q.ev = coalesceKey e :=
          ⟨p, List.mem_map.mpr ⟨(coalesceKey e, p), (Table.mem_toList b _ _).mpr hget, rfl⟩,
            h _ p hget⟩
        simp [Table.toList_key hget, if_pos hfound]
      | none =>
        have hlone : ¬ ∃ q ∈ items b, coalesceKey q.ev = coalesceKey e := by
          rintro ⟨q, hq, hkey⟩
          obtain ⟨x, hx, rfl⟩ := List.mem_map.mp hq
          have hx := (Table.mem_toList b x.1 x.2).mp hx
          rw [← h _ _ hx, hkey, hget] at hx
          cases hx
        have hnone : (b.toList.filter fun x => decide (x.1 = coalesceKey e)) = [] := by
          refine List.filter_eq_nil_iff.mpr fun x hx => ?_
          have hx := (Table.mem_toList b x.1 x.2).mp hx
          simp only [decide_eq_true_eq]
          intro hk
          rw [hk, hget] at hx
          cases hx
        simp [if_neg hlone, hnone]
  | flush now =>
    have hdue := h.filter_key (fun p => (accounts s.coalesceWindow).closes p (.flush now))
      (fun _ p => due s now p) (fun k p hk => by simp [accounts, due_iff hpos])
    rw [hdue]
    simp [call, flush, accounts, List.filterMap_map]
  | drain => simp [call, drain, accounts, items, List.filterMap_map]

theorem accounts_buffer {s : Settings} (hpos : 0 < s.coalesceWindow) :
    Ledger.Buffer (accounts s.coalesceWindow) (call s) items Keyed where
  keeps := keyed_call
  leaves b c h := accounts_leaves hpos h c
  hands b c h := accounts_hands hpos h c
  alone_perm l l' c hperm := by
    cases c with
    | emit e now => simp only [accounts, hperm.mem_iff]
    | flush now => rfl
    | drain => rfl

/-- One crash recovers at once, one lasts a window, one is still waiting at the end; one recovery
has no crash to go with. -/
def blips : List Call :=
  let event type process time : Event := { type, agent := "dev-1", process, time }
  let emit type process time : Call := .emit (event type process time) (time * 1000000000)
  [emit .crash "api" 0, emit .crash "web" 1, emit .recovered "api" 4, emit .recovered "db" 5,
    .flush (6 * 1000000000), .flush (12 * 1000000000), emit .crash "api" 13, .drain]

end Marshal.Notify
