import Marshal.Lib.Growing
import Marshal.Lib.System
import Marshal.Lib.Table
import Marshal.Lib.WriteBehind

/-! The acknowledgement store and its file.

A call changes the map under the lock and saves it after: the map is read under the lock
again, written to the one temporary name, and renamed over the file. Each of these is a
step, between which other calls go on. `Prune` does not say when its save fails. -/
namespace Marshal.Ackstore
open WriteBehind

/-- Signature id to the time of its acknowledgement, in milliseconds. -/
abbrev Acks := Table String Int

/-- What a file's text parses to. -/
abbrev Text := Option Acks

inductive Op where
  | Ack (id : String) (atMs : Int)
  | Unack (id : String)
  | Prune (beforeMs : Int)
  deriving DecidableEq, Repr

namespace Op

/-- The map afterwards, and whether it is saved. -/
def apply (acked : Acks) : Op → Acks × Bool
  | .Ack id atMs => (acked.set id atMs, true)
  | .Unack id => (acked.del id, true)
  | .Prune beforeMs =>
    (acked.discard fun _ at_ => at_ < beforeMs, acked.toList.any fun e => e.2 < beforeMs)

/-- Whether the call returns without an error when its save fails. -/
def swallows : Op → Bool
  | .Prune _ => true
  | .Ack _ _ | .Unack _ => false

end Op

/-- Where a call stands. -/
inductive Pc where
  /-- Before the update under the lock. -/
  | updating
  /-- Before the snapshot under the lock. -/
  | saving
  /-- Before `WriteFile`. -/
  | writing (data : Acks)
  /-- Before `Rename`. -/
  | written
  | returned (ok : Bool)
  deriving DecidableEq

structure Call where
  op : Op
  pc : Pc
  deriving DecidableEq

structure Store where
  acked : Acks := ∅
  file : Option Text := none
  tmp : Option Text := none
  calls : List Call := []

inductive Event where
  | ok
  /-- I/O fails; a write may leave part of the text behind. -/
  | fail (torn : Bool)

inductive Action where
  | call (op : Op)
  | advance (k : Nat) (event : Event)

namespace Store

def AckedAt (s : Store) (id : String) : Option Int := s.acked.get id

/-- Call `k` comes to stand at `pc`. -/
def put (s : Store) (k : Nat) (op : Op) (pc : Pc) : Store := { s with calls := s.calls.set k ⟨op, pc⟩ }

def advance (s : Store) (k : Nat) (c : Call) : Event → Option Store
  | .ok => match c.pc with
    | .updating =>
      let (acked, changed) := c.op.apply s.acked
      some ({ s with acked := acked }.put k c.op (if changed then .saving else .returned true))
    | .saving => some (s.put k c.op (.writing s.acked))
    | .writing data => some ({ s with tmp := some (some data) }.put k c.op .written)
    | .written => match s.tmp with
      | none => some (s.put k c.op (.returned c.op.swallows))
      | some text => some ({ s with file := some text, tmp := none }.put k c.op (.returned true))
    | .returned _ => none
  | .fail torn => match c.pc with
    | .writing _ =>
      some ({ s with tmp := if torn then some none else s.tmp }.put k c.op (.returned c.op.swallows))
    | .written => some (s.put k c.op (.returned c.op.swallows))
    | .updating | .saving | .returned _ => none

def step (s : Store) : Action → Option Store
  | .call op => some { s with calls := s.calls ++ [⟨op, .updating⟩] }
  | .advance k event => do
    let c ← s.calls[k]?
    s.advance k c event

/-- The acknowledgements a file stands for; a missing one stands for none. -/
def content : Option Text → Text
  | none => some ∅
  | some text => text

/-- The file's content is the map in memory. -/
def Current (s : Store) : Prop := (content s.file).map Table.get = some s.acked.get

/-- The runs of a store that has been opened. -/
def machine : Transition.System Store Action where
  init s := s.Current ∧ s.calls = []
  step := step

/-! ### Which calls have a save still to do -/

def writer (tmp : Option Text) : Pc → Writer (String → Option Int)
  | .saving => .pending
  | .writing data => .holding data.get
  | .written => match tmp with
    | some (some data) => .holding data.get
    | _ => .idle
  | .updating | .returned _ => .idle

def writers (s : Store) (k : Nat) : Writer (String → Option Int) :=
  match s.calls[k]? with
  | some c => writer s.tmp c.pc
  | none => .idle

/-- A call has yet to write the map as it is, to the temporary name. -/
def Pc.due (acked : Acks) : Pc → Prop
  | .saving => True
  | .writing data => data.get = acked.get
  | .updating | .written | .returned _ => False

/-- Another call than `k` has. -/
def SavingBeside (s : Store) (k : Nat) : Prop :=
  ∃ j c, j ≠ k ∧ s.calls[j]? = some c ∧ Pc.due s.acked c.pc

/-- Another call than `k` has, or is about to rename the map as it is. -/
def DueBeside (s : Store) (k : Nat) : Prop := ∃ j, j ≠ k ∧ Due s.acked.get (s.writers j)

/-- A snapshot that is out of date is written, one in the temporary file is renamed, and a `Prune`
fails to save, only while the save is not the last. -/
def Keeps (s : Store) : Action → Prop
  | .call _ => True
  | .advance k event => match s.calls[k]?, event with
    | some ⟨_, .writing data⟩, .ok => data.get = s.acked.get ∨ s.Current ∨ s.SavingBeside k
    | some ⟨_, .written⟩, .ok => match s.tmp with
      | none => True
      | some text => text.map Table.get = some s.acked.get ∨ s.SavingBeside k
    | some ⟨.Prune _, .writing _⟩, .fail true => s.Current ∨ s.SavingBeside k
    | some ⟨.Prune _, .writing _⟩, .fail false | some ⟨.Prune _, .written⟩, .fail _ =>
      s.Current ∨ s.DueBeside k
    | _, _ => True

/-- When all calls have returned without an error, the file is up to date. -/
def Durable (s : Store) : Prop := (∀ c ∈ s.calls, c.pc = .returned true) → s.Current

/-! ### The invariant -/

/-- A call has reported an error, or the file is up to date or some call has the save to do. -/
def Inv (s : Store) : Prop :=
  (∃ c ∈ s.calls, c.pc = .returned false) ∨
    Covered some s.acked.get ((content s.file).map Table.get) s.writers

section Step
variable {s t : Store} {k : Nat} {op : Op} {pc pc' : Pc}

theorem writers_put_self (hk : s.calls[k]? = some ⟨op, pc⟩) (hcalls : t.calls = s.calls) :
    (t.put k op pc').writers k = writer t.tmp pc' := by
  have hlt := (List.getElem?_eq_some_iff.mp hk).1
  simp only [writers, put, hcalls, List.getElem?_set_self hlt]

theorem writers_put_other {j : Nat} (hj : j ≠ k) (hcalls : t.calls = s.calls) (htmp : t.tmp = s.tmp) :
    (t.put k op pc').writers j = s.writers j := by
  simp only [writers, put, hcalls, htmp, List.getElem?_set_ne hj.symm]

/-- A call that has yet to write is due whatever the temporary file holds. -/
theorem due_of_saving {j : Nat} {c : Call} (hj : j ≠ k) (hget : s.calls[j]? = some c)
    (hcalls : t.calls = s.calls) (hacked : t.acked = s.acked) (hdue : Pc.due s.acked c.pc) :
    Due t.acked.get ((t.put k op pc').writers j) := by
  obtain ⟨op', pc''⟩ := c
  have hget' : (t.put k op pc').calls[j]? = some ⟨op', pc''⟩ := by
    simp only [put, hcalls, List.getElem?_set_ne hj.symm, hget]
  simp only [writers, hget', hacked]
  cases pc'' with
  | saving => trivial
  | writing data => exact hdue
  | updating | written | returned => exact hdue.elim

theorem advance_put {c : Call} {event : Event} (h : s.advance k c event = some t) :
    ∃ (u : Store) (pc' : Pc), t = u.put k c.op pc' ∧ u.calls = s.calls := by
  obtain ⟨op, pc⟩ := c
  cases event with
  | ok =>
    cases pc with
    | written =>
      simp only [advance] at h
      split at h <;> cases h <;> exact ⟨_, _, rfl, rfl⟩
    | updating | saving | writing => cases h; exact ⟨_, _, rfl, rfl⟩
    | returned => cases h
  | fail torn =>
    cases pc with
    | writing | written => cases h; exact ⟨_, _, rfl, rfl⟩
    | updating | saving | returned => cases h

/-- An error stays on record. -/
theorem inv_error (hk : s.calls[k]? = some ⟨op, pc⟩) (hpc : pc ≠ .returned false)
    (herr : ∃ c ∈ s.calls, c.pc = .returned false) (hcalls : t.calls = s.calls) :
    (t.put k op pc').Inv := by
  obtain ⟨c, hc, hfalse⟩ := herr
  obtain ⟨j, hj⟩ := List.mem_iff_getElem?.mp hc
  have hne : j ≠ k := by
    rintro rfl
    obtain rfl : ⟨op, pc⟩ = c := Option.some.inj (hk.symm.trans hj)
    exact hpc hfalse
  refine .inl ⟨c, List.mem_iff_getElem?.mpr ⟨j, ?_⟩, hfalse⟩
  simp only [put, hcalls, List.getElem?_set_ne hne.symm, hj]

/-- The call has its save still to do. -/
theorem inv_due (hk : s.calls[k]? = some ⟨op, pc⟩) (hcalls : t.calls = s.calls)
    (hdue : Due t.acked.get (writer t.tmp pc')) : (t.put k op pc').Inv := by
  refine .inr (@covered_of_due _ _ _ _ _ _ _ k ?_)
  rw [writers_put_self hk hcalls]
  exact hdue

/-- The call reports an error. -/
theorem inv_fails (hk : s.calls[k]? = some ⟨op, pc⟩) (hcalls : t.calls = s.calls) :
    (t.put k op (.returned false)).Inv := by
  have hlt := (List.getElem?_eq_some_iff.mp hk).1
  refine .inl ⟨⟨op, .returned false⟩, ?_, rfl⟩
  simp only [put, hcalls]
  exact List.mem_set hlt _

/-- The call gives its save up, with the temporary file as it was. -/
theorem inv_drop (hcalls : t.calls = s.calls) (htmp : t.tmp = s.tmp)
    (hacked : t.acked.get = s.acked.get) (hfile : t.file = s.file) (h : s.Current ∨ s.DueBeside k) : (t.put k op pc').Inv := by
  refine .inr ?_
  show Covered some t.acked.get ((content t.file).map Table.get) _
  rw [hacked, hfile]
  exact covered_drop h fun j hj => writers_put_other hj hcalls htmp

/-- So does a call that leaves the file or another save behind. -/
theorem inv_beside (hcalls : t.calls = s.calls) (hacked : t.acked = s.acked)
    (h : t.Current ∨ s.SavingBeside k) : (t.put k op pc').Inv := by
  rcases h with hcurrent | ⟨j, c, hj, hget, hdue⟩
  · exact .inr (.inl hcurrent)
  · exact .inr (.inr ⟨j, due_of_saving hj hget hcalls hacked hdue⟩)

/-- A call without a save to do is not what the invariant rests on. -/
theorem needless (h : Covered some s.acked.get ((content s.file).map Table.get) s.writers)
    (hk : s.calls[k]? = some ⟨op, pc⟩) (hidle : writer s.tmp pc = .idle) : s.Current ∨ s.DueBeside k := by
  rcases h with hcurrent | ⟨j, hdue⟩
  · exact .inl hcurrent
  · refine .inr ⟨j, ?_, hdue⟩
    rintro rfl
    simp only [writers, hk, hidle] at hdue
    exact hdue

/-- Only a `Prune` that drops nothing is not saved. -/
theorem apply_unchanged {acked : Acks} (h : (op.apply acked).2 = false) :
    (op.apply acked).1.get = acked.get := by
  cases op with
  | Ack | Unack => cases h
  | Prune beforeMs =>
    funext id
    show (acked.discard _).get id = _
    rw [Table.get_discard]
    cases hget : acked.get id with
    | none => rfl
    | some at_ =>
      have hkept := List.any_eq_false.mp h (id, at_) ((Table.mem_toList acked id at_).mpr hget)
      simp only [Option.filter_some]
      rw [if_pos (by simpa using hkept)]

theorem inv_ok (hs : Covered some s.acked.get ((content s.file).map Table.get) s.writers)
    (hk : s.calls[k]? = some ⟨op, pc⟩) (hkeeps : s.Keeps (.advance k .ok))
    (h : s.advance k ⟨op, pc⟩ .ok = some t) : t.Inv := by
  cases pc with
  | updating =>
    cases hchanged : (op.apply s.acked).2 with
    | true =>
      simp only [advance, hchanged, if_true, Option.some.injEq] at h
      subst h
      exact inv_due hk rfl trivial
    | false =>
      simp only [advance, hchanged, Bool.false_eq_true, if_false, Option.some.injEq] at h
      subst h
      exact inv_drop (s := s) rfl rfl (apply_unchanged hchanged) rfl (needless hs hk rfl)
  | saving =>
    cases h
    exact inv_due hk rfl rfl
  | writing data =>
    cases h
    by_cases hsame : data.get = s.acked.get
    · exact inv_due hk rfl hsame
    · simp only [Keeps, hk, hsame, false_or] at hkeeps
      exact inv_beside rfl rfl hkeeps
  | written =>
    cases htmp : s.tmp with
    | none =>
      simp only [advance, htmp, Option.some.injEq] at h
      subst h
      exact inv_drop rfl rfl rfl rfl (needless hs hk (by simp [writer, htmp]))
    | some text =>
      simp only [advance, htmp, Option.some.injEq] at h
      simp only [Keeps, hk, htmp] at hkeeps
      subst h
      refine inv_beside rfl rfl (hkeeps.imp_left ?_)
      exact fun hcurrent => hcurrent
  | returned => cases h

theorem inv_fail {torn : Bool} (hk : s.calls[k]? = some ⟨op, pc⟩) (hkeeps : s.Keeps (.advance k (.fail torn)))
    (h : s.advance k ⟨op, pc⟩ (.fail torn) = some t) : t.Inv := by
  cases hswallows : op.swallows with
  | false =>
    cases pc with
    | writing | written =>
      simp only [advance, hswallows, Option.some.injEq] at h
      subst h
      exact inv_fails hk rfl
    | updating | saving | returned => cases h
  | true =>
    obtain ⟨beforeMs, rfl⟩ : ∃ beforeMs, op = .Prune beforeMs := by
      cases op with
      | Prune beforeMs => exact ⟨beforeMs, rfl⟩
      | Ack | Unack => cases hswallows
    cases pc with
    | writing data =>
      cases h
      cases torn with
      | true =>
        simp only [Keeps, hk] at hkeeps
        exact inv_beside rfl rfl hkeeps
      | false =>
        simp only [Keeps, hk] at hkeeps
        exact inv_drop rfl rfl rfl rfl hkeeps
    | written =>
      cases h
      simp only [Keeps, hk] at hkeeps
      exact inv_drop rfl rfl rfl rfl hkeeps
    | updating | saving | returned => cases h

theorem inv_step {a : Action} (hkeeps : s.Keeps a) (hs : s.Inv) (h : s.step a = some t) : t.Inv := by
  cases a with
  | call op =>
    cases h
    rcases hs with ⟨c, hc, hfalse⟩ | hcovered
    · exact .inl ⟨c, List.mem_append_left _ hc, hfalse⟩
    · refine .inr (hcovered.mono fun j hdue => ?_)
      cases hget : s.calls[j]? with
      | none => simp [writers, hget, Due] at hdue
      | some c =>
        have hkept : (s.calls ++ [⟨op, .updating⟩])[j]? = some c := Growing.keep hget
        simpa [writers, hget, hkept] using hdue
  | advance k event =>
    simp only [step, Option.bind_eq_bind, Option.bind_eq_some_iff] at h
    obtain ⟨⟨op, pc⟩, hk, h⟩ := h
    rcases hs with herr | hcovered
    · -- An error is on record already.
      obtain ⟨u, pc', rfl, hcalls⟩ := advance_put h
      refine inv_error hk ?_ herr hcalls
      rintro rfl
      cases event <;> cases h
    · cases event with
      | ok => exact inv_ok hcovered hk hkeeps h
      | fail torn => exact inv_fail hk hkeeps h

end Step

theorem inv_init {s : Store} (h : machine.init s) : s.Inv := .inr (.inl h.1)

/-- A call from its snapshot to its end. -/
def saves (k : Nat) : List Action := [.advance k .ok, .advance k .ok, .advance k .ok]

/-- The second acknowledgement is made and saved between the first one's snapshot and its write. -/
def overtaken : List Action :=
  [.call (.Ack "a" 1), .call (.Ack "b" 2), .advance 0 .ok, .advance 0 .ok, .advance 1 .ok] ++ saves 1 ++
    [.advance 0 .ok, .advance 0 .ok]

def acknowledged : List Action := .call (.Ack "a" 1) :: .advance 0 .ok :: saves 0

end Store
end Marshal.Ackstore
