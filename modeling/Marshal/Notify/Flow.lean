import Marshal.Lib.System
import Marshal.Notify.Coalesce

/-! The coalescer among its callers.

`Emit` may run many times at once, beside `Run` and changes of the settings. What a call
does under the lock is one step; it reads the settings and forwards outside of it. A
recovery that goes through while an alert of its key is still on its way overtakes it,
and an alert buffered after the drain stays behind. A run without either keeps alerts
before their recoveries and leaves none behind (`order_kept`). -/
namespace Marshal.Notify
open Transition

/-! ### Callers -/

/-- Where an `Emit` call stands. -/
inductive Phase where
  | emitting (e : Event)
  /-- The settings are read and the window is on. -/
  | enabled (e : Event)
  /-- What it forwards came with call `src`. -/
  | forwarding (src : Nat) (e : Event)

/-- Where `Run` stands. -/
inductive Runner where
  | waiting
  | flushing
  | sweeping (s : Settings)
  | draining
  /-- What was taken out and is not forwarded yet; after the last of a drain `Run` returns. -/
  | forwarding (es : List (Nat × Event)) (last : Bool)
  | returned

def Runner.drained : Runner → Bool
  | .forwarding _ last => last
  | .returned => true
  | _ => false

structure Flow where
  settings : Settings
  buffer : Buffer := ∅
  run : Runner := .waiting
  calls : Table Nat Phase := ∅
  begun : Nat := 0
  -- the history: no step depends on it
  /-- The call that brought a key's buffered alert. -/
  owner : String → Nat := fun _ => 0
  /-- Whether call `a` had returned when call `r` began. -/
  earlier : Nat → Nat → Bool := fun _ _ => false
  log : List (Nat × Event) := []

inductive Action where
  | configure (s : Settings)
  | emit (e : Event)
  | read (id : Nat)
  | lock (id : Nat) (now : Int)
  | forward (id : Nat)
  | tick
  | readWindow
  | collect (now : Int)
  | cancel
  | drain
  | send (i : Nat)
  | finish

namespace Flow

def emit (f : Flow) (e : Event) : Flow :=
  { f with
    calls := f.calls.set f.begun (.emitting e)
    begun := f.begun + 1
    earlier := fun r a =>
      if r = f.begun then decide (a < f.begun) && (f.calls.get a).isNone else f.earlier r a }

def read (f : Flow) (id : Nat) (e : Event) : Flow :=
  { f with
    calls := f.calls.set id (if f.settings.coalesceWindow ≤ 0 then .forwarding id e else .enabled e) }

/-- A call that buffers its alert returns at once. -/
def lock (f : Flow) (id : Nat) (e : Event) (now : Int) : Flow :=
  let r := emitLocked f.buffer e now
  match r.2 with
  | none =>
    { f with
      buffer := r.1
      calls := f.calls.del id
      owner := fun k => if k = coalesceKey e then id else f.owner k }
  | some out =>
    let src := if recoverableAlert out.type then f.owner (coalesceKey e) else id
    { f with buffer := r.1, calls := f.calls.set id (.forwarding src out) }

/-- The events taken out of the buffer, each with the call that brought it. -/
def taken (f : Flow) (p : Pending → Bool) (es : List Event) : List (Nat × Event) :=
  ((f.buffer.toList.filter fun x => p x.2).map fun x => f.owner x.1).zip es

def collect (f : Flow) (s : Settings) (now : Int) : Flow :=
  let r := flush f.buffer s now
  { f with buffer := r.1, run := .forwarding (f.taken (due s now) r.2) false }

def drain (f : Flow) : Flow :=
  let r := Notify.drain f.buffer
  { f with buffer := r.1, run := .forwarding (f.taken (fun _ => true) r.2) true }

def step (f : Flow) : Action → Option Flow
  | .configure s => some { f with settings := s }
  | .emit e => some (f.emit e)
  | .read id => match f.calls.get id with
    | some (.emitting e) => some (f.read id e)
    | _ => none
  | .lock id now => match f.calls.get id with
    | some (.enabled e) => some (f.lock id e now)
    | _ => none
  | .forward id => match f.calls.get id with
    | some (.forwarding src e) => some { f with calls := f.calls.del id, log := f.log ++ [(src, e)] }
    | _ => none
  | .tick => match f.run with
    | .waiting => some { f with run := .flushing }
    | _ => none
  | .readWindow => match f.run with
    | .flushing => some { f with run := .sweeping f.settings }
    | _ => none
  | .collect now => match f.run with
    | .sweeping s => some (f.collect s now)
    | _ => none
  | .cancel => match f.run with
    | .waiting => some { f with run := .draining }
    | _ => none
  | .drain => match f.run with
    | .draining => some f.drain
    | _ => none
  | .send i => match f.run with
    | .forwarding es last => match es[i]? with
      | some x => some { f with run := .forwarding (es.eraseIdx i) last, log := f.log ++ [x] }
      | none => none
    | _ => none
  | .finish => match f.run with
    | .forwarding [] last => some { f with run := if last then .returned else .waiting }
    | _ => none

end Flow

def coalescing : System Flow Action where
  init f := ∃ s, f = { settings := s }
  step := Flow.step

/-! ### What is promised and what it takes -/

namespace Flow

/-- An event that came with call `src` is yet to be forwarded. -/
inductive Waits (f : Flow) : Nat → Event → Prop
  | buffered {k : String} {p : Pending} (h : f.buffer.get k = some p) : Waits f (f.owner k) p.ev
  | collected {es : List (Nat × Event)} {last : Bool} {x : Nat × Event}
      (h : f.run = .forwarding es last) (hx : x ∈ es) : Waits f x.1 x.2
  | emitted {id src : Nat} {e : Event} (h : f.calls.get id = some (.forwarding src e)) : Waits f src e

/-- No alert of the key waits whose call had returned when call `r` began. -/
def Clear (f : Flow) (r : Nat) (k : String) : Prop :=
  ∀ a e, f.Waits a e → recoverableAlert e.type = true → coalesceKey e = k → f.earlier r a = false

/-- `Emit` lets a recovery through only when the way is clear, and no alert is buffered once the
buffer is drained. -/
def InTime (f : Flow) : Action → Prop
  | .read id => ∀ e, f.calls.get id = some (.emitting e) → recoveryEvent e.type = true →
    f.settings.coalesceWindow ≤ 0 → f.Clear id (coalesceKey e)
  | .lock id _ => ∀ e, f.calls.get id = some (.enabled e) →
    (recoveryEvent e.type = true → f.buffer.get (coalesceKey e) = none → f.Clear id (coalesceKey e)) ∧
    (recoverableAlert e.type = true → f.run.drained = false)
  | _ => True

/-- No recovery was forwarded before an alert of its key whose call had returned when the
recovery's began. -/
def Ordered (f : Flow) : Prop :=
  f.log.Pairwise fun x y => recoveryEvent x.2.type = true → recoverableAlert y.2.type = true →
    coalesceKey x.2 = coalesceKey y.2 → f.earlier x.1 y.1 = false

/-- Once `Run` and all calls have returned, nothing is left. -/
def Emptied (f : Flow) : Prop :=
  f.run = .returned → (∀ id, f.calls.get id = none) → ∀ k, f.buffer.get k = none

/-! ### What a step can do -/

/-- Every step, with what it finds. -/
inductive Steps (f : Flow) : Action → Flow → Prop
  | configure (s : Settings) : Steps f (.configure s) { f with settings := s }
  | emit (e : Event) : Steps f (.emit e) (f.emit e)
  | read {id : Nat} {e : Event} (hcall : f.calls.get id = some (.emitting e)) :
    Steps f (.read id) (f.read id e)
  | lock {id : Nat} {e : Event} {now : Int} (hcall : f.calls.get id = some (.enabled e)) :
    Steps f (.lock id now) (f.lock id e now)
  | forward {id src : Nat} {e : Event} (hcall : f.calls.get id = some (.forwarding src e)) :
    Steps f (.forward id) { f with calls := f.calls.del id, log := f.log ++ [(src, e)] }
  | tick (hrun : f.run = .waiting) : Steps f .tick { f with run := .flushing }
  | readWindow (hrun : f.run = .flushing) : Steps f .readWindow { f with run := .sweeping f.settings }
  | collect {s : Settings} {now : Int} (hrun : f.run = .sweeping s) :
    Steps f (.collect now) (f.collect s now)
  | cancel (hrun : f.run = .waiting) : Steps f .cancel { f with run := .draining }
  | drain (hrun : f.run = .draining) : Steps f .drain f.drain
  | send {es : List (Nat × Event)} {last : Bool} {i : Nat} {x : Nat × Event}
    (hrun : f.run = .forwarding es last) (hx : es[i]? = some x) :
    Steps f (.send i) { f with run := .forwarding (es.eraseIdx i) last, log := f.log ++ [x] }
  | finish {last : Bool} (hrun : f.run = .forwarding [] last) :
    Steps f .finish { f with run := if last then .returned else .waiting }

theorem steps_of_step {f g : Flow} {a : Action} (h : f.step a = some g) : Steps f a g := by
  cases a with
  | configure s =>
    cases h
    exact .configure s
  | emit e =>
    cases h
    exact .emit e
  | read | lock | forward | tick | readWindow | collect | cancel | drain | finish =>
    simp only [step] at h
    split at h <;> cases h
    constructor
    assumption
  | send i =>
    simp only [step] at h
    split at h
    · split at h <;> cases h
      rename_i hrun _ _ hx
      exact .send hrun hx
    · cases h

structure Inv (f : Flow) : Prop where
  keyed : Keyed f.buffer
  alerts : ∀ k p, f.buffer.get k = some p → recoverableAlert p.ev.type = true
  taken : ∀ es last, f.run = .forwarding es last → ∀ x ∈ es, recoverableAlert x.2.type = true
  known : ∀ id c, f.calls.get id = some c → id < f.begun
  past : ∀ r a, f.earlier r a = true → r < f.begun ∧ a < f.begun ∧ f.calls.get a = none
  empty : f.run.drained = true → ∀ k, f.buffer.get k = none

theorem mem_taken {f : Flow} {p : Pending → Bool} {x : Nat × Event}
    (h : x ∈ f.taken p ((f.buffer.toList.filter fun y => p y.2).map fun y => y.2.ev)) :
    ∃ k q, f.buffer.get k = some q ∧ x = (f.owner k, q.ev) := by
  unfold taken at h
  rw [List.zip_map', List.mem_map] at h
  obtain ⟨y, hy, rfl⟩ := h
  exact ⟨y.1, y.2, (Table.mem_toList _ _ _).mp (List.mem_filter.mp hy).1, rfl⟩

theorem mem_taken_flush {f : Flow} {s : Settings} {now : Int} {x : Nat × Event}
    (h : x ∈ f.taken (due s now) (flush f.buffer s now).2) :
    ∃ k q, f.buffer.get k = some q ∧ x = (f.owner k, q.ev) :=
  mem_taken h

theorem mem_taken_drain {f : Flow} {x : Nat × Event}
    (h : x ∈ f.taken (fun _ => true) (Notify.drain f.buffer).2) :
    ∃ k q, f.buffer.get k = some q ∧ x = (f.owner k, q.ev) := by
  refine mem_taken (p := fun _ => true) ?_
  simpa [Notify.drain] using h

/-- What `emitLocked` can do: buffer an alert, let an event through, or hand out a merged alert. -/
theorem emitLocked_cases (b : Buffer) (e : Event) (now : Int) :
    (recoverableAlert e.type = true ∧ emitLocked b e now = (b.set (coalesceKey e) ⟨e, now⟩, none)) ∨
    (recoverableAlert e.type = false ∧ b.get (coalesceKey e) = none ∧
      emitLocked b e now = (b, some e)) ∨
    (recoverableAlert e.type = false ∧ ∃ p, b.get (coalesceKey e) = some p ∧
      emitLocked b e now = (b.del (coalesceKey e), some (merge p now))) := by
  unfold emitLocked
  cases halert : recoverableAlert e.type with
  | true => exact .inl ⟨rfl, by simp⟩
  | false =>
    have hrecovery : recoveryEvent e.type = true := by
      have := alert_or_recovery e.type
      simp_all
    cases hget : b.get (coalesceKey e) with
    | none => exact .inr (.inl ⟨rfl, rfl, by simp [hrecovery]⟩)
    | some p => exact .inr (.inr ⟨rfl, p, rfl, by simp [hrecovery]⟩)

/-- What waits after a step waited before it or came with a call under way; at most one event
that waited is forwarded, and what had returned before a call began stays so. -/
structure Moved (f g : Flow) : Prop where
  begun : f.begun ≤ g.begun
  earlier : ∀ r, r < f.begun → g.earlier r = f.earlier r
  waits : ∀ a e, g.Waits a e → recoverableAlert e.type = true → f.calls.get a ≠ none ∨
    ∃ e', f.Waits a e' ∧ recoverableAlert e'.type = true ∧ coalesceKey e' = coalesceKey e
  log : g.log = f.log ∨ ∃ x, f.Waits x.1 x.2 ∧ g.log = f.log ++ [x]

/-- A step that leaves the buffer, the calls and the history. -/
theorem moved_run {f g : Flow} (hbuffer : g.buffer = f.buffer) (hcalls : g.calls = f.calls)
    (howner : g.owner = f.owner) (hbegun : g.begun = f.begun) (hearlier : g.earlier = f.earlier)
    (hrun : ∀ es last x, g.run = .forwarding es last → x ∈ es → f.Waits x.1 x.2)
    (hlog : g.log = f.log ∨ ∃ x, f.Waits x.1 x.2 ∧ g.log = f.log ++ [x]) : Moved f g where
  begun := Nat.le_of_eq hbegun.symm
  earlier _ _ := by rw [hearlier]
  waits a e hwaits halert := by
    cases hwaits with
    | buffered h =>
      rw [hbuffer] at h
      rw [howner]
      exact .inr ⟨_, .buffered h, halert, rfl⟩
    | collected h hx => exact .inr ⟨_, hrun _ _ _ h hx, halert, rfl⟩
    | emitted h =>
      rw [hcalls] at h
      exact .inr ⟨_, .emitted h, halert, rfl⟩
  log := hlog

theorem moved_emit (f : Flow) (e : Event) : Moved f (f.emit e) where
  begun := Nat.le_succ _
  earlier r hr := by
    have hne : r ≠ f.begun := by omega
    funext a
    simp [emit, hne]
  waits a e' hwaits halert := by
    cases hwaits with
    | buffered hget => exact .inr ⟨_, .buffered hget, halert, rfl⟩
    | collected hrun hx => exact .inr ⟨_, .collected hrun hx, halert, rfl⟩
    | @emitted id src e' hcall =>
      simp only [emit, Table.get_set] at hcall
      split at hcall
      · cases hcall
      · exact .inr ⟨_, .emitted hcall, halert, rfl⟩
  log := .inl rfl

theorem moved_read {f : Flow} {id : Nat} {e : Event} (hcall : f.calls.get id = some (.emitting e)) :
    Moved f (f.read id e) where
  begun := Nat.le_refl _
  earlier _ _ := rfl
  waits a e' hwaits halert := by
    cases hwaits with
    | buffered hget => exact .inr ⟨_, .buffered hget, halert, rfl⟩
    | collected hrun hx => exact .inr ⟨_, .collected hrun hx, halert, rfl⟩
    | @emitted id' src e' hcall' =>
      simp only [read, Table.get_set] at hcall'
      split at hcall'
      · split at hcall'
        · cases hcall'
          exact .inl (by simp [hcall])
        · cases hcall'
      · exact .inr ⟨_, .emitted hcall', halert, rfl⟩
  log := .inl rfl

theorem moved_lock {f : Flow} (h : f.Inv) {id : Nat} {e : Event} {now : Int}
    (hcall : f.calls.get id = some (.enabled e)) : Moved f (f.lock id e now) := by
  unfold lock
  rcases emitLocked_cases f.buffer e now with ⟨halert, heq⟩ | ⟨hrec, hget, heq⟩ | ⟨hrec, p, hget, heq⟩
  · rw [heq]
    refine ⟨Nat.le_refl _, fun _ _ => rfl, fun a e' hwaits halert' => ?_, .inl rfl⟩
    cases hwaits with
    | @buffered k q hget =>
      simp only [Table.get_set] at hget
      by_cases hk : k = coalesceKey e
      · exact .inl (by simp [hk, hcall])
      · simp only [if_neg hk] at hget ⊢
        exact .inr ⟨_, .buffered hget, halert', rfl⟩
    | collected hrun hx => exact .inr ⟨_, .collected hrun hx, halert', rfl⟩
    | @emitted id' src e' hcall' =>
      simp only [Table.get_del] at hcall'
      split at hcall'
      · cases hcall'
      · exact .inr ⟨_, .emitted hcall', halert', rfl⟩
  · rw [heq]
    refine ⟨Nat.le_refl _, fun _ _ => rfl, fun a e' hwaits halert' => ?_, .inl rfl⟩
    cases hwaits with
    | buffered hget => exact .inr ⟨_, .buffered hget, halert', rfl⟩
    | collected hrun hx => exact .inr ⟨_, .collected hrun hx, halert', rfl⟩
    | @emitted id' src e' hcall' =>
      simp only [Table.get_set] at hcall'
      split at hcall'
      · cases hcall'
        rw [hrec] at halert'
        cases halert'
      · exact .inr ⟨_, .emitted hcall', halert', rfl⟩
  · rw [heq]
    refine ⟨Nat.le_refl _, fun _ _ => rfl, fun a e' hwaits halert' => ?_, .inl rfl⟩
    cases hwaits with
    | @buffered k q hget' =>
      simp only [Table.get_del] at hget'
      split at hget'
      · cases hget'
      · exact .inr ⟨_, .buffered hget', halert', rfl⟩
    | collected hrun hx => exact .inr ⟨_, .collected hrun hx, halert', rfl⟩
    | @emitted id' src e' hcall' =>
      simp only [Table.get_set] at hcall'
      split at hcall'
      · cases hcall'
        have hmerged : recoverableAlert (merge p now).type = true := h.alerts _ p hget
        rw [if_pos hmerged]
        exact .inr ⟨p.ev, .buffered hget, h.alerts _ p hget, rfl⟩
      · exact .inr ⟨_, .emitted hcall', halert', rfl⟩

theorem moved_forward {f : Flow} {id src : Nat} {e : Event}
    (hcall : f.calls.get id = some (.forwarding src e)) :
    Moved f { f with calls := f.calls.del id, log := f.log ++ [(src, e)] } where
  begun := Nat.le_refl _
  earlier _ _ := rfl
  waits a e' hwaits halert := by
    cases hwaits with
    | buffered hget => exact .inr ⟨_, .buffered hget, halert, rfl⟩
    | collected hrun hx => exact .inr ⟨_, .collected hrun hx, halert, rfl⟩
    | @emitted id' src' e' hcall' =>
      simp only [Table.get_del] at hcall'
      split at hcall'
      · cases hcall'
      · exact .inr ⟨_, .emitted hcall', halert, rfl⟩
  log := .inr ⟨(src, e), .emitted hcall, rfl⟩

theorem collect_buffer {f : Flow} {s : Settings} {now : Int} {k : String} {p : Pending}
    (h : (f.collect s now).buffer.get k = some p) : f.buffer.get k = some p := by
  have h : (f.buffer.discard fun _ p => due s now p).get k = some p := h
  rw [Table.get_discard, Option.filter_eq_some_iff] at h
  exact h.1

theorem moved_collect (f : Flow) (s : Settings) (now : Int) : Moved f (f.collect s now) where
  begun := Nat.le_refl _
  earlier _ _ := rfl
  waits a e hwaits halert := by
    cases hwaits with
    | buffered hget => exact .inr ⟨_, .buffered (collect_buffer hget), halert, rfl⟩
    | @collected es last x hrun hx =>
      cases hrun
      obtain ⟨k, q, hget, rfl⟩ := mem_taken_flush hx
      exact .inr ⟨_, .buffered hget, halert, rfl⟩
    | emitted hcall => exact .inr ⟨_, .emitted hcall, halert, rfl⟩
  log := .inl rfl

theorem moved_drain (f : Flow) : Moved f f.drain where
  begun := Nat.le_refl _
  earlier _ _ := rfl
  waits a e hwaits halert := by
    cases hwaits with
    | buffered hget => cases hget
    | @collected es last x hrun hx =>
      cases hrun
      obtain ⟨k, q, hget, rfl⟩ := mem_taken_drain hx
      exact .inr ⟨_, .buffered hget, halert, rfl⟩
    | emitted hcall => exact .inr ⟨_, .emitted hcall, halert, rfl⟩
  log := .inl rfl

theorem moved_step {f g : Flow} {a : Action} (h : f.Inv) (hstep : f.step a = some g) :
    Moved f g := by
  cases steps_of_step hstep with
  | configure s =>
    exact moved_run rfl rfl rfl rfl rfl (fun _ _ _ hrun hx => .collected hrun hx) (.inl rfl)
  | emit e => exact moved_emit f e
  | read hcall => exact moved_read hcall
  | lock hcall => exact moved_lock h hcall
  | forward hcall => exact moved_forward hcall
  | tick | readWindow | cancel =>
    exact moved_run rfl rfl rfl rfl rfl (fun _ _ _ hrun _ => absurd hrun (by simp)) (.inl rfl)
  | collect => exact moved_collect f _ _
  | drain => exact moved_drain f
  | send hrun hx =>
    refine moved_run rfl rfl rfl rfl rfl ?_
      (.inr ⟨_, .collected hrun (List.mem_of_getElem? hx), rfl⟩)
    intro es last y hrun' hy
    cases hrun'
    exact .collected hrun (List.mem_of_mem_eraseIdx hy)
  | finish =>
    refine moved_run rfl rfl rfl rfl rfl ?_ (.inl rfl)
    intro es last x hrun hx
    simp only at hrun
    split at hrun <;> cases hrun

/-! ### Invariants -/

theorem inv_start (s : Settings) : Inv { settings := s } where
  keyed k p h := by cases h
  alerts k p h := by cases h
  taken es last h := by cases h
  known id c h := by cases h
  past r a h := by cases h
  empty h := by cases h

theorem inv_emit {f : Flow} (h : f.Inv) (e : Event) : (f.emit e).Inv where
  keyed := h.keyed
  alerts := h.alerts
  taken := h.taken
  known id c hcall := by
    simp only [emit, Table.get_set] at hcall ⊢
    split at hcall
    · omega
    · have := h.known id c hcall
      omega
  past r a hpast := by
    simp only [emit, Table.get_set] at hpast ⊢
    have hfresh : f.calls.get a = none ∧ a < f.begun ∧ r < f.begun + 1 := by
      split at hpast
      · simp only [Bool.and_eq_true, decide_eq_true_eq, Option.isNone_iff_eq_none] at hpast
        exact ⟨hpast.2, hpast.1, by omega⟩
      · have := h.past r a hpast
        exact ⟨this.2.2, this.2.1, by omega⟩
    rw [if_neg (by omega)]
    exact ⟨hfresh.2.2, by omega, hfresh.1⟩
  empty := h.empty

/-- A step of a call that was under way. -/
theorem inv_call {f g : Flow} (h : f.Inv) {id : Nat} {c : Phase} (hcall : f.calls.get id = some c)
    (hkeyed : Keyed g.buffer)
    (halerts : ∀ k p, g.buffer.get k = some p → recoverableAlert p.ev.type = true)
    (hempty : f.run.drained = true → ∀ k, g.buffer.get k = none) (hrun : g.run = f.run)
    (hbegun : g.begun = f.begun) (hearlier : g.earlier = f.earlier)
    (hcalls : ∀ id', id' ≠ id → g.calls.get id' = f.calls.get id') : g.Inv where
  keyed := hkeyed
  alerts := halerts
  taken es last hes := h.taken es last (hrun ▸ hes)
  known id' c' hcall' := by
    rw [hbegun]
    by_cases hid : id' = id
    · rw [hid]
      exact h.known id c hcall
    · exact h.known id' c' (hcalls id' hid ▸ hcall')
  past r a hpast := by
    rw [hbegun]
    rw [hearlier] at hpast
    obtain ⟨hr, ha, hnone⟩ := h.past r a hpast
    have hid : a ≠ id := by
      intro hid
      rw [hid, hcall] at hnone
      cases hnone
    exact ⟨hr, ha, by rw [hcalls a hid, hnone]⟩
  empty hdrained := hempty (hrun ▸ hdrained)

/-- A step of `Run` that only takes entries out of the buffer. -/
theorem inv_run {f g : Flow} (h : f.Inv) (hcalls : g.calls = f.calls) (hbegun : g.begun = f.begun)
    (hearlier : g.earlier = f.earlier)
    (hbuffer : ∀ k p, g.buffer.get k = some p → f.buffer.get k = some p)
    (htaken : ∀ es last, g.run = .forwarding es last → ∀ x ∈ es, recoverableAlert x.2.type = true)
    (hempty : g.run.drained = true → ∀ k, g.buffer.get k = none) : g.Inv where
  keyed k p hget := h.keyed k p (hbuffer k p hget)
  alerts k p hget := h.alerts k p (hbuffer k p hget)
  taken := htaken
  known id c hcall := by
    rw [hbegun]
    exact h.known id c (hcalls ▸ hcall)
  past r a hpast := by
    rw [hbegun, hcalls]
    exact h.past r a (hearlier ▸ hpast)
  empty := hempty

theorem inv_lock {f : Flow} (h : f.Inv) {id : Nat} {e : Event} {now : Int}
    (hcall : f.calls.get id = some (.enabled e))
    (hopen : recoverableAlert e.type = true → f.run.drained = false) : (f.lock id e now).Inv := by
  have hset : ∀ {c : Phase} (id' : Nat), id' ≠ id → (f.calls.set id c).get id' = f.calls.get id' :=
    fun id' hid => by rw [Table.get_set, if_neg hid]
  have hdel : ∀ id' : Nat, id' ≠ id → (f.calls.del id).get id' = f.calls.get id' :=
    fun id' hid => by rw [Table.get_del, if_neg hid]
  unfold lock
  rcases emitLocked_cases f.buffer e now with ⟨halert, heq⟩ | ⟨-, -, heq⟩ | ⟨-, p, hget, heq⟩
  · rw [heq]
    refine inv_call h hcall ?_ ?_ ?_ rfl rfl rfl hdel
    · intro k p hget
      simp only [Table.get_set] at hget
      split at hget
      · cases hget
        symm
        assumption
      · exact h.keyed k p hget
    · intro k p hget
      simp only [Table.get_set] at hget
      split at hget
      · cases hget
        exact halert
      · exact h.alerts k p hget
    · intro hdrained
      rw [hopen halert] at hdrained
      cases hdrained
  · rw [heq]
    exact inv_call h hcall h.keyed h.alerts h.empty rfl rfl rfl hset
  · rw [heq]
    refine inv_call h hcall ?_ ?_ ?_ rfl rfl rfl hset
    · intro k q hget'
      simp only [Table.get_del] at hget'
      split at hget'
      · cases hget'
      · exact h.keyed k q hget'
    · intro k q hget'
      simp only [Table.get_del] at hget'
      split at hget'
      · cases hget'
      · exact h.alerts k q hget'
    · intro hdrained
      rw [h.empty hdrained] at hget
      cases hget

theorem inv_collect {f : Flow} (h : f.Inv) (s : Settings) (now : Int) : (f.collect s now).Inv := by
  refine inv_run h rfl rfl rfl (fun _ _ => collect_buffer) ?_
    (fun hdrained => absurd hdrained (by simp [collect, Runner.drained]))
  intro es last hes x hx
  cases hes
  obtain ⟨k, q, hget, rfl⟩ := mem_taken_flush hx
  exact h.alerts k q hget

theorem inv_drain {f : Flow} (h : f.Inv) : f.drain.Inv := by
  refine inv_run h rfl rfl rfl (fun k p hget => by cases hget) ?_ (fun _ _ => rfl)
  intro es last hes x hx
  cases hes
  obtain ⟨k, q, hget, rfl⟩ := mem_taken_drain hx
  exact h.alerts k q hget

theorem inv_step {f g : Flow} {a : Action} (hrule : f.InTime a) (h : f.Inv)
    (hstep : f.step a = some g) : g.Inv := by
  cases steps_of_step hstep with
  | configure s => exact inv_run h rfl rfl rfl (fun _ _ => id) h.taken h.empty
  | emit e => exact inv_emit h e
  | read hcall =>
    exact inv_call h hcall h.keyed h.alerts h.empty rfl rfl rfl
      fun id' hid => by simp only [read, Table.get_set, if_neg hid]
  | lock hcall => exact inv_lock h hcall (hrule _ hcall).2
  | forward hcall =>
    exact inv_call h hcall h.keyed h.alerts h.empty rfl rfl rfl
      fun id' hid => by simp only [Table.get_del, if_neg hid]
  | tick | readWindow | cancel =>
    exact inv_run h rfl rfl rfl (fun _ _ => id) (fun _ _ hrun => absurd hrun (by simp))
      (fun hdrained => absurd hdrained (by simp [Runner.drained]))
  | collect => exact inv_collect h _ _
  | drain => exact inv_drain h
  | send hrun hx =>
    refine inv_run h rfl rfl rfl (fun _ _ => id) ?_ ?_
    · intro es' last' hes y hy
      cases hes
      exact h.taken _ _ hrun y (List.mem_of_mem_eraseIdx hy)
    · intro hdrained
      exact h.empty (by simpa [hrun, Runner.drained] using hdrained)
  | @finish last hrun =>
    refine inv_run h rfl rfl rfl (fun _ _ => id) ?_ ?_
    · intro es last' hes
      simp only at hes
      split at hes <;> cases hes
    · intro hdrained
      cases last with
      | true => exact h.empty (by simp [hrun, Runner.drained])
      | false => simp [Runner.drained] at hdrained

/-! ### No overtaking -/

/-- A recovery that is to go through, or went through. -/
def Decided (f : Flow) (r : Nat) (e : Event) : Prop :=
  recoveryEvent e.type = true ∧ ((r, e) ∈ f.log ∨ ∃ id, f.calls.get id = some (.forwarding r e))

structure Kept (f : Flow) : Prop where
  inv : f.Inv
  decided : ∀ r e, f.Decided r e → r < f.begun ∧ f.Clear r (coalesceKey e)
  ordered : f.Ordered

theorem not_recovery {t : EventType} (h : recoverableAlert t = true) : recoveryEvent t ≠ true := by
  have := alert_or_recovery t
  simp_all

/-- A recovery that waits is on its way from its own call. -/
theorem decided_of_waits {f : Flow} (h : f.Inv) {r : Nat} {e : Event} (hwaits : f.Waits r e)
    (hrec : recoveryEvent e.type = true) : f.Decided r e := by
  cases hwaits with
  | buffered hget => exact absurd hrec (not_recovery (h.alerts _ _ hget))
  | collected hrun hx => exact absurd hrec (not_recovery (h.taken _ _ hrun _ hx))
  | emitted hcall => exact ⟨hrec, .inr ⟨_, hcall⟩⟩

theorem forwarding_lock {f : Flow} (h : f.Inv) {id id' r : Nat} {e e' : Event} {now : Int}
    (hlock : f.calls.get id' = some (.enabled e')) (hrule : f.InTime (.lock id' now))
    (hcall : (f.lock id' e' now).calls.get id = some (.forwarding r e))
    (hrec : recoveryEvent e.type = true) :
    f.calls.get id = some (.forwarding r e) ∨ (r < f.begun ∧ f.Clear r (coalesceKey e)) := by
  unfold lock at hcall
  rcases emitLocked_cases f.buffer e' now with ⟨-, heq⟩ | ⟨hother, hget, heq⟩ | ⟨-, p, hget, heq⟩
  · rw [heq] at hcall
    simp only [Table.get_del] at hcall
    split at hcall
    · cases hcall
    · exact .inl hcall
  · rw [heq] at hcall
    simp only [Table.get_set] at hcall
    split at hcall
    · cases hcall
      simp only [hother, Bool.false_eq_true, if_false]
      exact .inr ⟨h.known _ _ hlock, (hrule e hlock).1 hrec hget⟩
    · exact .inl hcall
  · rw [heq] at hcall
    simp only [Table.get_set] at hcall
    split at hcall
    · cases hcall
      exact absurd hrec (not_recovery (h.alerts _ p hget))
    · exact .inl hcall

/-- A call comes to forward a recovery only by a step that finds the way clear. -/
theorem forwarding_step {f g : Flow} {a : Action} (hrule : f.InTime a) (h : f.Inv)
    (hstep : f.step a = some g) {id r : Nat} {e : Event}
    (hcall : g.calls.get id = some (.forwarding r e)) (hrec : recoveryEvent e.type = true) :
    f.calls.get id = some (.forwarding r e) ∨ (r < f.begun ∧ f.Clear r (coalesceKey e)) := by
  cases steps_of_step hstep with
  | configure | tick | readWindow | collect | cancel | drain | send | finish => exact .inl hcall
  | emit e' =>
    simp only [emit, Table.get_set] at hcall
    split at hcall
    · cases hcall
    · exact .inl hcall
  | read hread =>
    simp only [read, Table.get_set] at hcall
    split at hcall
    · split at hcall
      · rename_i hoff
        cases hcall
        exact .inr ⟨h.known _ _ hread, hrule _ hread hrec hoff⟩
      · cases hcall
    · exact .inl hcall
  | lock hlock => exact forwarding_lock h hlock hrule hcall hrec
  | forward _ =>
    simp only [Table.get_del] at hcall
    split at hcall
    · cases hcall
    · exact .inl hcall

theorem clear_moved {f g : Flow} (h : f.Inv) (hmoved : Moved f g) {r : Nat} {k : String}
    (hr : r < f.begun) (hclear : f.Clear r k) : g.Clear r k := by
  intro a e hwaits halert hkey
  rw [hmoved.earlier r hr]
  rcases hmoved.waits a e hwaits halert with hactive | ⟨e', hwaits', halert', hkey'⟩
  · cases hearlier : f.earlier r a with
    | false => rfl
    | true => exact absurd (h.past r a hearlier).2.2 hactive
  · exact hclear a e' hwaits' halert' (hkey'.trans hkey)

theorem decided_step {f g : Flow} {a : Action} (hrule : f.InTime a) (h : f.Kept)
    (hstep : f.step a = some g) {r : Nat} {e : Event} (hdecided : g.Decided r e) :
    r < g.begun ∧ g.Clear r (coalesceKey e) := by
  have hmoved := moved_step h.inv hstep
  obtain ⟨hrec, hcase⟩ := hdecided
  have hbefore : r < f.begun ∧ f.Clear r (coalesceKey e) := by
    rcases hcase with hlog | ⟨id, hcall⟩
    · rcases hmoved.log with heq | ⟨x, hx, heq⟩
      · exact h.decided r e ⟨hrec, .inl (heq ▸ hlog)⟩
      · rw [heq, List.mem_append, List.mem_singleton] at hlog
        rcases hlog with hlog | rfl
        · exact h.decided r e ⟨hrec, .inl hlog⟩
        · exact h.decided r e (decided_of_waits h.inv hx hrec)
    · rcases forwarding_step hrule h.inv hstep hcall hrec with hcall | hclear
      · exact h.decided r e ⟨hrec, .inr ⟨id, hcall⟩⟩
      · exact hclear
  exact ⟨Nat.lt_of_lt_of_le hbefore.1 hmoved.begun, clear_moved h.inv hmoved hbefore.1 hbefore.2⟩

theorem ordered_step {f g : Flow} {a : Action} (h : f.Kept) (hstep : f.step a = some g) :
    g.Ordered := by
  have hmoved := moved_step h.inv hstep
  have hold : f.log.Pairwise fun x y => recoveryEvent x.2.type = true →
      recoverableAlert y.2.type = true → coalesceKey x.2 = coalesceKey y.2 →
      g.earlier x.1 y.1 = false := by
    refine h.ordered.imp_of_mem fun {x y} hx _ hxy hrec halert hkey => ?_
    rw [hmoved.earlier _ (h.decided x.1 x.2 ⟨hrec, .inl hx⟩).1]
    exact hxy hrec halert hkey
  unfold Ordered
  rcases hmoved.log with heq | ⟨y, hy, heq⟩
  · rw [heq]
    exact hold
  · rw [heq, List.pairwise_append]
    refine ⟨hold, List.pairwise_singleton _ _, fun x hx y' hy' hrec halert hkey => ?_⟩
    obtain rfl := List.mem_singleton.mp hy'
    obtain ⟨hr, hclear⟩ := h.decided x.1 x.2 ⟨hrec, .inl hx⟩
    rw [hmoved.earlier _ hr]
    exact hclear _ _ hy halert hkey.symm

theorem kept_step {f g : Flow} {a : Action} (hrule : f.InTime a) (h : f.Kept)
    (hstep : f.step a = some g) : g.Kept :=
  ⟨inv_step hrule h.inv hstep, fun _ _ => decided_step hrule h hstep, ordered_step h hstep⟩

theorem kept_start (s : Settings) : Kept { settings := s } where
  inv := inv_start s
  decided r e h := by
    obtain ⟨-, hlog | ⟨id, hcall⟩⟩ := h
    · cases hlog
    · cases hcall
  ordered := List.Pairwise.nil

def crashed : Event := { type := .crash, agent := "dev-1", process := "api", time := 0 }

def recovered : Event := { type := .recovered, agent := "dev-1", process := "api", time := 4 }

/-- A crash is buffered, its recovery is merged into it, and `Run` drains and returns. -/
def mergedRun : List Action :=
  [.emit crashed, .read 0, .lock 0 0, .emit recovered, .read 1, .lock 1 4, .forward 1, .cancel,
    .drain, .finish]

theorem mergedRun_in_time : coalescing.Along InTime { settings := {} } mergedRun := by
  refine .intro trivial (.intro ?_ (.intro ?_ (.intro trivial (.intro ?_ (.intro ?_ (.intro trivial
    (.intro trivial (.intro trivial (.intro trivial trivial)))))))))
  · intro e _ _ hoff
    exact absurd hoff (by decide)
  · intro e hcall
    cases hcall
    exact ⟨fun hrec => absurd hrec (by decide), fun _ => rfl⟩
  · intro e _ _ hoff
    exact absurd hoff (by decide)
  · intro e hcall
    cases hcall
    exact ⟨fun _ hnone => absurd hnone (by decide), fun _ => rfl⟩

/-- The flush has taken the crash out and has not forwarded it yet when its recovery arrives. -/
def overtakingFlush : List Action :=
  [.emit crashed, .read 0, .lock 0 0, .tick, .readWindow, .collect (10 * 1000000000),
    .emit recovered, .read 1, .lock 1 (11 * 1000000000), .forward 1, .send 0]

/-- The window is turned off while the crash is buffered. -/
def overtakingSettings : List Action :=
  [.emit crashed, .read 0, .lock 0 0, .configure { coalesceWindowSeconds := some 0 },
    .emit recovered, .read 1, .forward 1, .tick, .readWindow, .collect 5, .send 0]

/-- The crash comes after the drain. -/
def lateAlert : List Action := [.cancel, .drain, .finish, .emit crashed, .read 0, .lock 0 0]

theorem not_ordered {f : Flow} (h : f.log.map (fun x => (x.1, x.2.type)) = [(1, .recovered), (0, .crash)])
    (hkeys : ∀ x ∈ f.log, coalesceKey x.2 = coalesceKey crashed) (hearlier : f.earlier 1 0 = true) :
    ¬ f.Ordered := by
  intro hordered
  unfold Ordered at hordered
  obtain ⟨x, rest, hlog, hx, hrest⟩ := List.map_eq_cons_iff.mp h
  obtain ⟨y, tail, rfl, hy, -⟩ := List.map_eq_cons_iff.mp hrest
  rw [hlog] at hordered hkeys
  obtain ⟨hx₁, hx₂⟩ := Prod.ext_iff.mp hx
  obtain ⟨hy₁, hy₂⟩ := Prod.ext_iff.mp hy
  simp only at hx₁ hx₂ hy₁ hy₂
  have hkey : coalesceKey x.2 = coalesceKey y.2 :=
    (hkeys x (by simp)).trans (hkeys y (by simp)).symm
  have hfalse := (List.pairwise_cons.mp hordered).1 y (by simp) (by rw [hx₂]; rfl) (by rw [hy₂]; rfl) hkey
  rw [hx₁, hy₁, hearlier] at hfalse
  cases hfalse

end Flow
end Marshal.Notify
