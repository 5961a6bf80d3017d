import Marshal.Lib.System
import Marshal.Lib.Table
import Marshal.Proto

/-! One agent's control session: commands in flight and the replies to them.

A `session` is the server's side of a connected agent: a send path and a table of
the requests that wait for a reply. Dispatches, deliveries and the teardown run in
goroutines of their own; a step here is what one of them does under the lock, or
one channel operation. A reply channel is made by one dispatch and known by that
dispatch's position. -/
namespace Marshal.Server
open Proto

variable {Op Res : Type}

/-! ### State -/

/-- A result on its way to a dispatch; `arrival` is its place among all those delivered. -/
structure Delivery (Res : Type) where
  arrival : Nat
  result : Res
deriving DecidableEq

/-- A reply channel of capacity 1. -/
structure Chan (Res : Type) where
  buf : Option (Delivery Res) := none
  closed : Bool := false
deriving DecidableEq

inductive DispatchError where
  | send
  | context
  | disconnected
deriving DecidableEq

/-- Where a dispatch stands in its code. -/
inductive DispatchPc (Res : Type) where
  | sending
  | waiting
  /-- About to take its id out of the table and return the error. -/
  | removing (err : DispatchError)
  | returned (out : Except DispatchError (Delivery Res))

instance [DecidableEq Res] : DecidableEq (Except DispatchError (Delivery Res))
  | .error e, .error e' => decidable_of_iff (e = e') (by simp)
  | .ok v, .ok v' => decidable_of_iff (v = v') (by simp)
  | .error _, .ok _ => isFalse (by simp)
  | .ok _, .error _ => isFalse (by simp)

deriving instance DecidableEq for DispatchPc

structure Dispatch (Op Res : Type) where
  /-- The request id it sends. -/
  id : Nat
  op : Op
  ch : Chan Res := {}
  pc : DispatchPc Res := .sending
deriving DecidableEq

/-- What the dispatch returned, once it has. -/
def Dispatch.outcome (x : Dispatch Op Res) : Option (Except DispatchError (Delivery Res)) :=
  match x.pc with
  | .returned out => some out
  | _ => none

structure Session (Op Res : Type) where
  /-- The last request id given out. -/
  nextID : Nat := 0
  /-- Request id to dispatch, hence to reply channel. -/
  pending : Table Nat Nat := ∅
  dispatches : List (Dispatch Op Res) := []
  /-- Every result ever passed to `deliver`. -/
  arrived : List (CommandResult Res) := []
  /-- Deliveries past the lock, with the channel they are about to send to. -/
  puts : List (Nat × Delivery Res) := []
  /-- `failAll` has run. -/
  failed : Bool := false
  /-- A reply channel was sent to when closed or full, or closed twice. -/
  fault : Bool := false
deriving DecidableEq

/-! ### Operations -/

namespace Session

def outcome (s : Session Op Res) (d : Nat) : Option (Except DispatchError (Delivery Res)) :=
  (s.dispatches[d]?).bind Dispatch.outcome

def setDispatch (s : Session Op Res) (d : Nat) (x : Dispatch Op Res) : Session Op Res :=
  { s with dispatches := s.dispatches.set d x }

/-- The locked part of `dispatch`: a fresh id, a fresh channel, an entry in the table. -/
def dispatch (s : Session Op Res) (op : Op) : Session Op Res :=
  let id := s.nextID + 1
  { s with
    nextID := id
    pending := s.pending.set id s.dispatches.length
    dispatches := s.dispatches ++ [{ id := id, op := op }] }

/-- The locked part of `deliver`; unknown ids are dropped. -/
def deliver (s : Session Op Res) (r : CommandResult Res) : Session Op Res :=
  let s := { s with arrived := s.arrived ++ [r] }
  match s.pending.get r.requestId with
  | none => s
  | some d =>
    { s with
      pending := s.pending.del r.requestId
      puts := s.puts ++ [(d, ⟨s.arrived.length - 1, r.result⟩)] }

/-- `ch <- v` on the channel of dispatch `d`. -/
def put (s : Session Op Res) (d : Nat) (v : Delivery Res) : Session Op Res :=
  match s.dispatches[d]? with
  | none => s
  | some x =>
    if x.ch.closed || x.ch.buf.isSome then { s with fault := true }
    else s.setDispatch d { x with ch := { x.ch with buf := some v } }

/-- `close(ch)` on the channel of dispatch `d`. -/
def closeCh (s : Session Op Res) (d : Nat) : Session Op Res :=
  match s.dispatches[d]? with
  | none => s
  | some x =>
    if x.ch.closed then { s with fault := true }
    else s.setDispatch d { x with ch := { x.ch with closed := true } }

/-- Close every pending channel and empty the table. -/
def failAll (s : Session Op Res) : Session Op Res :=
  { (s.pending.toList.map Prod.snd).foldl closeCh s with pending := ∅, failed := true }

def remove (s : Session Op Res) (id : Nat) : Session Op Res := { s with pending := s.pending.del id }

end Session

/-! ### Steps -/

inductive SessionAct (Op Res : Type) where
  | dispatch (op : Op)
  /-- The send of dispatch `d` comes back. -/
  | send (d : Nat) (ok : Bool)
  /-- Dispatch `d` receives from its channel and returns. -/
  | take (d : Nat)
  /-- Dispatch `d` sees its context done. -/
  | expire (d : Nat)
  /-- Dispatch `d` takes its id out of the table and returns its error. -/
  | remove (d : Nat)
  | deliver (r : CommandResult Res)
  /-- The `i`-th delivery in flight sends to its channel. -/
  | put (i : Nat)
  | failAll
deriving DecidableEq

def Session.step (s : Session Op Res) : SessionAct Op Res → Option (Session Op Res)
  | .dispatch op => some (s.dispatch op)
  | .send d ok => match s.dispatches[d]? with
    | some x => match x.pc with
      | .sending =>
        some (s.setDispatch d { x with pc := if ok then .waiting else .removing .send })
      | _ => none
    | none => none
  | .take d => match s.dispatches[d]? with
    | some x => match x.pc with
      | .waiting => match x.ch.buf with
        | some v =>
          some (s.setDispatch d { x with ch := { x.ch with buf := none }, pc := .returned (.ok v) })
        | none =>
          if x.ch.closed then some (s.setDispatch d { x with pc := .returned (.error .disconnected) })
          else none
      | _ => none
    | none => none
  | .expire d => match s.dispatches[d]? with
    | some x => match x.pc with
      | .waiting => some (s.setDispatch d { x with pc := .removing .context })
      | _ => none
    | none => none
  | .remove d => match s.dispatches[d]? with
    | some x => match x.pc with
      | .removing e => some ((s.remove x.id).setDispatch d { x with pc := .returned (.error e) })
      | _ => none
    | none => none
  | .deliver r => some (s.deliver r)
  | .put i => match s.puts[i]? with
    | some (d, v) => some ({ s with puts := s.puts.eraseIdx i }.put d v)
    | none => none
  | .failAll => some s.failAll

/-- A session from its registration on. -/
def sessionSystem (Op Res : Type) : Transition.System (Session Op Res) (SessionAct Op Res) where
  init s := s = {}
  step := Session.step

/-! ### What a step does -/

namespace Session
variable {s t : Session Op Res} {d : Nat}

theorem getElem?_setDispatch {x : Dispatch Op Res} (hx : s.dispatches[d]? = some x)
    (y : Dispatch Op Res) (e : Nat) :
    (s.setDispatch d y).dispatches[e]? = if e = d then some y else s.dispatches[e]? := by
  have hlt := (List.getElem?_eq_some_iff.mp hx).1
  by_cases h : e = d
  · subst h
    simp [setDispatch, hlt]
  · rw [if_neg h]
    exact List.getElem?_set_ne fun hde => h hde.symm

/-- A step of dispatch `d` itself. -/
theorem step_send {ok : Bool} (h : s.step (.send d ok) = some t) :
    ∃ x, s.dispatches[d]? = some x ∧ x.pc = .sending ∧
      t = s.setDispatch d { x with pc := if ok then .waiting else .removing .send } := by
  simp only [step] at h
  split at h
  · next x hx =>
    split at h
    · next hpc => exact ⟨x, hx, hpc, by simpa using h.symm⟩
    · cases h
  · cases h

theorem step_take (h : s.step (.take d) = some t) :
    ∃ x, s.dispatches[d]? = some x ∧ x.pc = .waiting ∧
      ((∃ v, x.ch.buf = some v ∧
          t = s.setDispatch d { x with ch := { x.ch with buf := none }, pc := .returned (.ok v) }) ∨
        x.ch.buf = none ∧ x.ch.closed = true ∧
          t = s.setDispatch d { x with pc := .returned (.error .disconnected) }) := by
  simp only [step] at h
  split at h
  · next x hx =>
    split at h
    · next hpc =>
      split at h
      · next v hbuf => exact ⟨x, hx, hpc, .inl ⟨v, hbuf, by simpa using h.symm⟩⟩
      · next hbuf =>
        split at h
        · next hclosed => exact ⟨x, hx, hpc, .inr ⟨hbuf, hclosed, by simpa using h.symm⟩⟩
        · cases h
    · cases h
  · cases h

theorem step_expire (h : s.step (.expire d) = some t) :
    ∃ x, s.dispatches[d]? = some x ∧ x.pc = .waiting ∧
      t = s.setDispatch d { x with pc := .removing .context } := by
  simp only [step] at h
  split at h
  · next x hx =>
    split at h
    · next hpc => exact ⟨x, hx, hpc, by simpa using h.symm⟩
    · cases h
  · cases h

theorem step_remove (h : s.step (.remove d) = some t) :
    ∃ x e, s.dispatches[d]? = some x ∧ x.pc = .removing e ∧
      t = (s.remove x.id).setDispatch d { x with pc := .returned (.error e) } := by
  simp only [step] at h
  split at h
  · next x hx =>
    split at h
    · next e hpc => exact ⟨x, e, hx, hpc, by simpa using h.symm⟩
    · cases h
  · cases h

theorem step_put {i : Nat} (h : s.step (.put i) = some t) :
    ∃ d v, s.puts[i]? = some (d, v) ∧ t = { s with puts := s.puts.eraseIdx i }.put d v := by
  simp only [step] at h
  split at h
  · next d v hi => exact ⟨d, v, hi, by simpa using h.symm⟩
  · cases h

end Session

end Marshal.Server
