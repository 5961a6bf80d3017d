import Marshal.Proto

/-! The agent's end of a stream: the connections of a fleet client.

A client keeps its credentials from one connection to the next; a connection keeps
the watermarks its first message seeds. The functions that hand the client its
snapshots, rows and lines, and whether a send or a save succeeds, are arguments. -/
namespace Marshal.Fleet
open Proto

/-! ### Credentials -/

structure Client where
  name : String
  token : String := ""
  enrollTok : String := ""
  /-- Whether there is a `persistTok` to save a minted token with. -/
  persists : Bool := true
deriving DecidableEq

/-- The `marshal-token` and `marshal-enroll` a dial carries; `none` when it has neither. -/
def Client.metadata (cl : Client) : Option (String × String) :=
  if cl.token != "" then some (cl.token, "")
  else if cl.enrollTok != "" then some ("", cl.enrollTok)
  else if cl.persists then none
  else some ("", "")

/-! ### Receiving -/

variable {Op : Type}

/-- Where `connectOnce` is: before its first message, receiving commands, or returned. -/
inductive Phase where
  | hello
  | serving
  | returned
deriving DecidableEq

structure Conn (Op : Type) where
  phase : Phase := .hello
  watermark : Int := 0
  logWM : Int := 0
  /-- What it received, oldest first. -/
  received : List (ServerMessage Op) := []
  /-- What it passed to its command handler. -/
  handled : List (Command Op) := []
deriving DecidableEq

/-- The first message, taken for the acknowledgement. A minted token that cannot be
saved ends the connection; any other message leaves the watermarks at 0. -/
def Client.recvAck (cl : Client) (persisted : Bool) (c : Conn Op) (m : ServerMessage Op) :
    Client × Conn Op :=
  match m.helloAck? with
  | none => (cl, { c with phase := .serving })
  | some a =>
    let c := { c with watermark := a.lastMetricTsMs, logWM := a.lastLogTsMs }
    if a.agentToken != "" && cl.persists then
      if persisted then
        ({ cl with token := a.agentToken, enrollTok := "" }, { c with phase := .serving })
      else (cl, { c with phase := .returned })
    else (cl, { c with phase := .serving })

/-- The receiver goroutine: commands go to the handler, the rest is dropped. -/
def Conn.recvCommand (c : Conn Op) (m : ServerMessage Op) : Conn Op :=
  match m.command? with
  | some cmd => { c with handled := c.handled ++ [cmd] }
  | none => c

def Client.recv (persisted : Bool) : Client × Conn Op → ServerMessage Op → Client × Conn Op
  | (cl, c), m => match c.phase with
    | .hello => cl.recvAck persisted { c with received := c.received ++ [m] } m
    | .serving => (cl, Conn.recvCommand { c with received := c.received ++ [m] } m)
    | .returned => (cl, c)

/-- A connection that has been sent `ms`. -/
def Client.recvAll (cl : Client) (persisted : Bool) (ms : List (ServerMessage Op)) : Client × Conn Op :=
  ms.foldl (Client.recv persisted) (cl, {})

/-! ### Shipping -/

/-- The largest timestamp, at least 0. -/
def maxOf (tss : List Int) : Int := tss.foldl (fun mx ts => if mx < ts then ts else mx) 0

/-- Ship what is newer than the watermark and, when it was sent, move the watermark to
the largest timestamp shipped. `none` is a send error, which ends the connection. -/
def push {α : Type} (ts : α → Int) (items : List α) (sent : Bool) (watermark : Int) :
    Option (List (List α) × Int) :=
  if items.isEmpty then some ([], watermark)
  else if sent then
    let mx := maxOf (items.map ts)
    some ([items], if watermark < mx then mx else watermark)
  else none

/-- `samples` is what the metrics function gives for the watermark. -/
def pushMetrics (samples : List MetricSample) (sent : Bool) (watermark : Int) :
    Option (List (List MetricSample) × Int) :=
  push MetricSample.tsMs samples sent watermark

/-- `lines` is what the logs function gives for the watermark. -/
def pushLogs (lines : List LogShipLine) (sent : Bool) (watermark : Int) :
    Option (List (List LogShipLine) × Int) :=
  push LogShipLine.tsMs lines sent watermark

/-! ### What a connection makes of its messages -/

/-- The first message seeds the watermarks and the token, and every command is handled. -/
structure Understood (cl : Client) (persisted : Bool) (r : Client × Conn Op) : Prop where
  first : ∀ m ∈ r.2.received.head?, ∃ ack, m = .helloAck ack ∧
    r.2.watermark = ack.lastMetricTsMs ∧ r.2.logWM = ack.lastLogTsMs ∧
    (ack.agentToken ≠ "" → cl.persists = true → persisted = true →
      r.1.token = ack.agentToken ∧ r.1.enrollTok = "")
  handled : r.2.handled = r.2.received.filterMap ServerMessage.command?

theorem foldl_recv_serving (cl : Client) (persisted : Bool) (c : Conn Op) (hc : c.phase = .serving)
    (ms : List (ServerMessage Op)) : ms.foldl (Client.recv persisted) (cl, c) = (cl, { c with
      received := c.received ++ ms
      handled := c.handled ++ ms.filterMap ServerMessage.command? }) := by
  induction ms generalizing c with
  | nil => simp
  | cons m rest ih =>
    cases m with
    | helloAck ack =>
      have hrecv : Client.recv persisted (cl, c) (.helloAck ack) =
          (cl, { c with received := c.received ++ [.helloAck ack] }) := by
        simp [Client.recv, hc, Conn.recvCommand, ServerMessage.command?]
      rw [List.foldl_cons, hrecv, ih { c with received := c.received ++ [.helloAck ack] } hc]
      simp [List.filterMap_cons, ServerMessage.command?]
    | command cmd =>
      have hrecv : Client.recv persisted (cl, c) (.command cmd) =
          (cl, { c with received := c.received ++ [.command cmd], handled := c.handled ++ [cmd] }) := by
        simp [Client.recv, hc, Conn.recvCommand, ServerMessage.command?]
      rw [List.foldl_cons, hrecv,
        ih { c with received := c.received ++ [.command cmd], handled := c.handled ++ [cmd] } hc]
      simp [ServerMessage.command?]

theorem foldl_recv_returned (cl : Client) (persisted : Bool) (c : Conn Op) (hc : c.phase = .returned)
    (ms : List (ServerMessage Op)) : ms.foldl (Client.recv persisted) (cl, c) = (cl, c) := by
  induction ms with
  | nil => rfl
  | cons m rest ih =>
    have hrecv : Client.recv persisted (cl, c) m = (cl, c) := by simp [Client.recv, hc]
    rw [List.foldl_cons, hrecv, ih]

/-- Messages that begin with an acknowledgement are understood. -/
theorem understood_recvAll (cl : Client) (persisted : Bool) (ack : HelloAck)
    (ms : List (ServerMessage Op)) : Understood cl persisted (cl.recvAll persisted (.helloAck ack :: ms)) := by
  have hfirst : Client.recv persisted (cl, ({} : Conn Op)) (.helloAck ack) =
      cl.recvAck persisted { received := [.helloAck ack] } (.helloAck ack) := rfl
  rw [Client.recvAll, List.foldl_cons, hfirst]
  simp only [Client.recvAck, ServerMessage.helloAck?]
  split
  · cases persisted with
    | true =>
      rw [if_pos rfl, foldl_recv_serving _ _ _ rfl]
      exact ⟨by simp, by simp [List.filterMap_cons, ServerMessage.command?]⟩
    | false =>
      rw [if_neg Bool.false_ne_true, foldl_recv_returned _ _ _ rfl]
      exact ⟨by simp, by simp [List.filterMap_cons, ServerMessage.command?]⟩
  · next htoken =>
    rw [foldl_recv_serving _ _ _ rfl]
    refine ⟨?_, by simp [List.filterMap_cons, ServerMessage.command?]⟩
    -- there is no token to take, or nothing to save it with
    have hnone : ack.agentToken ≠ "" → cl.persists = true → False := by simpa using htoken
    simpa using fun htok hpersists => (hnone htok hpersists).elim

/-- Receiving takes the token of an acknowledgement, or leaves the client as it was. -/
theorem recv_client (cl : Client) (persisted : Bool) (c : Conn Op) (m : ServerMessage Op) :
    (Client.recv persisted (cl, c) m).1 = cl ∨ ∃ ack, m = .helloAck ack ∧ ack.agentToken ≠ "" ∧
      (Client.recv persisted (cl, c) m).1 = { cl with token := ack.agentToken, enrollTok := "" } := by
  cases hc : c.phase
  case serving => exact .inl (by simp only [Client.recv, hc])
  case returned => exact .inl (by simp only [Client.recv, hc])
  case hello =>
    simp only [Client.recv, hc]
    cases m with
    | command cmd => exact .inl rfl
    | helloAck ack =>
      simp only [Client.recvAck, ServerMessage.helloAck?]
      split
      · next htoken =>
        split
        · exact .inr ⟨ack, rfl, by simpa using (Bool.and_eq_true_iff.mp htoken).1, rfl⟩
        · exact .inl rfl
      · exact .inl rfl

/-- A command that comes first is taken for the acknowledgement. -/
theorem not_understood_recvAll (cl : Client) (persisted : Bool) (cmd : Command Op) :
    ¬ Understood cl persisted (cl.recvAll persisted [.command cmd]) := by
  intro h
  obtain ⟨ack, hack, -⟩ := h.first (.command cmd) rfl
  cases hack

end Marshal.Fleet
