import Marshal.Lib.Growing
import Marshal.Server.Auth
import Marshal.Server.Broker
import Marshal.Server.Registry
import Marshal.Server.Stores

/-! The running server: any number of `Connect` handlers beside the dispatches.

One handler terminates one agent's stream. A step takes it from one shared access
to the next, so that the handlers, the dispatches, the clock, the sweep of the
registry and changes of the credentials interleave as their locks let them. What
the outside decides for a step is its `Choice`. -/
namespace Marshal.Server
open Proto

/-! ### State -/

/-- How `Connect` ends. -/
inductive Ended where
  | eof
  | recvError
  | refused (status : Status)
deriving DecidableEq

/-- What a handler does next. From `close` on it is on its way out. -/
inductive Pc (Res : Type) where
  | recv
  | hello (h : Hello)
  | openReg (h : Hello) (ack : HelloAck)
  | setMeta (h : Hello) (ack : HelloAck)
  | register (ack : HelloAck)
  | metricTs (ack : HelloAck)
  | logTs (ack : HelloAck)
  | sendAck (ack : HelloAck)
  | update (procs : List ProcInfo) (host : Option HostMetrics)
  | storeBatch (samples : List MetricSample)
  | storeLogBatch (lines : List LogShipLine)
  | deliver (r : CommandResult Res)
  | put
  | close (out : Ended)
  | unregister (out : Ended)
  | failAll (out : Ended)
  | returned (out : Ended)
deriving DecidableEq

structure Stream (Op Res : Type) where
  /-- From the stream's context. -/
  identity : Identity
  ip : String
  name : String := ""
  sess : Option Nat := none
  pc : Pc Res := .recv
  /-- What was sent down, oldest first. -/
  down : List (ServerMessage Op) := []
  /-- The names it opened in the registry. -/
  opened : List String := []
  /-- The sessions it registered, each with its name. -/
  registered : List (String × Nat) := []
  /-- The name and time of its last `Open` or `Update`. -/
  heard : Option (String × Int) := none
deriving DecidableEq

structure State (Op Res : Type) where
  auth : AuthData := {}
  reg : Registry := {}
  data : DataDir := {}
  /-- Whether the server keeps metrics and logs. -/
  hasStores : Bool := true
  hasLogs : Bool := true
  broker : Broker Op Res := {}
  /-- The stream each session sends on. -/
  sendsOn : List Nat := []
  streams : List (Stream Op Res) := []
  now : Int := 0

/-- What the outside decides for a step of a handler: the random source, the disk
and the connection. -/
structure Choice where
  fresh : Option String := none
  saved : Bool := true
  opening : Opening := .ok
  reads : Bool := true
  appended : Nat := 0
  appends : Bool := true
  sent : Bool := true

variable {Op Res : Type}

namespace State

def setStream (s : State Op Res) (i : Nat) (st : Stream Op Res) : State Op Res :=
  { s with streams := s.streams.set i st }

def setSession (s : State Op Res) (j : Nat) (ses : Session Op Res) : State Op Res :=
  { s with broker := { s.broker with all := s.broker.all.set j ses } }

end State

/-! ### The handler -/

/-- The deferred cleanup, where there is a session to clean up. -/
def Stream.leave (st : Stream Op Res) (out : Ended) : Stream Op Res :=
  { st with pc := if st.sess.isSome then .unregister out else .returned out }

/-- Receive a message and see what it asks for. -/
def Stream.recv (hasStores hasLogs : Bool) (st : Stream Op Res) : AgentMessage Res → Stream Op Res
  | .hello h => { st with pc := .hello h }
  | .snapshot procs host => if st.name != "" then { st with pc := .update procs host } else st
  | .metrics samples => if st.name != "" && hasStores then { st with pc := .storeBatch samples } else st
  | .logs lines => if st.name != "" && hasLogs then { st with pc := .storeLogBatch lines } else st
  | .result r => if st.sess.isSome then { st with pc := .deliver r } else st

/-- `Recv` fails: close the name, if there is one, and leave. -/
def Stream.recvErr (st : Stream Op Res) (out : Ended) : Stream Op Res :=
  if st.name != "" then { st with pc := .close out } else st.leave out

section
variable (hash : String → String)

/-- The name a `Hello` is accepted under, and the acknowledgement so far. -/
def identify (auth : AuthData) (identity : Identity) (h : Hello) (c : Choice) (now : Int) :
    AuthData × Except Status (String × HelloAck) :=
  match identity with
  | .agent authed => (auth, .ok (authed, {}))
  | .enrolling =>
    if h.agentName = "" then (auth, .error ⟨.invalidArgument, "agent_name must not be empty"⟩)
    else match auth.enrollAgent hash h.agentName c.fresh (unixSeconds now) c.saved with
      | (auth, .error _) => (auth, .error ⟨.alreadyExists, "enroll %q: %v"⟩)
      | (auth, .ok tok) => (auth, .ok (h.agentName, { agentToken := tok }))

/-- The next access of handler `i`. -/
def State.handle (s : State Op Res) (i : Nat) (st : Stream Op Res) (c : Choice) :
    Option (State Op Res) :=
  match st.pc with
  | .recv | .returned _ => none
  | .hello h => match identify hash s.auth st.identity h c s.now with
    | (auth, .error status) => some ({ s with auth := auth }.setStream i (st.leave (.refused status)))
    | (auth, .ok (name, ack)) =>
      some ({ s with auth := auth }.setStream i { st with name := name, pc := .openReg h ack })
  | .openReg h ack =>
    some ({ s with reg := s.reg.openStream st.name s.now }.setStream i { st with
      pc := .setMeta h ack
      opened := st.name :: st.opened
      heard := some (st.name, s.now) })
  | .setMeta h ack =>
    let m : AgentMeta := ⟨h.hostname, st.ip, h.os, h.arch, h.marshalVersion, h.hostBootUnix⟩
    some ({ s with reg := s.reg.setMeta st.name m }.setStream i { st with pc := .register ack })
  | .register ack =>
    let j := s.broker.all.length
    some ({ s with broker := s.broker.register st.name, sendsOn := s.sendsOn ++ [i] }.setStream i
      { st with sess := some j, pc := .metricTs ack, registered := (st.name, j) :: st.registered })
  | .metricTs ack =>
    if s.hasStores then
      let r := s.data.lastMetricTs st.name c.opening c.reads
      some ({ s with data := r.1 }.setStream i { st with pc := .logTs { ack with lastMetricTsMs := r.2 } })
    else some (s.setStream i { st with pc := .logTs ack })
  | .logTs ack =>
    if s.hasLogs then
      let r := s.data.lastLogTs st.name c.opening c.reads
      some ({ s with data := r.1 }.setStream i { st with pc := .sendAck { ack with lastLogTsMs := r.2 } })
    else some (s.setStream i { st with pc := .sendAck ack })
  | .sendAck ack =>
    some (s.setStream i { st with
      pc := .recv
      down := if c.sent then st.down ++ [.helloAck ack] else st.down })
  | .update procs host =>
    some ({ s with reg := s.reg.update st.name procs host s.now }.setStream i { st with
      pc := .recv
      heard := some (st.name, s.now) })
  | .storeBatch samples =>
    some ({ s with data := s.data.storeBatch st.name samples c.opening c.appended }.setStream i
      { st with pc := .recv })
  | .storeLogBatch lines =>
    some ({ s with data := s.data.storeLogBatch st.name lines c.opening c.appends }.setStream i
      { st with pc := .recv })
  | .deliver r => match st.sess with
    | none => none
    | some j => match s.broker.all[j]? with
      | none => none
      | some ses => some ((s.setSession j (ses.deliver r)).setStream i { st with pc := .put })
  | .put => match st.sess with
    | none => none
    | some j => match s.broker.all[j]? with
      | none => none
      | some ses => match ses.step (.put 0) with
        | none => some (s.setStream i { st with pc := .recv })
        | some ses => some ((s.setSession j ses).setStream i { st with pc := .recv })
  | .close out => some ({ s with reg := s.reg.close st.name }.setStream i (st.leave out))
  | .unregister out => match st.sess with
    | none => none
    | some j =>
      some ({ s with broker := s.broker.unregister st.name j }.setStream i { st with pc := .failAll out })
  | .failAll out => match st.sess with
    | none => none
    | some j => match s.broker.all[j]? with
      | none => none
      | some ses => some ((s.setSession j ses.failAll).setStream i { st with pc := .returned out })

/-! ### Steps -/

/-- The steps of a session that dispatches take; the others are its handler's. -/
def SessionAct.byDispatch : SessionAct Op Res → Bool
  | .deliver _ | .put _ | .failAll => false
  | _ => true

inductive ServerAct (Op Res : Type) where
  /-- A stream with these tokens reaches `streamAuth`. -/
  | connect (token enroll ip : String) (blocked : Bool)
  | recv (i : Nat) (m : AgentMessage Res)
  | recvErr (i : Nat) (eof : Bool)
  | handle (i : Nat) (c : Choice)
  /-- A dispatch on session `j` moves. -/
  | session (j : Nat) (a : SessionAct Op Res)
  | tick (d : Nat)
  | evict (cutoff : Int)
  /-- The credentials change, by a command or a reload. -/
  | reload (auth : AuthData)

/-- The command a session step sends down. -/
def Session.sends (ses : Session Op Res) : SessionAct Op Res → List (ServerMessage Op)
  | .send d true => match ses.dispatches[d]? with
    | some x => [.command ⟨x.id, x.op⟩]
    | none => []
  | _ => []

/-- A dispatch moves; what it sends goes down the session's stream. -/
def State.sessionStep (s : State Op Res) (j : Nat) (a : SessionAct Op Res) : Option (State Op Res) :=
  match s.broker.all[j]?, s.sendsOn[j]? with
  | some ses, some k => match ses.step a, s.streams[k]? with
    | some ses', some st =>
      some ((s.setSession j ses').setStream k { st with down := st.down ++ ses.sends a })
    | _, _ => none
  | _, _ => none

def State.step (s : State Op Res) : ServerAct Op Res → Option (State Op Res)
  | .connect token enroll ip blocked => match s.auth.streamAuth hash token enroll blocked with
    | .error _ => some s
    | .ok identity => some { s with streams := s.streams ++ [{ identity := identity, ip := ip }] }
  | .recv i m => match s.streams[i]? with
    | some st => if st.pc matches .recv then some (s.setStream i (st.recv s.hasStores s.hasLogs m)) else none
    | none => none
  | .recvErr i eof => match s.streams[i]? with
    | some st =>
      if st.pc matches .recv then some (s.setStream i (st.recvErr (if eof then .eof else .recvError)))
      else none
    | none => none
  | .handle i c => match s.streams[i]? with
    | some st => s.handle hash i st c
    | none => none
  | .session j a => if a.byDispatch then s.sessionStep j a else none
  | .tick d => some { s with now := s.now + d }
  | .evict cutoff => some { s with reg := s.reg.evict cutoff }
  | .reload auth => some { s with auth := auth }

/-- The server from its start, over any stored credentials and data. -/
def serverSystem (Op Res : Type) : Transition.System (State Op Res) (ServerAct Op Res) where
  init s := s.reg.agents = ∅ ∧ s.broker = {} ∧ s.sendsOn = [] ∧ s.streams = []
  step := State.step hash

end

/-! ### What a step does -/

/-- The handler has not begun to leave, or has its name still to close. -/
def Pc.serving : Pc Res → Bool
  | .unregister _ | .failAll _ | .returned _ => false
  | _ => true

/-- Receiving changes nothing but what the handler does next. -/
theorem Stream.recv_spec {st : Stream Op Res} (hpc : st.pc = .recv) (hasStores hasLogs : Bool)
    (m : AgentMessage Res) : ∃ pc, st.recv hasStores hasLogs m = { st with pc := pc } ∧ pc.serving = true := by
  have hstay : st = { st with pc := .recv } := by rw [← hpc]
  cases m <;> simp only [Stream.recv] <;> try split
  all_goals first | exact ⟨_, rfl, rfl⟩ | exact ⟨.recv, hstay, rfl⟩

/-- An enrolling stream is accepted under a name that had no token. -/
theorem identify_enrolling_ok {hash : String → String} {auth auth' : AuthData} {h : Hello} {c : Choice}
    {now : Int} {name : String} {ack : HelloAck}
    (hok : identify hash auth .enrolling h c now = (auth', .ok (name, ack))) :
    name = h.agentName ∧ name ≠ "" ∧ auth.agents.get name = none ∧ (auth'.agents.get name).isSome ∧
      ∃ tok, c.fresh = some tok ∧ ack = { agentToken := tok } ∧
        auth' = { auth with agents := auth.agents.set name ⟨hash tok, unixSeconds now⟩ } := by
  unfold identify at hok
  split at hok
  · next heq => cases heq
  · split at hok
    · cases hok
    · next hne =>
      split at hok
      · cases hok
      · next auth₁ tok henroll =>
        cases hok
        obtain ⟨hnone, hfresh, -, rfl⟩ := AuthData.enrollAgent_ok henroll
        exact ⟨rfl, hne, hnone, by simp, tok, hfresh, rfl, rfl⟩

namespace State
variable {hash : String → String} {s t : State Op Res} {i : Nat} {st : Stream Op Res} {c : Choice}

theorem getElem?_setStream (hst : s.streams[i]? = some st) (st' : Stream Op Res) (k : Nat) :
    (s.setStream i st').streams[k]? = if k = i then some st' else s.streams[k]? := by
  have hlt := (List.getElem?_eq_some_iff.mp hst).1
  by_cases h : k = i
  · subst h
    simp [setStream, hlt]
  · rw [if_neg h]
    exact List.getElem?_set_ne fun hik => h hik.symm

@[simp] theorem setStream_auth (st' : Stream Op Res) : (s.setStream i st').auth = s.auth := rfl
@[simp] theorem setStream_reg (st' : Stream Op Res) : (s.setStream i st').reg = s.reg := rfl
@[simp] theorem setStream_data (st' : Stream Op Res) : (s.setStream i st').data = s.data := rfl
@[simp] theorem setStream_broker (st' : Stream Op Res) : (s.setStream i st').broker = s.broker := rfl
@[simp] theorem setStream_sendsOn (st' : Stream Op Res) : (s.setStream i st').sendsOn = s.sendsOn := rfl
@[simp] theorem setStream_now (st' : Stream Op Res) : (s.setStream i st').now = s.now := rfl
@[simp] theorem setSession_reg (j : Nat) (ses : Session Op Res) : (s.setSession j ses).reg = s.reg := rfl
@[simp] theorem setSession_data (j : Nat) (ses : Session Op Res) : (s.setSession j ses).data = s.data := rfl
@[simp] theorem setSession_streams (j : Nat) (ses : Session Op Res) :
    (s.setSession j ses).streams = s.streams := rfl
@[simp] theorem setSession_now (j : Nat) (ses : Session Op Res) : (s.setSession j ses).now = s.now := rfl
@[simp] theorem setSession_sendsOn (j : Nat) (ses : Session Op Res) :
    (s.setSession j ses).sendsOn = s.sendsOn := rfl
@[simp] theorem setSession_sessions (j : Nat) (ses : Session Op Res) :
    (s.setSession j ses).broker.sessions = s.broker.sessions := rfl
@[simp] theorem setSession_all (j : Nat) (ses : Session Op Res) :
    (s.setSession j ses).broker.all = s.broker.all.set j ses := rfl

theorem step_recv {m : AgentMessage Res} (h : s.step hash (.recv i m) = some t) :
    ∃ st, s.streams[i]? = some st ∧ st.pc = .recv ∧
      t = s.setStream i (st.recv s.hasStores s.hasLogs m) := by
  simp only [step] at h
  split at h
  · next st hst =>
    split at h
    · next hpc =>
      refine ⟨st, hst, ?_, by simpa using h.symm⟩
      revert hpc
      cases st.pc <;> simp
    · cases h
  · cases h

theorem step_recvErr {eof : Bool} (h : s.step hash (.recvErr i eof) = some t) :
    ∃ st, s.streams[i]? = some st ∧ st.pc = .recv ∧
      t = s.setStream i (st.recvErr (if eof then .eof else .recvError)) := by
  simp only [step] at h
  split at h
  · next st hst =>
    split at h
    · next hpc =>
      refine ⟨st, hst, ?_, by simpa using h.symm⟩
      revert hpc
      cases st.pc <;> simp
    · cases h
  · cases h

theorem step_handle (h : s.step hash (.handle i c) = some t) :
    ∃ st, s.streams[i]? = some st ∧ s.handle hash i st c = some t := by
  simp only [step] at h
  split at h
  · next st hst => exact ⟨st, hst, h⟩
  · cases h

theorem step_session {j : Nat} {a : SessionAct Op Res} (h : s.step hash (.session j a) = some t) :
    a.byDispatch = true ∧ ∃ ses ses' k st, s.broker.all[j]? = some ses ∧ s.sendsOn[j]? = some k ∧
      ses.step a = some ses' ∧ s.streams[k]? = some st ∧
      t = (s.setSession j ses').setStream k { st with down := st.down ++ ses.sends a } := by
  simp only [step] at h
  split at h
  · next ha =>
    simp only [sessionStep] at h
    split at h
    · next ses k hses hk =>
      split at h
      · next ses' st hses' hst => exact ⟨ha, ses, ses', k, st, hses, hk, hses', hst, by simpa using h.symm⟩
      · cases h
    · cases h
  · cases h

/-- Every access of a handler, with what it finds. -/
inductive Handles (hash : String → String) (s : State Op Res) (i : Nat) (st : Stream Op Res) (c : Choice) :
    State Op Res → Prop
  | refuse {hl : Hello} {auth : AuthData} {status : Status} (hpc : st.pc = .hello hl)
    (hid : identify hash s.auth st.identity hl c s.now = (auth, .error status)) :
    Handles hash s i st c ({ s with auth := auth }.setStream i (st.leave (.refused status)))
  | accept {hl : Hello} {auth : AuthData} {name : String} {ack : HelloAck} (hpc : st.pc = .hello hl)
    (hid : identify hash s.auth st.identity hl c s.now = (auth, .ok (name, ack))) :
    Handles hash s i st c
      ({ s with auth := auth }.setStream i { st with name := name, pc := .openReg hl ack })
  | openReg {hl : Hello} {ack : HelloAck} (hpc : st.pc = .openReg hl ack) :
    Handles hash s i st c ({ s with reg := s.reg.openStream st.name s.now }.setStream i { st with
      pc := .setMeta hl ack
      opened := st.name :: st.opened
      heard := some (st.name, s.now) })
  | setMeta {hl : Hello} {ack : HelloAck} (hpc : st.pc = .setMeta hl ack) :
    Handles hash s i st c ({ s with
      reg := s.reg.setMeta st.name
        ⟨hl.hostname, st.ip, hl.os, hl.arch, hl.marshalVersion, hl.hostBootUnix⟩ }.setStream i
      { st with pc := .register ack })
  | register {ack : HelloAck} (hpc : st.pc = .register ack) :
    Handles hash s i st c
      ({ s with broker := s.broker.register st.name, sendsOn := s.sendsOn ++ [i] }.setStream i { st with
        sess := some s.broker.all.length
        pc := .metricTs ack
        registered := (st.name, s.broker.all.length) :: st.registered })
  | metricTs {ack : HelloAck} (hpc : st.pc = .metricTs ack) :
    Handles hash s i st c
      ({ s with data := (s.data.lastMetricTs st.name c.opening c.reads).1 }.setStream i { st with
        pc := .logTs { ack with lastMetricTsMs := (s.data.lastMetricTs st.name c.opening c.reads).2 } })
  | noStores {ack : HelloAck} (hpc : st.pc = .metricTs ack) :
    Handles hash s i st c (s.setStream i { st with pc := .logTs ack })
  | logTs {ack : HelloAck} (hpc : st.pc = .logTs ack) :
    Handles hash s i st c
      ({ s with data := (s.data.lastLogTs st.name c.opening c.reads).1 }.setStream i { st with
        pc := .sendAck { ack with lastLogTsMs := (s.data.lastLogTs st.name c.opening c.reads).2 } })
  | noLogs {ack : HelloAck} (hpc : st.pc = .logTs ack) :
    Handles hash s i st c (s.setStream i { st with pc := .sendAck ack })
  | sendAck {ack : HelloAck} (hpc : st.pc = .sendAck ack) :
    Handles hash s i st c (s.setStream i { st with
      pc := .recv
      down := if c.sent then st.down ++ [.helloAck ack] else st.down })
  | update {procs : List ProcInfo} {host : Option HostMetrics} (hpc : st.pc = .update procs host) :
    Handles hash s i st c ({ s with reg := s.reg.update st.name procs host s.now }.setStream i { st with
      pc := .recv
      heard := some (st.name, s.now) })
  | storeBatch {samples : List MetricSample} (hpc : st.pc = .storeBatch samples) :
    Handles hash s i st c
      ({ s with data := s.data.storeBatch st.name samples c.opening c.appended }.setStream i
        { st with pc := .recv })
  | storeLogBatch {lines : List LogShipLine} (hpc : st.pc = .storeLogBatch lines) :
    Handles hash s i st c
      ({ s with data := s.data.storeLogBatch st.name lines c.opening c.appends }.setStream i
        { st with pc := .recv })
  | deliver {r : CommandResult Res} {j : Nat} {ses : Session Op Res} (hpc : st.pc = .deliver r)
    (hsess : st.sess = some j) (hses : s.broker.all[j]? = some ses) :
    Handles hash s i st c ((s.setSession j (ses.deliver r)).setStream i { st with pc := .put })
  | drop (hpc : st.pc = .put) : Handles hash s i st c (s.setStream i { st with pc := .recv })
  | put {j : Nat} {ses ses' : Session Op Res} (hpc : st.pc = .put) (hsess : st.sess = some j)
    (hses : s.broker.all[j]? = some ses) (hput : ses.step (.put 0) = some ses') :
    Handles hash s i st c ((s.setSession j ses').setStream i { st with pc := .recv })
  | close {out : Ended} (hpc : st.pc = .close out) :
    Handles hash s i st c ({ s with reg := s.reg.close st.name }.setStream i (st.leave out))
  | unregister {out : Ended} {j : Nat} (hpc : st.pc = .unregister out) (hsess : st.sess = some j) :
    Handles hash s i st c
      ({ s with broker := s.broker.unregister st.name j }.setStream i { st with pc := .failAll out })
  | failAll {out : Ended} {j : Nat} {ses : Session Op Res} (hpc : st.pc = .failAll out)
    (hsess : st.sess = some j) (hses : s.broker.all[j]? = some ses) :
    Handles hash s i st c ((s.setSession j ses.failAll).setStream i { st with pc := .returned out })

theorem handles_of_handle (h : s.handle hash i st c = some t) : Handles hash s i st c t := by
  unfold handle at h
  split at h
  case h_1 | h_2 => cases h
  all_goals rename_i hpc
  case h_3 =>
    split at h <;> cases h
    · next hid => exact .refuse hpc hid
    · next hid => exact .accept hpc hid
  case h_7 =>
    split at h <;> cases h
    · exact .metricTs hpc
    · exact .noStores hpc
  case h_8 =>
    split at h <;> cases h
    · exact .logTs hpc
    · exact .noLogs hpc
  case h_13 | h_17 =>
    split at h
    · cases h
    · next j hsess =>
      split at h <;> cases h
      constructor <;> assumption
  case h_14 =>
    split at h
    · cases h
    · next j hsess =>
      split at h
      · cases h
      · next ses hses =>
        split at h <;> cases h
        · exact .drop hpc
        · next hput => exact .put hpc hsess hses hput
  case h_16 =>
    split at h <;> cases h
    next hsess => exact .unregister hpc hsess
  all_goals
    cases h
    constructor
    exact hpc

/-- A handler changes its own stream only, and never that stream's identity. -/
theorem handle_streams (h : s.handle hash i st c = some t) :
    ∃ st', t.streams = s.streams.set i st' ∧ st'.identity = st.identity := by
  cases handles_of_handle h <;> exact ⟨_, rfl, rfl⟩

/-- What a step does to the streams: nothing, or it admits one, or it moves one. -/
theorem step_streams {a : ServerAct Op Res} (h : s.step hash a = some t) :
    t.streams = s.streams ∨
    (∃ token enroll ip blocked identity, a = .connect token enroll ip blocked ∧
      s.auth.streamAuth hash token enroll blocked = .ok identity ∧
      t = { s with streams := s.streams ++ [{ identity := identity, ip := ip }] }) ∨
    ∃ i x y, s.streams[i]? = some x ∧ t.streams = s.streams.set i y ∧ y.identity = x.identity := by
  cases a with
  | connect token enroll ip blocked =>
    simp only [step] at h
    split at h
    · exact Option.some.inj h ▸ .inl rfl
    · next identity hok =>
      exact .inr (.inl ⟨token, enroll, ip, blocked, identity, rfl, hok, (Option.some.inj h).symm⟩)
  | recv j m =>
    obtain ⟨x, hx, -, rfl⟩ := step_recv h
    refine .inr (.inr ⟨j, x, _, hx, rfl, ?_⟩)
    cases m <;> simp only [Stream.recv] <;> split <;> rfl
  | recvErr j eof =>
    obtain ⟨x, hx, -, rfl⟩ := step_recvErr h
    refine .inr (.inr ⟨j, x, _, hx, rfl, ?_⟩)
    unfold Stream.recvErr
    split <;> rfl
  | handle j c =>
    obtain ⟨x, hx, hhandle⟩ := step_handle h
    obtain ⟨y, hy, hid⟩ := handle_streams hhandle
    exact .inr (.inr ⟨j, x, y, hx, hy, hid⟩)
  | session j a =>
    obtain ⟨-, ses, ses', k, x, -, -, -, hx, rfl⟩ := step_session h
    exact .inr (.inr ⟨k, x, _, hx, rfl, rfl⟩)
  | tick d => exact Option.some.inj h ▸ .inl rfl
  | evict cutoff => exact Option.some.inj h ▸ .inl rfl
  | reload auth => exact Option.some.inj h ▸ .inl rfl

theorem getElem?_of_set {x y : Stream Op Res} (hx : s.streams[i]? = some x)
    (ht : t.streams = s.streams.set i y) (k : Nat) :
    t.streams[k]? = if k = i then some y else s.streams[k]? := by
  have hget := getElem?_setStream hx y k
  rwa [setStream, ← ht] at hget

/-- Streams are never dropped, and keep the identity they were admitted with. -/
theorem step_identity {a : ServerAct Op Res} (h : s.step hash a = some t) {k : Nat}
    (hk : s.streams[k]? = some st) :
    ∃ st', t.streams[k]? = some st' ∧ st'.identity = st.identity := by
  rcases step_streams h with hsame | ⟨_, _, ip, _, identity, -, -, rfl⟩ | ⟨i, x, y, hx, hy, hid⟩
  · exact ⟨st, by rw [hsame, hk], rfl⟩
  · exact ⟨st, Growing.keep hk, rfl⟩
  · rw [getElem?_of_set hx hy]
    by_cases hki : k = i
    · subst hki
      obtain rfl := Option.some.inj (hk.symm.trans hx)
      exact ⟨y, by simp, hid⟩
    · exact ⟨st, by rw [if_neg hki, hk], rfl⟩

end State

end Marshal.Server
