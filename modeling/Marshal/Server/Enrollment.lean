import Marshal.Server.Tokens

/-! Enrollment completes, where nothing is lost.

What an agent's streams carry is meant for the agent, and its token is the one its name
is bound to (`Fit`). From any such state a connection without losses ends with the
agent authenticated. -/
namespace Marshal.Server
open Proto Fleet

variable {Op Res : Type}

/-! ### The invariant -/

section
variable {hash : String → String} {w v : World Op Res}

/-- What an agent's stream carries is meant for the agent. -/
structure OwnStream (hash : String → String) (auth : AuthData) (name : String) (st : Stream Op Res) :
    Prop where
  hello : ∀ hl, st.pc = .hello hl → hl.agentName = name
  tokens : ∀ tok ∈ st.tokens, tok ≠ "" → BoundTo hash auth name tok

/-- Every token the agent has, or may still receive, is bound to its name. -/
structure Fit (hash : String → String) (w : World Op Res) : Prop where
  named : w.client.name ≠ ""
  persists : w.client.persists = true
  enrolls : w.server.auth.verifyEnroll hash w.configured = true
  spare : w.client.token = "" → w.client.enrollTok = w.configured
  bound : w.client.token ≠ "" → BoundTo hash w.server.auth w.client.name w.client.token
  mine : ∀ i ∈ w.mine, ∃ st, w.server.streams[i]? = some st ∧
    OwnStream hash w.server.auth w.client.name st
  current : ∀ i conn, w.current = some (i, conn) → i ∈ w.mine

/-- The server moves on, and no token comes loose. -/
theorem Fit.server {s : State Op Res} (h : Fit hash w)
    (henroll : s.auth.enrollTokenHash = w.server.auth.enrollTokenHash)
    (hbound : ∀ tok, BoundTo hash w.server.auth w.client.name tok → BoundTo hash s.auth w.client.name tok)
    (hmine : ∀ i ∈ w.mine, ∀ st, w.server.streams[i]? = some st →
      OwnStream hash w.server.auth w.client.name st →
      ∃ st', s.streams[i]? = some st' ∧ OwnStream hash s.auth w.client.name st') :
    Fit hash { w with server := s } := by
  constructor
  case named => exact h.named
  case persists => exact h.persists
  case enrolls =>
    show verifyToken hash w.configured s.auth.enrollTokenHash = true
    rw [henroll]
    exact h.enrolls
  case spare => exact h.spare
  case bound => exact fun htok => hbound _ (h.bound htok)
  case mine =>
    intro i hi
    obtain ⟨st, hst, hown⟩ := h.mine i hi
    exact hmine i hi st hst hown
  case current => exact h.current

/-- One stream moves on and takes no token; the credentials stay. -/
theorem Fit.set {s : State Op Res} {k : Nat} {x y : Stream Op Res} (h : Fit hash w)
    (hx : w.server.streams[k]? = some x) (hs : s.streams = w.server.streams.set k y)
    (hauth : s.auth = w.server.auth)
    (hhello : k ∈ w.mine → ∀ hl, y.pc = .hello hl → x.pc = .hello hl ∨ hl.agentName = w.client.name)
    (htokens : ∀ tok ∈ y.tokens, tok ∈ x.tokens) : Fit hash { w with server := s } := by
  refine h.server (by rw [hauth]) (fun tok hb => hauth ▸ hb) fun i hi st hst hown => ?_
  rw [State.getElem?_of_set hx hs, hauth]
  by_cases hik : i = k
  · subst hik
    obtain rfl := Option.some.inj (hst.symm.trans hx)
    rw [if_pos rfl]
    refine ⟨y, rfl, fun hl hhl => ?_, fun tok htok => hown.tokens tok (htokens tok htok)⟩
    exact (hhello hi hl hhl).elim (hown.hello hl) id
  · rw [if_neg hik]
    exact ⟨st, hst, hown⟩

theorem fit_handle {s : State Op Res} {k : Nat} {x : Stream Op Res} {c : Choice} (h : Fit hash w)
    (hfresh : FreshToken hash w.server.auth c) (hx : w.server.streams[k]? = some x)
    (hh : w.server.handle hash k x c = some s) : Fit hash { w with server := s } := by
  obtain ⟨y, hs, hhello, htokens⟩ := handle_tokens hh
  by_cases hpc : ∃ hl, x.pc = .hello hl
  case neg =>
    refine h.set hx hs (handle_auth hh fun hl hhl => hpc ⟨hl, hhl⟩) (fun _ hl hhl => absurd hhl (hhello hl)) ?_
    intro tok htok
    refine (htokens tok htok).resolve_right ?_
    rintro ⟨hl, -, -, hhl, -⟩
    exact hpc ⟨hl, hhl⟩
  case pos =>
    obtain ⟨hl, hhl⟩ := hpc
    have hauth := (handle_hello hh hhl).1
    refine h.server ?_ ?_ fun i hi st hst hown => ?_
    · rw [hauth]
      exact (identify_auth _ _ _ _ _).1
    · intro tok hb
      rw [hauth]
      exact hb.identify hfresh _ _ _
    · rw [State.getElem?_of_set hx hs]
      by_cases hik : i = k
      · subst hik
        obtain rfl := Option.some.inj (hst.symm.trans hx)
        rw [if_pos rfl]
        refine ⟨y, rfl, fun hl' hhl' => absurd hhl' (hhello hl'), fun tok htok hne => ?_⟩
        rw [hauth]
        rcases htokens tok htok with hold | ⟨hl', name, ack, hhl', hok, rfl⟩
        · exact (hown.tokens tok hold hne).identify hfresh _ _ _
        · obtain rfl := Pc.hello.inj (hhl.symm.trans hhl')
          cases hid : st.identity with
          | agent authed =>
            rw [hid] at hok
            cases hok
            exact absurd rfl hne
          | enrolling =>
            rw [hid] at hok
            obtain ⟨auth', hok'⟩ : ∃ auth', identify hash w.server.auth .enrolling hl c w.server.now =
                (auth', .ok (name, ack)) := ⟨_, Prod.ext rfl hok⟩
            rw [hok']
            obtain ⟨rfl, -⟩ := identify_enrolling_ok hok'
            rw [← hown.hello hl hhl]
            exact (identify_binds hok' hfresh).2
      · rw [if_neg hik, hauth]
        exact ⟨st, hst, hown.hello, fun tok htok hne => (hown.tokens tok htok hne).identify hfresh _ _ _⟩

theorem fit_server {a : ServerAct Op Res} {s : State Op Res} (h : Fit hash w)
    (hrule : (WorldAct.server a).Fair hash w) (hstep : w.server.step hash a = some s) :
    Fit hash { w with server := s } := by
  cases a with
  | connect token enroll ip blocked =>
    have hkeep : s.auth = w.server.auth ∧ ∀ (i : Nat) (st : Stream Op Res),
        w.server.streams[i]? = some st → s.streams[i]? = some st := by
      simp only [State.step] at hstep
      split at hstep
      · exact Option.some.inj hstep ▸ ⟨rfl, fun _ _ hi => hi⟩
      · obtain rfl := Option.some.inj hstep
        refine ⟨rfl, fun i st hi => ?_⟩
        exact Growing.keep hi
    refine h.server (by rw [hkeep.1]) (fun tok hb => hkeep.1 ▸ hb) fun i _ st hst hown => ?_
    exact ⟨st, hkeep.2 i st hst, hkeep.1 ▸ hown⟩
  | recv i m =>
    obtain ⟨st, hst, hpc, rfl⟩ := State.step_recv hstep
    obtain ⟨hhello, htokens⟩ := recv_tokens (s := w.server) hpc m
    refine h.set hst rfl rfl (fun hi hl hhl => .inr ?_) htokens
    obtain rfl := hhello hl hhl
    exact hrule hi
  | recvErr i eof =>
    obtain ⟨st, hst, hpc, rfl⟩ := State.step_recvErr hstep
    refine h.set hst rfl rfl (fun _ hl hhl => ?_) fun tok htok => ?_
    · unfold Stream.recvErr Stream.leave at hhl
      repeat' split at hhl
      all_goals cases hhl
    · unfold Stream.recvErr at htok
      split at htok
      · exact List.mem_append_right _ htok
      · exact tokens_leave st _ htok
  | handle i c =>
    obtain ⟨st, hst, hhandle⟩ := State.step_handle hstep
    exact fit_handle h hrule hst hhandle
  | session j a =>
    obtain ⟨-, ses, ses', k, st, -, -, -, hst, rfl⟩ := State.step_session hstep
    refine h.set hst rfl rfl (fun _ hl hhl => .inl hhl) fun tok htok => ?_
    have hcommand : (ses.sends a).filterMap ServerMessage.helloAck? = [] := by
      unfold Session.sends
      repeat' split
      all_goals rfl
    simpa [Stream.tokens, hcommand] using htok
  | tick d => exact Option.some.inj hstep ▸ h.server rfl (fun _ hb => hb) fun i _ st hst hown => ⟨st, hst, hown⟩
  | evict cutoff =>
    exact Option.some.inj hstep ▸ h.server rfl (fun _ hb => hb) fun i _ st hst hown => ⟨st, hst, hown⟩
  | reload auth => exact hrule.elim

theorem World.step_dial {ip : String} (h : w.step hash (.dial ip) = some v) :
    v = w ∨ ∃ identity, v = w.onStream
      { w.server with streams := w.server.streams ++ [{ identity := identity, ip := ip }] } := by
  simp only [step] at h
  split at h
  · cases h
  · exact .inl (Option.some.inj h).symm
  · split at h
    · exact .inl (Option.some.inj h).symm
    · exact .inr ⟨_, (Option.some.inj h).symm⟩

theorem World.step_receive {persisted : Bool} (h : w.step hash (.receive persisted) = some v) :
    ∃ i conn m, w.current = some (i, conn) ∧
      (w.server.streams[i]?).bind (fun st => st.down[conn.received.length]?) = some m ∧
      v = { w with
        client := (Client.recv persisted (w.client, conn) m).1
        current :=
          if (Client.recv persisted (w.client, conn) m).2.phase = .returned then none
          else some (i, (Client.recv persisted (w.client, conn) m).2) } := by
  simp only [step] at h
  split at h
  · cases h
  · next i conn hcur =>
    split at h
    · cases h
    · next m hm => exact ⟨i, conn, m, hcur, hm, (Option.some.inj h).symm⟩

theorem fit_step {a : WorldAct Op Res} (h : Fit hash w) (hrule : a.Fair hash w)
    (hstep : w.step hash a = some v) : Fit hash v := by
  cases a with
  | dial ip =>
    rcases World.step_dial hstep with rfl | ⟨identity, rfl⟩
    · exact h
    constructor
    case named => exact h.named
    case persists => exact h.persists
    case enrolls => exact h.enrolls
    case spare => exact h.spare
    case bound => exact h.bound
    case current =>
      rintro i conn hc
      obtain ⟨rfl, -⟩ := Prod.mk.inj (Option.some.inj hc)
      exact List.mem_cons_self ..
    case mine =>
      intro i hi
      rcases List.mem_cons.mp hi with rfl | hi
      · exact ⟨{ identity := identity, ip := ip }, List.getElem?_concat_length,
          ⟨fun hl hhl => (by cases hhl), fun tok htok => (by cases htok)⟩⟩
      · obtain ⟨st, hst, hown⟩ := h.mine i hi
        exact ⟨st, Growing.keep hst, hown⟩
  | receive persisted =>
    obtain ⟨i, conn, m, hcur, hm, rfl⟩ := World.step_receive hstep
    have hi := h.current i conn hcur
    have hclient := recv_client w.client persisted conn m
    generalize Client.recv persisted (w.client, conn) m = r at hclient ⊢
    obtain ⟨cl, conn'⟩ := r
    have hcurrent : ∀ k c, (if conn'.phase = .returned then none else some (i, conn')) = some (k, c) →
        k ∈ w.mine := by
      intro k c hk
      split at hk
      · cases hk
      · obtain ⟨rfl, -⟩ := Prod.mk.inj (Option.some.inj hk)
        exact hi
    rcases hclient with hsame | ⟨ack, rfl, hne, htaken⟩
    · obtain rfl : cl = w.client := hsame
      exact ⟨h.named, h.persists, h.enrolls, h.spare, h.bound, h.mine, hcurrent⟩
    · obtain rfl : cl = { w.client with token := ack.agentToken, enrollTok := "" } := htaken
      obtain ⟨st, hst, hown⟩ := h.mine i hi
      have hsent : ack.agentToken ∈ st.tokens := by
        rw [hst] at hm
        refine List.mem_append_right _ (List.mem_map.mpr ⟨ack, List.mem_filterMap.mpr ?_, rfl⟩)
        exact ⟨_, List.mem_of_getElem? hm, rfl⟩
      exact ⟨h.named, h.persists, h.enrolls, fun hnone => absurd hnone hne,
        fun _ => hown.tokens _ hsent hne, h.mine, hcurrent⟩
  | lose =>
    obtain rfl := Option.some.inj hstep
    exact ⟨h.named, h.persists, h.enrolls, h.spare, h.bound, h.mine, fun i conn hc => by cases hc⟩
  | restart =>
    obtain rfl := Option.some.inj hstep
    exact ⟨h.named, h.persists, h.enrolls, fun _ => rfl, h.bound, h.mine, fun i conn hc => by cases hc⟩
  | server a =>
    obtain ⟨s, hs, rfl⟩ := Option.map_eq_some_iff.mp hstep
    exact fit_server h hrule hs

theorem fit_run {w₀ : World Op Res} {as : List (WorldAct Op Res)} (h₀ : (worldSystem hash Op Res).init w₀)
    (hrun : (worldSystem hash Op Res).run w₀ as = some w)
    (hrule : (worldSystem hash Op Res).Along (fun w a => a.Fair hash w) w₀ as) : Fit hash w := by
  obtain ⟨-, hname, -, htoken, hpersists, hspare, henrolls, hcurrent, hmine⟩ := h₀
  refine (worldSystem hash Op Res).along_invariant (fun w a v hC h hstep => fit_step h hC hstep) ?_ hrun hrule
  exact ⟨hname, hpersists, henrolls, fun _ => hspare, fun hne => absurd htoken hne,
    fun i hi => (by rw [hmine] at hi; cases hi), fun i conn hc => by rw [hcurrent] at hc; cases hc⟩

/-! ### A connection without losses -/

/-- The steps of a `connectOnce` that loses nothing: it dials, its `Hello` arrives, the
handler works until the acknowledgement is sent, the acknowledgement arrives, and a
token in it is saved. -/
def connectOnce (w : World Op Res) (ip : String) (h : Hello) (c : Choice) (cs : List Choice) :
    List (WorldAct Op Res) :=
  let i := w.server.streams.length
  [.dial ip, .server (.recv i (.hello h)), .server (.handle i c)] ++
    (cs.map fun c => .server (.handle i c)) ++ [.receive true]

/-- What it takes to lose nothing. -/
structure LossFree (hash : String → String) (w : World Op Res) (h : Hello) (c : Choice)
    (cs : List Choice) : Prop where
  named : h.agentName = w.client.name
  minted : c.fresh.isSome = true
  fresh : FreshToken hash w.server.auth c
  saved : c.saved = true
  steps : cs.length = 6
  sent : ∀ c ∈ cs, c.sent = true

/-- The agent holds a token that authenticates it, and is served under its name. -/
structure Authenticated (hash : String → String) (w : World Op Res) : Prop where
  token : w.server.auth.authAgent hash w.client.token = some w.client.name
  served : ∃ i conn st, w.current = some (i, conn) ∧ conn.phase = .serving ∧
    w.server.streams[i]? = some st ∧ st.name = w.client.name

/-- An agent is admitted by its token, or else by the enroll token. -/
theorem Fit.admitted (h : Fit hash w) : ∃ token enroll, w.client.metadata = some (token, enroll) ∧
    w.server.auth.streamAuth hash token enroll false =
      .ok (if w.client.token = "" then .enrolling else .agent w.client.name) := by
  by_cases htoken : w.client.token = ""
  · have hvalid := h.enrolls
    rw [← h.spare htoken] at hvalid
    have hne : (w.client.enrollTok != "") = true := by
      simp only [AuthData.verifyEnroll, verifyToken, Bool.and_eq_true] at hvalid
      exact hvalid.1.1
    refine ⟨"", w.client.enrollTok, by simp [Client.metadata, htoken, hne], ?_⟩
    simp [AuthData.streamAuth, hne, hvalid, htoken]
  · refine ⟨w.client.token, "", by simp [Client.metadata, htoken], ?_⟩
    simp [AuthData.streamAuth, htoken, (h.bound htoken).authAgent htoken]

/-- Dialing, the `Hello` and its check: the stream is where the check leaves it. -/
theorem Fit.greets (h : Fit hash w) (hidle : w.current = none) (ip : String) (hl : Hello) (c : Choice) :
    ∃ s st, (worldSystem hash Op Res).run w [.dial ip, .server (.recv w.server.streams.length (.hello hl)),
        .server (.handle w.server.streams.length c)] =
          some (w.onStream s) ∧
      s.streams[w.server.streams.length]? = some st ∧ st.down = [] ∧
      s.auth = (identify hash w.server.auth (if w.client.token = "" then .enrolling
        else .agent w.client.name) hl c w.server.now).1 ∧
      match (identify hash w.server.auth (if w.client.token = "" then .enrolling
          else .agent w.client.name) hl c w.server.now).2 with
      | .error status => st.pc = .returned (.refused status)
      | .ok (name, ack) => st.name = name ∧ st.pc = .openReg hl ack := by
  obtain ⟨token, enroll, hmeta, hok⟩ := h.admitted
  generalize (if w.client.token = "" then Identity.enrolling else .agent w.client.name) = identity at hok ⊢
  generalize hi : w.server.streams.length = i
  have hget : ∀ x : Stream Op Res, (w.server.streams ++ [x])[i]? = some x := by simp [← hi]
  have hset : ∀ x y : Stream Op Res, (w.server.streams ++ [x]).set i y = w.server.streams ++ [y] := by
    simp [← hi]
  cases hid : identify hash w.server.auth identity hl c w.server.now with
  | mk auth out =>
    cases out with
    | error status =>
      let st : Stream Op Res := { identity := identity, ip := ip, pc := .returned (.refused status) }
      refine ⟨{ w.server with auth := auth, streams := w.server.streams ++ [st] }, st, ?_, hget _, rfl,
        rfl, rfl⟩
      simp [worldSystem, Transition.System.run, World.step, World.onStream, hidle, hmeta, hok, hi, State.step,
        State.setStream, hset, Stream.recv, State.handle, hid, Stream.leave, st]
    | ok out =>
      let st : Stream Op Res := { identity := identity, ip := ip, name := out.1, pc := .openReg hl out.2 }
      refine ⟨{ w.server with auth := auth, streams := w.server.streams ++ [st] }, st, ?_, hget _, rfl,
        rfl, rfl, rfl⟩
      simp [worldSystem, Transition.System.run, World.step, World.onStream, hidle, hmeta, hok, hi, State.step,
        State.setStream, hset, Stream.recv, State.handle, hid, st]

/-- From the check on, the handler brings the acknowledgement to the agent's end. -/
theorem run_acknowledges {i : Nat} (cs : List Choice) (hsent : ∀ c ∈ cs, c.sent = true) (w : World Op Res)
    {st : Stream Op Res} (hst : w.server.streams[i]? = some st) {ack : HelloAck}
    (hack : st.pc.ack? = some ack) (hcs : cs.length = st.pc.left) :
    ∃ s st' ack', (worldSystem hash Op Res).run w (cs.map fun c => .server (.handle i c)) =
        some { w with server := s } ∧ s.auth = w.server.auth ∧ s.streams[i]? = some st' ∧
      st'.name = st.name ∧ st'.down = st.down ++ [.helloAck ack'] ∧ ack'.agentToken = ack.agentToken := by
  induction cs generalizing w st ack with
  | nil => exact absurd hcs (Nat.ne_of_lt (Pc.left_pos hack))
  | cons c rest ih =>
    obtain ⟨t, st', hh, hauth, hst', hname, hnext⟩ :
        ∃ t st', w.server.handle hash i st c = some t ∧ _ := handle_progress hst hack c
    have hstep : (worldSystem hash Op Res).step w (.server (.handle i c)) = some { w with server := t } := by
      show (w.server.step hash (.handle i c)).map _ = _
      simp only [State.step, hst, hh, Option.map_some]
    rcases hnext with ⟨ack', hack', htoken, hleft, hdown⟩ | ⟨hleft, -, hdown⟩
    · obtain ⟨s, st'', ack'', hrun, hauth', hst'', hname', hdown', htoken'⟩ :=
        ih (fun c hc => hsent c (by simp [hc])) { w with server := t } hst' hack'
          (by simp only [List.length_cons] at hcs; omega)
      refine ⟨s, st'', ack'', ?_, hauth'.trans hauth, hst'', hname'.trans hname, hdown ▸ hdown',
        htoken'.trans htoken⟩
      exact (worldSystem hash Op Res).run_cons.mpr ⟨_, hstep, hrun⟩
    · obtain rfl : rest = [] := List.length_eq_zero_iff.mp (by simp only [List.length_cons] at hcs; omega)
      rw [hsent c (by simp), if_pos rfl] at hdown
      exact ⟨t, st', ack, (worldSystem hash Op Res).run_cons.mpr ⟨_, hstep, rfl⟩, hauth, hst', hname,
        hdown, rfl⟩

/-- An accepted `Hello` leaves the agent with a token bound to its name, or with one on the way. -/
theorem Fit.accepts {hl : Hello} {c : Choice} {cs : List Choice} (h : Fit hash w)
    (hfree : LossFree hash w hl c cs)
    (hknown : w.client.token = "" → w.server.auth.agents.get w.client.name = none) :
    ∃ auth ack, identify hash w.server.auth (if w.client.token = "" then .enrolling
        else .agent w.client.name) hl c w.server.now = (auth, .ok (w.client.name, ack)) ∧
      (ack.agentToken = "" ∧ w.client.token ≠ "" ∧ BoundTo hash auth w.client.name w.client.token ∨
        ack.agentToken ≠ "" ∧ BoundTo hash auth w.client.name ack.agentToken) := by
  by_cases htoken : w.client.token = ""
  · obtain ⟨tok, htok⟩ := Option.isSome_iff_exists.mp hfree.minted
    let entry : AuthAgentEntry := ⟨hash tok, unixSeconds w.server.now⟩
    have hok : identify hash w.server.auth .enrolling hl c w.server.now =
        ({ w.server.auth with agents := w.server.auth.agents.set w.client.name entry },
          .ok (w.client.name, { agentToken := tok })) := by
      simp [identify, hfree.named, h.named, AuthData.enrollAgent, hknown htoken, htok, hfree.saved, entry]
    rw [if_pos htoken]
    exact ⟨_, _, hok, .inr (identify_binds hok hfree.fresh)⟩
  · rw [if_neg htoken]
    exact ⟨_, _, rfl, .inl ⟨rfl, htoken, h.bound htoken⟩⟩

/-- The acknowledgement arrives, and a token in it is saved and taken. -/
theorem step_receive {i : Nat} {st : Stream Op Res} {ack : HelloAck} (hcur : w.current = some (i, {}))
    (hst : w.server.streams[i]? = some st) (hdown : st.down = [.helloAck ack])
    (hpersists : w.client.persists = true) : ∃ conn : Conn Op, conn.phase = .serving ∧
      (worldSystem hash Op Res).step w (.receive true) = some { w with
        client := if ack.agentToken = "" then w.client
          else { w.client with token := ack.agentToken, enrollTok := "" }
        current := some (i, conn) } := by
  let conn : Conn Op :=
    { phase := .serving
      watermark := ack.lastMetricTsMs
      logWM := ack.lastLogTsMs
      received := [.helloAck ack] }
  refine ⟨conn, rfl, ?_⟩
  by_cases htoken : ack.agentToken = "" <;>
    simp [worldSystem, World.step, hcur, hst, hdown, Client.recv, Client.recvAck, ServerMessage.helloAck?,
      htoken, hpersists, conn]

/-- A loss-free `connectOnce` ends authenticated, unless the agent has no token and its
name does. -/
theorem Fit.completes {hl : Hello} {c : Choice} {cs : List Choice} (h : Fit hash w)
    (hidle : w.current = none) (ip : String) (hfree : LossFree hash w hl c cs)
    (hknown : w.client.token = "" → w.server.auth.agents.get w.client.name = none) :
    ∃ t, (worldSystem hash Op Res).run w (connectOnce w ip hl c cs) = some t ∧ Authenticated hash t := by
  obtain ⟨auth, ack, hok, htoken⟩ := h.accepts hfree hknown
  obtain ⟨s, st, hgreets, hst, hdown, hauth, hout⟩ := h.greets hidle ip hl c
  rw [hok] at hauth hout
  obtain ⟨hname, hpc⟩ := hout
  obtain ⟨s', st', ack', hacks, hauth', hst', hname', hdown', htoken'⟩ :
      ∃ s' st' ack', (worldSystem hash Op Res).run (w.onStream s)
        (cs.map fun c => .server (.handle w.server.streams.length c)) = some (w.onStream s') ∧ _ :=
    run_acknowledges cs hfree.sent (w.onStream s) hst (by rw [hpc]; rfl) (by rw [hpc, hfree.steps]; rfl)
  rw [hdown, List.nil_append] at hdown'
  obtain ⟨conn, hserving, hreceive⟩ := step_receive (w := w.onStream s') rfl hst' hdown' h.persists
  refine ⟨_, (worldSystem hash Op Res).run_append.mpr ⟨_, (worldSystem hash Op Res).run_append.mpr
      ⟨_, hgreets, hacks⟩, (worldSystem hash Op Res).run_cons.mpr ⟨_, hreceive, rfl⟩⟩, ?_⟩
  have hauthed : s'.auth = auth := hauth'.trans hauth
  have hserved : st'.name = w.client.name := hname'.trans hname
  rcases htoken with ⟨hnone, hne, hbound⟩ | ⟨hne, hbound⟩
  · rw [← htoken'] at hnone
    refine ⟨?_, _, conn, st', rfl, hserving, hst', ?_⟩
    · rw [if_pos hnone]
      exact hauthed ▸ hbound.authAgent hne
    · rw [if_pos hnone]
      exact hserved
  · rw [← htoken'] at hne hbound
    refine ⟨?_, _, conn, st', rfl, hserving, hst', ?_⟩
    · rw [if_neg hne]
      exact hauthed ▸ hbound.authAgent hne
    · rw [if_neg hne]
      exact hserved

/-- An agent without a token whose name has one is refused, whatever the choice. -/
theorem Fit.refuses (h : Fit hash w) (hidle : w.current = none) (ip : String) {hl : Hello}
    (hnamed : hl.agentName = w.client.name) (htoken : w.client.token = "")
    (hknown : (w.server.auth.agents.get w.client.name).isSome = true) (c : Choice) :
    ∃ s st text, (worldSystem hash Op Res).run w [.dial ip,
        .server (.recv w.server.streams.length (.hello hl)),
        .server (.handle w.server.streams.length c)] = some (w.onStream s) ∧
      s.streams[w.server.streams.length]? = some st ∧
      st.pc = .returned (.refused ⟨.alreadyExists, text⟩) := by
  obtain ⟨s, st, hgreets, hst, -, -, hout⟩ := h.greets hidle ip hl c
  refine ⟨s, st, "enroll %q: %v", hgreets, hst, ?_⟩
  have hrefused : (identify hash w.server.auth .enrolling hl c w.server.now).2 =
      .error ⟨.alreadyExists, "enroll %q: %v"⟩ := by
    simp [identify, hnamed, h.named, AuthData.enrollAgent, hknown]
  rw [if_pos htoken, hrefused] at hout
  exact hout

/-! ### Along a run -/

/-- In the run the server enrolled the agent's name. -/
def Enrolls (hash : String → String) (w₀ : World Op Res) (as : List (WorldAct Op Res)) : Prop :=
  ∃ before i c after u v, as = before ++ .server (.handle i c) :: after ∧
    (worldSystem hash Op Res).run w₀ before = some u ∧ u.step hash (.server (.handle i c)) = some v ∧
    u.server.auth.agents.get w₀.client.name = none ∧ (v.server.auth.agents.get w₀.client.name).isSome = true

theorem identify_keeps {auth : AuthData} {n : String} (identity : Identity) (hl : Hello) (c : Choice) (now : Int)
    (h : (auth.agents.get n).isSome = true) :
    ((identify hash auth identity hl c now).1.agents.get n).isSome = true := by
  rcases (identify_auth auth identity hl c now).2 with hsame | ⟨tok, -, -, hset⟩
  · rw [hsame]
    exact h
  · rw [hset]
    split
    · rfl
    · exact h

/-- A step keeps the agent's name and every enrolled name; only a handler enrolls one. -/
theorem step_names {a : WorldAct Op Res} (hrule : a.Fair hash w) (hstep : w.step hash a = some v) :
    v.client.name = w.client.name ∧
      (∀ n, (w.server.auth.agents.get n).isSome = true → (v.server.auth.agents.get n).isSome = true) ∧
      ((∀ i c, a ≠ .server (.handle i c)) → v.server.auth = w.server.auth) := by
  cases a with
  | dial ip =>
    rcases World.step_dial hstep with rfl | ⟨identity, rfl⟩ <;> exact ⟨rfl, fun _ => id, fun _ => rfl⟩
  | receive persisted =>
    obtain ⟨i, conn, m, -, -, rfl⟩ := World.step_receive hstep
    refine ⟨?_, fun _ => id, fun _ => rfl⟩
    rcases recv_client w.client persisted conn m with hsame | ⟨ack, -, -, htaken⟩
    · exact congrArg Client.name hsame
    · show (Client.recv persisted (w.client, conn) m).1.name = w.client.name
      rw [htaken]
  | lose => exact Option.some.inj hstep ▸ ⟨rfl, fun _ => id, fun _ => rfl⟩
  | restart => exact Option.some.inj hstep ▸ ⟨rfl, fun _ => id, fun _ => rfl⟩
  | server a =>
    obtain ⟨s, hs, rfl⟩ := Option.map_eq_some_iff.mp hstep
    refine ⟨rfl, fun n hn => ?_, fun hnot => ?_⟩
    · rcases step_auth hs with hsame | ⟨i, c, identity, hl, -, hauth⟩ | ⟨auth, rfl⟩
      · exact hsame ▸ hn
      · exact hauth ▸ identify_keeps identity hl c _ hn
      · exact hrule.elim
    · rcases step_auth hs with hsame | ⟨i, c, -, -, rfl, -⟩ | ⟨auth, rfl⟩
      · exact hsame
      · exact absurd rfl (hnot i c)
      · exact hrule.elim

/-- The agent's name is enrolled exactly when the run enrolled it. -/
theorem enrolled_iff {w₀ : World Op Res} {as : List (WorldAct Op Res)}
    (h₀ : (worldSystem hash Op Res).init w₀) (hrun : (worldSystem hash Op Res).run w₀ as = some w)
    (hrule : (worldSystem hash Op Res).Along (fun w a => a.Fair hash w) w₀ as) :
    w.client.name = w₀.client.name ∧
      ((w.server.auth.agents.get w₀.client.name).isSome = true ↔ Enrolls hash w₀ as) := by
  refine (worldSystem hash Op Res).along_history (I := fun as w => w.client.name = w₀.client.name ∧
    ((w.server.auth.agents.get w₀.client.name).isSome = true ↔ Enrolls hash w₀ as)) ?_ ?_ hrun hrule
  · refine ⟨rfl, ?_⟩
    rw [h₀.2.2.1]
    refine ⟨fun hsome => (by cases hsome), ?_⟩
    rintro ⟨before, i, c, after, u, v, hsplit, -⟩
    exact absurd hsplit (by simp)
  · rintro as w a v hrun hrule ⟨hname, hiff⟩ hstep
    have hstep : w.step hash a = some v := hstep
    obtain ⟨hname', hkeep, hquiet⟩ := step_names hrule hstep
    refine ⟨hname'.trans hname, fun hsome => ?_, ?_⟩
    · by_cases hold : (w.server.auth.agents.get w₀.client.name).isSome = true
      · obtain ⟨before, i, c, after, u, u', rfl, hrest⟩ := hiff.mp hold
        exact ⟨before, i, c, after ++ [a], u, u', by simp, hrest⟩
      · -- the name is enrolled by this step
        by_cases hhandle : ∃ i c, a = .server (.handle i c)
        case neg =>
          rw [hquiet fun i c heq => hhandle ⟨i, c, heq⟩] at hsome
          exact absurd hsome hold
        case pos =>
          obtain ⟨i, c, rfl⟩ := hhandle
          exact ⟨as, i, c, [], w, v, rfl, hrun, hstep, Option.not_isSome_iff_eq_none.mp hold, hsome⟩
    · rintro ⟨before, i, c, after, u, u', hsplit, hu, hu', hnone, hsome⟩
      rcases List.eq_nil_or_concat after with rfl | ⟨rest, b, rfl⟩
      · obtain ⟨rfl, hab⟩ := List.append_inj' hsplit rfl
        obtain rfl := List.singleton_inj.mp hab
        obtain rfl := Option.some.inj (hrun.symm.trans hu)
        obtain rfl := Option.some.inj (hstep.symm.trans hu')
        exact hsome
      · have hsplit : as ++ [a] = (before ++ .server (.handle i c) :: rest) ++ [b] := by simpa using hsplit
        obtain ⟨rfl, -⟩ := List.append_inj' hsplit rfl
        exact hkeep _ (hiff.mpr ⟨before, i, c, rest, u, u', rfl, hu, hu', hnone, hsome⟩)

end

/-- `web` holds the enroll token of a server that knows no agent. -/
def newcomer : World Nat Nat :=
  { server := { auth := { enrollTokenHash := "#e" } }
    client := { name := "web", enrollTok := "e" }
    configured := "e" }

theorem newcomer_init : (worldSystem ("#" ++ ·) Nat Nat).init newcomer :=
  ⟨⟨rfl, rfl, rfl, rfl⟩, by decide, rfl, rfl, rfl, rfl, rfl, rfl, rfl⟩

/-- The steps of an attempt whose acknowledgement is lost on the way. -/
def ackLost : List (WorldAct Nat Nat) :=
  [.dial "10.0.0.1", .server (.recv 0 (.hello { agentName := "web" })),
    .server (.handle 0 { fresh := some "t" })] ++ List.replicate 6 (.server (.handle 0 {})) ++ [.lose]

end Marshal.Server
