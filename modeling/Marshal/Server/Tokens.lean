import Marshal.Fleet.Client
import Marshal.Server.Identity

/-! How an agent gets its token.

The server enrolls a name when it processes the `Hello`, before the minted token is on
its way; the agent has it once the acknowledgement arrived and the token was saved. A
`World` is the running server with one agent beside it, whose connections follow one
another while their streams live on at the server for as long as they like. -/
namespace Marshal.Server
open Proto Fleet

variable {Op Res : Type}

/-! ### The agent beside the server -/

structure World (Op Res : Type) where
  server : State Op Res := {}
  client : Client
  /-- The enroll token in the agent's configuration. -/
  configured : String
  /-- The stream of the running `connectOnce`, and what was read from it. -/
  current : Option (Nat × Conn Op) := none
  /-- The streams the agent opened. -/
  mine : List Nat := []

inductive WorldAct (Op Res : Type) where
  /-- `connectOnce` dials and is admitted, or returns. -/
  | dial (ip : String)
  /-- The next message of its stream arrives. -/
  | receive (persisted : Bool)
  /-- `connectOnce` returns: its connection is lost. -/
  | lose
  /-- The agent restarts, with the token it last saved. -/
  | restart
  | server (a : ServerAct Op Res)

/-- The agent is on the next stream, and the server has come to `s`. -/
def World.onStream (w : World Op Res) (s : State Op Res) : World Op Res :=
  { w with
    server := s
    current := some (w.server.streams.length, {})
    mine := w.server.streams.length :: w.mine }

section
variable (hash : String → String)

def World.step (w : World Op Res) : WorldAct Op Res → Option (World Op Res)
  | .dial ip => match w.current, w.client.metadata with
    | some _, _ => none
    | none, none => some w
    | none, some (token, enroll) => match w.server.auth.streamAuth hash token enroll false with
      | .error _ => some w
      | .ok identity => some (w.onStream
          { w.server with streams := w.server.streams ++ [{ identity := identity, ip := ip }] })
  | .receive persisted => match w.current with
    | none => none
    | some (i, conn) => match (w.server.streams[i]?).bind fun st => st.down[conn.received.length]? with
      | none => none
      | some m =>
        let r := Client.recv persisted (w.client, conn) m
        some { w with
          client := r.1
          current := if r.2.phase = .returned then none else some (i, r.2) }
  | .lose => some { w with current := none }
  | .restart => some { w with client := { w.client with enrollTok := w.configured }, current := none }
  | .server a => (w.server.step hash a).map fun s => { w with server := s }

/-- An agent with a valid enroll token and no token of its own, whose name is unknown. -/
def worldSystem (Op Res : Type) : Transition.System (World Op Res) (WorldAct Op Res) where
  init w := (serverSystem hash Op Res).init w.server ∧ w.client.name ≠ "" ∧
    w.server.auth.agents.get w.client.name = none ∧ w.client.token = "" ∧ w.client.persists = true ∧
    w.client.enrollTok = w.configured ∧ w.server.auth.verifyEnroll hash w.configured = true ∧
    w.current = none ∧ w.mine = []
  step := World.step hash

/-- A minted token is not empty and hashes like no stored one. -/
def FreshToken (auth : AuthData) (c : Choice) : Prop :=
  ∀ tok ∈ c.fresh, tok ≠ "" ∧ ∀ p ∈ auth.agents.toList, p.2.tokenHash ≠ hash tok

instance (auth : AuthData) (c : Choice) : Decidable (FreshToken hash auth c) :=
  inferInstanceAs (Decidable (∀ tok ∈ c.fresh, tok ≠ "" ∧ ∀ p ∈ auth.agents.toList, p.2.tokenHash ≠ hash tok))

/-- Nobody changes the credentials, minted tokens are fresh, and the agent says its own name. -/
def WorldAct.Fair (w : World Op Res) : WorldAct Op Res → Prop
  | .server (.reload _) => False
  | .server (.recv i (.hello h)) => i ∈ w.mine → h.agentName = w.client.name
  | .server (.handle _ c) => FreshToken hash w.server.auth c
  | _ => True

instance (w : World Op Res) (a : WorldAct Op Res) : Decidable (a.Fair hash w) := by
  unfold WorldAct.Fair
  split <;> infer_instance

end

/-! ### Tokens -/

section
variable {hash : String → String} {auth : AuthData} {name tok : String} {c : Choice}

/-- The token is that of the name, and hashes like no other name's. -/
structure BoundTo (hash : String → String) (auth : AuthData) (name tok : String) : Prop where
  entry : ∃ e, auth.agents.get name = some e ∧ e.tokenHash = hash tok
  only : ∀ n e, auth.agents.get n = some e → e.tokenHash = hash tok → n = name

theorem BoundTo.authAgent (h : BoundTo hash auth name tok) (htok : tok ≠ "") :
    auth.authAgent hash tok = some name := by
  obtain ⟨e, he, hhash⟩ := h.entry
  rw [AuthData.authAgent, if_neg htok]
  refine AuthData.foldl_match_eq (.inr ⟨(name, e), (Table.mem_toList _ _ _).mpr he, hhash⟩) ?_
  rintro ⟨n, e'⟩ hmem hhash'
  exact h.only n e' ((Table.mem_toList _ _ _).mp hmem) hhash'

/-- What accepting or refusing a `Hello` does to the stored tokens: nothing, or it
binds a fresh one to a name that had none. -/
theorem identify_auth (auth : AuthData) (identity : Identity) (h : Hello) (c : Choice) (now : Int) :
    (identify hash auth identity h c now).1.enrollTokenHash = auth.enrollTokenHash ∧
      ((∀ n, (identify hash auth identity h c now).1.agents.get n = auth.agents.get n) ∨
        ∃ tok, c.fresh = some tok ∧ auth.agents.get h.agentName = none ∧
          ∀ n, (identify hash auth identity h c now).1.agents.get n =
            if n = h.agentName then some ⟨hash tok, unixSeconds now⟩ else auth.agents.get n) := by
  unfold identify
  cases identity with
  | agent authed => exact ⟨rfl, .inl fun _ => rfl⟩
  | enrolling =>
    dsimp only
    split
    · exact ⟨rfl, .inl fun _ => rfl⟩
    · cases henroll : auth.enrollAgent hash h.agentName c.fresh (unixSeconds now) c.saved with
      | mk auth' out =>
        cases out with
        | error e =>
          refine ⟨?_, .inl fun n => AuthData.enrollAgent_error henroll n⟩
          exact AuthData.enrollAgent_enroll henroll
        | ok tok =>
          obtain ⟨hnone, hfresh, -, rfl⟩ := AuthData.enrollAgent_ok henroll
          exact ⟨rfl, .inr ⟨tok, hfresh, hnone, fun n => Table.get_set _ _ _ _⟩⟩

theorem FreshToken.ne (h : FreshToken hash auth c) (hfresh : c.fresh = some tok) {n : String}
    {e : AuthAgentEntry} (he : auth.agents.get n = some e) : e.tokenHash ≠ hash tok :=
  (h tok hfresh).2 (n, e) ((Table.mem_toList _ _ _).mpr he)

theorem BoundTo.identify (h : BoundTo hash auth name tok) (hfresh : FreshToken hash auth c)
    (identity : Identity) (hl : Hello) (now : Int) :
    BoundTo hash (identify hash auth identity hl c now).1 name tok := by
  obtain ⟨e, he, hhash⟩ := h.entry
  rcases (identify_auth auth identity hl c now).2 with hsame | ⟨new, hnew, hnone, hset⟩
  · exact ⟨⟨e, by rw [hsame, he], hhash⟩, fun n e' hn => h.only n e' (hsame n ▸ hn)⟩
  · have hname : name ≠ hl.agentName := by
      rintro rfl
      rw [he] at hnone
      cases hnone
    refine ⟨⟨e, by rw [hset, if_neg hname, he], hhash⟩, fun n e' hn hhash' => ?_⟩
    rw [hset] at hn
    split at hn
    · obtain rfl := Option.some.inj hn
      exact absurd (hhash.trans hhash'.symm) (hfresh.ne hnew he)
    · exact h.only n e' hn hhash'

/-- An accepted enrolling `Hello` binds its name to the token of the acknowledgement. -/
theorem identify_binds {hl : Hello} {now : Int} {auth' : AuthData} {ack : HelloAck}
    (hok : identify hash auth .enrolling hl c now = (auth', .ok (name, ack)))
    (hfresh : FreshToken hash auth c) : ack.agentToken ≠ "" ∧ BoundTo hash auth' name ack.agentToken := by
  obtain ⟨rfl, -, hnone, -, tok, hc, rfl, rfl⟩ := identify_enrolling_ok hok
  refine ⟨(hfresh tok hc).1, ⟨_, Table.get_set_self _ _ _, rfl⟩, fun n e hn hhash => ?_⟩
  rw [Table.get_set] at hn
  split at hn
  · next hnm => exact hnm
  · exact absurd hhash (hfresh.ne hc hn)

end

/-! ### The acknowledgement in the handler's hands -/

/-- The acknowledgement being put together. -/
def Pc.ack? : Pc Res → Option HelloAck
  | .openReg _ ack | .setMeta _ ack | .register ack | .metricTs ack | .logTs ack | .sendAck ack => some ack
  | _ => none

/-- The accesses left until it has been sent. -/
def Pc.left : Pc Res → Nat
  | .openReg .. => 6
  | .setMeta .. => 5
  | .register _ => 4
  | .metricTs _ => 3
  | .logTs _ => 2
  | .sendAck _ => 1
  | _ => 0

theorem Pc.left_pos {pc : Pc Res} {ack : HelloAck} (h : pc.ack? = some ack) : 0 < pc.left := by
  cases pc <;> simp [Pc.ack?, Pc.left] at h ⊢

/-- The tokens on their way to the agent, or at its end of the stream. -/
def Stream.tokens (st : Stream Op Res) : List String :=
  (st.pc.ack?.map HelloAck.agentToken).toList ++
    (st.down.filterMap ServerMessage.helloAck?).map HelloAck.agentToken

theorem Stream.tokens_same {st st' : Stream Op Res} {tok : String} (h : tok ∈ st'.tokens)
    (hpc : st'.pc.ack?.map HelloAck.agentToken = st.pc.ack?.map HelloAck.agentToken)
    (hdown : st'.down = st.down) : tok ∈ st.tokens := by
  rwa [tokens, ← hpc, ← hdown]

section
variable {hash : String → String} {s t : State Op Res} {i : Nat} {st : Stream Op Res} {c : Choice}

theorem handle_auth (hh : s.handle hash i st c = some t) (hpc : ∀ hl, st.pc ≠ .hello hl) :
    t.auth = s.auth := by
  cases State.handles_of_handle hh with
  | refuse hhello | accept hhello => exact absurd hhello (hpc _)
  | _ => rfl

theorem handle_hello (hh : s.handle hash i st c = some t) {hl : Hello} (hpc : st.pc = .hello hl) :
    t.auth = (identify hash s.auth st.identity hl c s.now).1 ∧
      ((∃ status, (identify hash s.auth st.identity hl c s.now).2 = .error status ∧
          t.streams = s.streams.set i (st.leave (.refused status))) ∨
        ∃ name ack, (identify hash s.auth st.identity hl c s.now).2 = .ok (name, ack) ∧
          t.streams = s.streams.set i { st with name := name, pc := .openReg hl ack }) := by
  simp only [State.handle, hpc] at hh
  split at hh
  · next auth status heq =>
    obtain rfl := Option.some.inj hh
    rw [heq]
    exact ⟨rfl, .inl ⟨status, rfl, rfl⟩⟩
  · next auth name ack heq =>
    obtain rfl := Option.some.inj hh
    rw [heq]
    exact ⟨rfl, .inr ⟨name, ack, rfl, rfl⟩⟩

/-- The credentials change with a processed `Hello` or a reload only. -/
theorem step_auth {a : ServerAct Op Res} (h : s.step hash a = some t) :
    t.auth = s.auth ∨ (∃ i c identity hl, a = .handle i c ∧
      t.auth = (identify hash s.auth identity hl c s.now).1) ∨ ∃ auth, a = .reload auth := by
  cases a with
  | connect token enroll ip blocked =>
    simp only [State.step] at h
    split at h <;> exact Option.some.inj h ▸ .inl rfl
  | recv j m =>
    obtain ⟨x, -, -, rfl⟩ := State.step_recv h
    exact .inl rfl
  | recvErr j eof =>
    obtain ⟨x, -, -, rfl⟩ := State.step_recvErr h
    exact .inl rfl
  | handle j c =>
    obtain ⟨x, -, hhandle⟩ := State.step_handle h
    by_cases hpc : ∃ hl, x.pc = .hello hl
    · obtain ⟨hl, hhl⟩ := hpc
      exact .inr (.inl ⟨j, c, x.identity, hl, rfl, (handle_hello hhandle hhl).1⟩)
    · exact .inl (handle_auth hhandle fun hl hhl => hpc ⟨hl, hhl⟩)
  | session j a =>
    obtain ⟨-, ses, ses', k, x, -, -, -, -, rfl⟩ := State.step_session h
    exact .inl rfl
  | tick d => exact Option.some.inj h ▸ .inl rfl
  | evict cutoff => exact Option.some.inj h ▸ .inl rfl
  | reload auth => exact .inr (.inr ⟨auth, rfl⟩)

/-- A handler that has an acknowledgement in hands brings it one access closer to the
agent, and its token with it. -/
theorem handle_progress (hst : s.streams[i]? = some st) {ack : HelloAck} (hack : st.pc.ack? = some ack)
    (c : Choice) : ∃ t st', s.handle hash i st c = some t ∧ t.auth = s.auth ∧
      t.streams[i]? = some st' ∧ st'.name = st.name ∧
      ((∃ ack', st'.pc.ack? = some ack' ∧ ack'.agentToken = ack.agentToken ∧
          st.pc.left = st'.pc.left + 1 ∧ st'.down = st.down) ∨
        st.pc.left = 1 ∧ st'.pc = .recv ∧
          st'.down = if c.sent then st.down ++ [.helloAck ack] else st.down) := by
  have hget : ∀ (u : State Op Res) (y : Stream Op Res), u.streams = s.streams →
      (u.setStream i y).streams[i]? = some y := by
    intro u y hu
    rw [State.getElem?_of_set (s := s) (x := st) (y := y) hst (by rw [State.setStream, hu]), if_pos rfl]
  unfold State.handle
  cases hpc : st.pc <;> rw [hpc] at hack <;> simp only [Pc.ack?] at hack <;> cases hack
  case sendAck => exact ⟨_, _, rfl, rfl, hget _ _ rfl, rfl, .inr ⟨rfl, rfl, rfl⟩⟩
  case metricTs =>
    dsimp only
    split <;> exact ⟨_, _, rfl, rfl, hget _ _ rfl, rfl, .inl ⟨_, rfl, rfl, rfl, rfl⟩⟩
  case logTs =>
    dsimp only
    split <;> exact ⟨_, _, rfl, rfl, hget _ _ rfl, rfl, .inl ⟨_, rfl, rfl, rfl, rfl⟩⟩
  all_goals exact ⟨_, _, rfl, rfl, hget _ _ rfl, rfl, .inl ⟨_, rfl, rfl, rfl, rfl⟩⟩

theorem tokens_leave (st : Stream Op Res) (out : Ended) {tok : String} (h : tok ∈ (st.leave out).tokens) :
    tok ∈ st.tokens := by
  refine List.mem_append_right _ ?_
  unfold Stream.leave at h
  split at h <;> exact h

/-- Tokens come onto a stream by an accepted `Hello` only. -/
theorem handle_tokens (hh : s.handle hash i st c = some t) :
    ∃ st', t.streams = s.streams.set i st' ∧ (∀ hl, st'.pc ≠ .hello hl) ∧
      ∀ tok ∈ st'.tokens, tok ∈ st.tokens ∨ ∃ hl name ack, st.pc = .hello hl ∧
        (identify hash s.auth st.identity hl c s.now).2 = .ok (name, ack) ∧ tok = ack.agentToken := by
  have hleft : ∀ out hl, (st.leave out).pc ≠ .hello hl := by
    intro out hl
    unfold Stream.leave
    split <;> simp
  cases State.handles_of_handle hh with
  | refuse | close => exact ⟨_, rfl, hleft _, fun tok htok => .inl (tokens_leave st _ htok)⟩
  | @accept hl auth name ack hpc hid =>
    refine ⟨_, rfl, fun _ h => (by cases h), fun tok htok => ?_⟩
    rcases List.mem_append.mp htok with hnew | hdown
    · exact .inr ⟨hl, name, ack, hpc, by rw [hid], List.mem_singleton.mp hnew⟩
    · exact .inl (List.mem_append_right _ hdown)
  | sendAck hpc =>
    refine ⟨_, rfl, fun _ h => (by cases h), fun tok htok => .inl ?_⟩
    simp only [Stream.tokens, hpc, Pc.ack?] at htok ⊢
    cases hsent : c.sent with
    | false => exact List.mem_append_right _ (by simpa [hsent] using htok)
    | true =>
      -- the token moves from the handler to the stream
      simp only [hsent, if_true, List.filterMap_append, List.map_append] at htok
      rcases List.mem_append.mp htok with hnone | hdown
      · cases hnone
      · exact List.mem_append.mpr ((List.mem_append.mp hdown).symm)
  -- every other access keeps the acknowledgement's token, and what was sent down
  | openReg hpc | setMeta hpc | register hpc | metricTs hpc | noStores hpc | logTs hpc | noLogs hpc
    | update hpc | storeBatch hpc | storeLogBatch hpc | deliver hpc | drop hpc | put hpc
    | unregister hpc | failAll hpc =>
    exact ⟨_, rfl, fun _ h => (by cases h), fun tok htok =>
      .inl (Stream.tokens_same htok (by rw [hpc]; rfl) rfl)⟩

/-- What a message makes of a stream: its `Hello` if it is one, and no token. -/
theorem recv_tokens (hpc : st.pc = .recv) (m : AgentMessage Res) :
    (∀ hl, (st.recv s.hasStores s.hasLogs m).pc = .hello hl → m = .hello hl) ∧
      ∀ tok ∈ (st.recv s.hasStores s.hasLogs m).tokens, tok ∈ st.tokens := by
  obtain ⟨pc, hrecv, -⟩ := Stream.recv_spec hpc s.hasStores s.hasLogs m
  refine ⟨fun hl hhello => ?_, fun tok htok => ?_⟩
  · cases m <;> simp only [Stream.recv] at hhello
    case hello hl' => exact congrArg _ (Pc.hello.inj hhello)
    all_goals
      split at hhello
      all_goals first | cases hhello | (rw [hpc] at hhello; cases hhello)
  · refine List.mem_append_right _ ?_
    have hnone : (st.recv s.hasStores s.hasLogs m).pc.ack? = none := by
      cases m <;> simp only [Stream.recv] <;> try split
      all_goals first | rfl | (rw [hpc]; rfl)
    rw [Stream.tokens, hnone, hrecv] at htok
    exact htok

end

end Marshal.Server
