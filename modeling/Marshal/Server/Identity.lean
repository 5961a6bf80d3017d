import Marshal.Server.Connect
import Marshal.Server.Isolation

/-! A stream acts as the agent it was admitted as.

The identity is fixed when the stream is admitted; the name is taken at each
`Hello` and used by every access after it. `OnlyUnder` says what a step may have
written, and `MayUse` which names are the stream's to write under. -/
namespace Marshal.Server
open Proto

variable {Op Res : Type} {hash : String → String}

/-- The handler works under its stream's name. -/
def Pc.acts : Pc Res → Bool
  | .recv | .hello _ | .returned _ => false
  | _ => true

/-- A `Hello` has been accepted and its session is yet to be registered. -/
def Pc.joining : Pc Res → Bool
  | .openReg .. | .setMeta .. | .register _ => true
  | _ => false

def ServerAct.stream : ServerAct Op Res → Option Nat
  | .recv i _ | .recvErr i _ | .handle i _ => some i
  | _ => none

/-! ### What a step writes -/

/-- The registry, the broker and the stores are untouched. -/
structure Quiet (s t : State Op Res) : Prop where
  reg : t.reg = s.reg
  broker : t.broker = s.broker
  data : t.data = s.data

/-- Whatever changes is the entry of `n` in the registry and the broker, its directory,
or a session stream `i` registered for it. -/
structure OnlyUnder (n : String) (i : Nat) (s t : State Op Res) : Prop where
  reg : ∀ m, m ≠ n → t.reg.agents.get m = s.reg.agents.get m
  broker : ∀ m, m ≠ n → t.broker.get m = s.broker.get m
  data : ∀ key, key ≠ sanitizeAgent n → t.data.cell key = s.data.cell key
  sessions : ∀ j, t.broker.all[j]? ≠ s.broker.all[j]? →
    ∃ st, t.streams[i]? = some st ∧ (n, j) ∈ st.registered

theorem OnlyUnder.of_reg {n : String} {i : Nat} {s t : State Op Res} (hbroker : t.broker = s.broker)
    (hdata : t.data = s.data) (hreg : ∀ m, m ≠ n → t.reg.agents.get m = s.reg.agents.get m) :
    OnlyUnder n i s t :=
  ⟨hreg, fun _ _ => by rw [hbroker], fun _ _ => by rw [hdata], fun _ hj => absurd (by rw [hbroker]) hj⟩

theorem OnlyUnder.of_data {n : String} {i : Nat} {s t : State Op Res} (hbroker : t.broker = s.broker)
    (hreg : t.reg = s.reg) (hdata : ∀ key, key ≠ sanitizeAgent n → t.data.cell key = s.data.cell key) :
    OnlyUnder n i s t :=
  ⟨fun _ _ => by rw [hreg], fun _ _ => by rw [hbroker], hdata, fun _ hj => absurd (by rw [hbroker]) hj⟩

/-- A session of the stream changes. -/
theorem OnlyUnder.of_session {n : String} {i j : Nat} {s : State Op Res} {st st' : Stream Op Res}
    {ses : Session Op Res} (hst : s.streams[i]? = some st) (hmem : (n, j) ∈ st'.registered) :
    OnlyUnder n i s ((s.setSession j ses).setStream i st') := by
  refine ⟨fun _ _ => rfl, fun _ _ => rfl, fun _ _ => rfl, fun k hk => ?_⟩
  have hkj : j = k := by
    by_contra hne
    exact hk (by simp [List.getElem?_set_ne hne])
  subst hkj
  have hst' : (s.setSession j ses).streams[i]? = some st := hst
  exact ⟨st', by rw [State.getElem?_setStream hst', if_pos rfl], hmem⟩

section
variable {s t : State Op Res} {i : Nat} {st : Stream Op Res} {c : Choice}

/-- An access of a handler writes under its stream's name only. -/
theorem handle_onlyUnder (hst : s.streams[i]? = some st)
    (hsess : st.pc.joining = false → ∀ j, st.sess = some j → (st.name, j) ∈ st.registered)
    (h : s.handle hash i st c = some t) :
    Quiet s t ∨ st.pc.acts = true ∧ OnlyUnder st.name i s t := by
  cases State.handles_of_handle h with
  | refuse | accept | noStores | noLogs | sendAck | drop => exact .inl ⟨rfl, rfl, rfl⟩
  | openReg hpc | setMeta hpc | update hpc =>
    exact .inr ⟨by rw [hpc]; rfl, .of_reg rfl rfl fun m hm =>
      (Registry.get_setEntry _ _ _ _).trans (if_neg hm)⟩
  | close hpc =>
    exact .inr ⟨by rw [hpc]; rfl, .of_reg rfl rfl fun m hm =>
      (Registry.get_close _ _ _).trans (if_neg hm)⟩
  | metricTs hpc =>
    exact .inr ⟨by rw [hpc]; rfl, .of_data rfl rfl
      ((atCell_lastMetricTs st.name c.opening c.reads).other s.data)⟩
  | logTs hpc =>
    exact .inr ⟨by rw [hpc]; rfl, .of_data rfl rfl
      ((atCell_lastLogTs st.name c.opening c.reads).other s.data)⟩
  | @storeBatch samples hpc =>
    exact .inr ⟨by rw [hpc]; rfl, .of_data rfl rfl
      ((atCell_storeBatch st.name samples c.opening c.appended .done).other s.data)⟩
  | @storeLogBatch lines hpc =>
    exact .inr ⟨by rw [hpc]; rfl, .of_data rfl rfl
      ((atCell_storeLogBatch st.name lines c.opening c.appends .done).other s.data)⟩
  | deliver hpc hj | put hpc hj | failAll hpc hj =>
    exact .inr ⟨by rw [hpc]; rfl, .of_session hst (hsess (by rw [hpc]; rfl) _ hj)⟩
  | @register ack hpc =>
    refine .inr ⟨by rw [hpc]; rfl, fun _ _ => rfl,
      fun m hm => (Table.get_set _ _ _ _).trans (if_neg hm), fun _ _ => rfl, fun j hj => ?_⟩
    have hnew : j = s.broker.all.length := by
      by_contra hne
      refine hj ?_
      exact Growing.concat_other hne
    subst hnew
    exact ⟨{ st with
      sess := some s.broker.all.length
      pc := .metricTs ack
      registered := (st.name, s.broker.all.length) :: st.registered },
      (State.getElem?_setStream (s := { s with
        broker := s.broker.register st.name, sendsOn := s.sendsOn ++ [i] }) hst _ i).trans (if_pos rfl),
      List.mem_cons_self⟩
  | @unregister out j hpc =>
    refine .inr ⟨by rw [hpc]; rfl, fun _ _ => rfl, fun m hm => ?_, fun _ _ => rfl, fun k hk => ?_⟩
    · show (s.broker.unregister st.name j).get m = s.broker.get m
      unfold Broker.unregister
      split
      · exact (Table.get_del _ _ _).trans (if_neg hm)
      · rfl
    · refine absurd ?_ hk
      show (s.broker.unregister st.name j).all[k]? = s.broker.all[k]?
      unfold Broker.unregister
      split <;> rfl

/-! ### Which name a stream works under -/

/-- The stream's name is its own wherever it is used, and its session is registered for it. -/
structure Stream.Bound (may : String → Prop) (st : Stream Op Res) : Prop where
  named : st.pc.acts = true ∨ st.sess.isSome = true ∨ st.name ≠ "" → may st.name
  sess : st.pc.joining = false → ∀ j, st.sess = some j → (st.name, j) ∈ st.registered

theorem Stream.Bound.mono {may may' : String → Prop} (hb : st.Bound may) (h : ∀ n, may n → may' n) :
    st.Bound may' :=
  ⟨fun hn => h _ (hb.named hn), hb.sess⟩

theorem Stream.Bound.recv {may : String → Prop} (hb : st.Bound may) (hpc : st.pc = .recv)
    (hasStores hasLogs : Bool) (m : AgentMessage Res) : (st.recv hasStores hasLogs m).Bound may := by
  have hsess : ∀ j, st.sess = some j → (st.name, j) ∈ st.registered := hb.sess (by rw [hpc]; rfl)
  cases m with
  | hello h => exact ⟨fun hn => hb.named (.inr (hn.resolve_left (by simp [Stream.recv, Pc.acts]))), fun _ => hsess⟩
  | snapshot procs host =>
    simp only [Stream.recv]
    split
    · next hname => exact ⟨fun _ => hb.named (.inr (.inr (by simpa using hname))), fun _ => hsess⟩
    · exact hb
  | metrics samples =>
    simp only [Stream.recv]
    split
    · next hname =>
      rw [Bool.and_eq_true, bne_iff_ne] at hname
      exact ⟨fun _ => hb.named (.inr (.inr hname.1)), fun _ => hsess⟩
    · exact hb
  | logs lines =>
    simp only [Stream.recv]
    split
    · next hname =>
      rw [Bool.and_eq_true, bne_iff_ne] at hname
      exact ⟨fun _ => hb.named (.inr (.inr hname.1)), fun _ => hsess⟩
    · exact hb
  | result r =>
    simp only [Stream.recv]
    split
    · next hs => exact ⟨fun _ => hb.named (.inr (.inl hs)), fun _ => hsess⟩
    · exact hb

theorem Stream.Bound.leave {may : String → Prop} (hb : st.Bound may) (hjoin : st.pc.joining = false)
    (out : Ended) : (st.leave out).Bound may := by
  refine ⟨fun hn => hb.named (.inr ?_), fun _ => hb.sess hjoin⟩
  rcases hn with hacts | hrest
  · left
    by_contra hs
    simp [Stream.leave, hs, Pc.acts] at hacts
  · exact hrest

theorem Stream.Bound.recvErr {may : String → Prop} (hb : st.Bound may) (hpc : st.pc = .recv)
    (out : Ended) : (st.recvErr out).Bound may := by
  unfold Stream.recvErr
  split
  · next hname =>
    exact ⟨fun _ => hb.named (.inr (.inr (by simpa using hname))), fun _ => hb.sess (by rw [hpc]; rfl)⟩
  · exact hb.leave (by rw [hpc]; rfl) out

/-- A handler changes its stream's name at `Hello` only. -/
theorem bound_handle {may may' : String → Prop} (hmono : ∀ n, may n → may' n) (hb : st.Bound may)
    (hid : ∀ h auth name ack, st.pc = .hello h →
      identify hash s.auth st.identity h c s.now = (auth, .ok (name, ack)) → may' name)
    (h : s.handle hash i st c = some t) :
    ∃ st', t.streams = s.streams.set i st' ∧ st'.identity = st.identity ∧ st'.Bound may' := by
  have hb := hb.mono hmono
  cases State.handles_of_handle h with
  | refuse hpc | close hpc => exact ⟨_, rfl, rfl, hb.leave (by rw [hpc]; rfl) _⟩
  | accept hpc hok => exact ⟨_, rfl, rfl, fun _ => hid _ _ _ _ hpc hok, fun hj => by cases hj⟩
  | openReg hpc | setMeta hpc =>
    exact ⟨_, rfl, rfl, fun _ => hb.named (.inl (by rw [hpc]; rfl)), fun hj => by cases hj⟩
  | register hpc =>
    refine ⟨_, rfl, rfl, fun _ => hb.named (.inl (by rw [hpc]; rfl)), fun _ j hj => ?_⟩
    obtain rfl := Option.some.inj hj
    exact List.mem_cons_self
  | metricTs hpc | noStores hpc | logTs hpc | noLogs hpc | sendAck hpc | update hpc | storeBatch hpc
    | storeLogBatch hpc | deliver hpc | drop hpc | put hpc | unregister hpc | failAll hpc =>
    exact ⟨_, rfl, rfl, fun _ => hb.named (.inl (by rw [hpc]; rfl)),
      fun _ => hb.sess (by rw [hpc]; rfl)⟩

end

/-- Every stream works under names it may use. -/
def Bound (may : Nat → Identity → String → Prop) (s : State Op Res) : Prop :=
  ∀ (i : Nat) (st : Stream Op Res), s.streams[i]? = some st → st.Bound (may i st.identity)

theorem Bound.set {may may' : Nat → Identity → String → Prop} {s t : State Op Res} {i : Nat}
    {st st' : Stream Op Res} (hmono : ∀ k identity n, may k identity n → may' k identity n)
    (hb : Bound may s) (hst : s.streams[i]? = some st) (ht : t.streams = s.streams.set i st')
    (hst' : st'.Bound (may' i st'.identity)) : Bound may' t := by
  intro k stk hk
  rw [State.getElem?_of_set hst ht] at hk
  split at hk
  · next hki =>
    obtain rfl := Option.some.inj hk
    exact hki ▸ hst'
  · exact (hb k stk hk).mono (hmono k _)

/-- Only a `Hello` gives a stream a name, so only there is it to be shown that it may use it. -/
theorem bound_step {may may' : Nat → Identity → String → Prop} {s t : State Op Res}
    {a : ServerAct Op Res} (hmono : ∀ k identity n, may k identity n → may' k identity n)
    (hid : ∀ i c st h auth name ack, a = .handle i c → s.streams[i]? = some st → st.pc = .hello h →
      identify hash s.auth st.identity h c s.now = (auth, .ok (name, ack)) → may' i st.identity name)
    (hb : Bound may s) (hstep : s.step hash a = some t) : Bound may' t := by
  have hkeep : Bound may' s := fun k st hk => (hb k st hk).mono (hmono k _)
  cases a with
  | connect token enroll ip blocked =>
    simp only [State.step] at hstep
    split at hstep
    · obtain rfl := Option.some.inj hstep
      exact hkeep
    · obtain rfl := Option.some.inj hstep
      intro k st hk
      rcases Growing.old_or_new hk with hold | ⟨-, rfl⟩
      · exact hkeep k st hold
      · exact ⟨fun hn => by simp [Pc.acts] at hn, fun _ j hj => by simp at hj⟩
  | recv i m =>
    obtain ⟨st, hst, hpc, rfl⟩ := State.step_recv hstep
    refine hb.set hmono hst rfl ?_
    have hsame : (st.recv s.hasStores s.hasLogs m).identity = st.identity := by
      cases m <;> simp only [Stream.recv] <;> split <;> rfl
    rw [hsame]
    exact (hkeep i st hst).recv hpc _ _ m
  | recvErr i eof =>
    obtain ⟨st, hst, hpc, rfl⟩ := State.step_recvErr hstep
    refine hb.set hmono hst rfl ?_
    have hsame : ∀ out, (st.recvErr out).identity = st.identity := by
      intro out
      unfold Stream.recvErr
      split <;> rfl
    rw [hsame]
    exact (hkeep i st hst).recvErr hpc _
  | handle i c =>
    obtain ⟨st, hst, hhandle⟩ := State.step_handle hstep
    obtain ⟨st', ht, hsame, hst'⟩ := bound_handle (hmono i _) (hb i st hst)
      (fun h auth name ack hpc hok => hid i c st h auth name ack rfl hst hpc hok) hhandle
    exact hb.set hmono hst ht (hsame ▸ hst')
  | session j a =>
    obtain ⟨-, ses, ses', k, st, -, -, -, hst, rfl⟩ := State.step_session hstep
    exact hb.set hmono hst rfl ⟨(hkeep k st hst).named, (hkeep k st hst).sess⟩
  | tick d => exact Option.some.inj hstep ▸ hkeep
  | evict cutoff => exact Option.some.inj hstep ▸ hkeep
  | reload auth => exact Option.some.inj hstep ▸ hkeep

/-! ### Along a run -/

/-- In the run, stream `i` enrolled the name `n`, and the name had no token until then. -/
def EnrolledBy (hash : String → String) (s₀ : State Op Res) (as : List (ServerAct Op Res)) (i : Nat)
    (n : String) : Prop :=
  ∃ before c after u v, as = before ++ .handle i c :: after ∧
    (serverSystem hash Op Res).run s₀ before = some u ∧ u.step hash (.handle i c) = some v ∧
    u.auth.agents.get n = none ∧ (v.auth.agents.get n).isSome

/-- The names stream `i` may write under, after the steps `as`. -/
def MayUse (hash : String → String) (s₀ : State Op Res) (as : List (ServerAct Op Res)) (i : Nat) :
    Identity → String → Prop
  | .agent authed, n => n = authed
  | .enrolling, n => EnrolledBy hash s₀ as i n

theorem MayUse.mono {s₀ : State Op Res} {as : List (ServerAct Op Res)} (a : ServerAct Op Res) (i : Nat)
    (identity : Identity) (n : String) (h : MayUse hash s₀ as i identity n) :
    MayUse hash s₀ (as ++ [a]) i identity n := by
  cases identity with
  | agent authed => exact h
  | enrolling =>
    obtain ⟨before, c, after, u, v, rfl, hrest⟩ := h
    exact ⟨before, c, after ++ [a], u, v, by simp, hrest⟩

theorem bound_run {s₀ s : State Op Res} {as : List (ServerAct Op Res)}
    (h₀ : (serverSystem hash Op Res).init s₀) (hrun : (serverSystem hash Op Res).run s₀ as = some s) :
    Bound (MayUse hash s₀ as) s := by
  refine (serverSystem hash Op Res).run_history (I := fun as s => Bound (MayUse hash s₀ as) s) ?_ ?_ hrun
  · intro i st hi
    rw [h₀.2.2.2] at hi
    simp at hi
  · intro as s a t hrun hb hstep
    refine bound_step (MayUse.mono a) ?_ hb hstep
    rintro i c st h auth name ack rfl hst hpc hok
    cases hidentity : st.identity with
    | agent authed =>
      rw [hidentity] at hok
      cases hok
      rfl
    | enrolling =>
      rw [hidentity] at hok
      obtain ⟨-, -, hnone, hsome, -⟩ := identify_enrolling_ok hok
      refine ⟨as, c, [], s, t, rfl, hrun, hstep, hnone, ?_⟩
      have hhandle : s.step hash (.handle i c) = some t := hstep
      simp only [State.step, hst, State.handle, hpc, hidentity, hok] at hhandle
      obtain rfl := Option.some.inj hhandle
      exact hsome

/-- **Identity.** Take a stream admitted at any point of any run, and any later step
of its handler, whatever it received. If a per-agent token admitted it, the step writes
under the name that token was bound to and under no other; if the enroll token did,
under a name which this stream enrolled and which had no token at that moment. -/
theorem acts_as_admitted {s₀ u s t : State Op Res} {before mid : List (ServerAct Op Res)}
    {token enroll ip : String} {blocked : Bool} {identity : Identity} {a : ServerAct Op Res}
    (h₀ : (serverSystem hash Op Res).init s₀)
    (hu : (serverSystem hash Op Res).run s₀ before = some u)
    (hpass : u.auth.streamAuth hash token enroll blocked = .ok identity)
    (hs : (serverSystem hash Op Res).run s₀ (before ++ .connect token enroll ip blocked :: mid) = some s)
    (ha : a.stream = some u.streams.length) (hstep : s.step hash a = some t) :
    (∀ authed, identity = .agent authed →
      (∃ e, u.auth.agents.get authed = some e ∧ e.tokenHash = hash token) ∧
        (Quiet s t ∨ OnlyUnder authed u.streams.length s t)) ∧
    (identity = .enrolling → Quiet s t ∨ ∃ n,
      EnrolledBy hash s₀ (before ++ .connect token enroll ip blocked :: mid) u.streams.length n ∧
        OnlyUnder n u.streams.length s t) := by
  -- the stream is still there, with the identity it was admitted with
  have hstream : ∃ st, s.streams[u.streams.length]? = some st ∧ st.identity = identity := by
    obtain ⟨u', hu', hmid⟩ := (serverSystem hash Op Res).run_append.mp hs
    obtain rfl := Option.some.inj (hu.symm.trans hu')
    obtain ⟨v, hv, hmid⟩ := (serverSystem hash Op Res).run_cons.mp hmid
    refine (serverSystem hash Op Res).run_invariant
      (I := fun s => ∃ st, s.streams[u.streams.length]? = some st ∧ st.identity = identity) ?_ ?_ hmid
    · rintro s a t ⟨st, hst, hid⟩ hstep
      obtain ⟨st', hst', hid'⟩ := State.step_identity hstep hst
      exact ⟨st', hst', hid'.trans hid⟩
    · have hv : u.step hash (.connect token enroll ip blocked) = some v := hv
      simp only [State.step, hpass] at hv
      obtain rfl := Option.some.inj hv
      exact ⟨{ identity := identity, ip := ip }, by simp, rfl⟩
  obtain ⟨st, hst, hid⟩ := hstream
  have hbound := bound_run h₀ hs u.streams.length st hst
  rw [hid] at hbound
  have hwrites : Quiet s t ∨ ∃ n, MayUse hash s₀ (before ++ .connect token enroll ip blocked :: mid)
      u.streams.length identity n ∧ OnlyUnder n u.streams.length s t := by
    cases a with
    | recv i m =>
      obtain ⟨x, -, -, rfl⟩ := State.step_recv hstep
      exact .inl ⟨rfl, rfl, rfl⟩
    | recvErr i eof =>
      obtain ⟨x, -, -, rfl⟩ := State.step_recvErr hstep
      exact .inl ⟨rfl, rfl, rfl⟩
    | handle i c =>
      obtain rfl : i = u.streams.length := Option.some.inj ha
      obtain ⟨x, hx, hhandle⟩ := State.step_handle hstep
      obtain rfl := Option.some.inj (hst.symm.trans hx)
      rcases handle_onlyUnder hst hbound.sess hhandle with hquiet | ⟨hacts, honly⟩
      · exact .inl hquiet
      · exact .inr ⟨st.name, hbound.named (.inl hacts), honly⟩
    | _ => cases ha
  refine ⟨?_, ?_⟩
  · rintro authed rfl
    refine ⟨(AuthData.streamAuth_agent hpass).2, hwrites.imp_right ?_⟩
    rintro ⟨n, rfl, honly⟩
    exact honly
  · rintro rfl
    exact hwrites

/-- A server that knows one agent, `db`, by the token `t`. -/
def oneAgent : State Nat Nat := { auth := { agents := Table.set ∅ "db" ⟨"#t", 0⟩ } }

theorem acts_as_admitted_db :
    ∃ s t, (serverSystem ("#" ++ ·) Nat Nat).run oneAgent
        ([] ++ .connect "t" "" "10.0.0.1" false :: [.recv 0 (.hello { agentName := "web" }), .handle 0 {}]) =
          some s ∧
      s.step ("#" ++ ·) (.handle 0 {}) = some t ∧ (Quiet s t ∨ OnlyUnder "db" 0 s t) := by
  have hinit : (serverSystem ("#" ++ ·) Nat Nat).init oneAgent := ⟨rfl, rfl, rfl, rfl⟩
  have hpass : oneAgent.auth.streamAuth ("#" ++ ·) "t" "" false = .ok (.agent "db") := rfl
  have hrun : ((serverSystem ("#" ++ ·) Nat Nat).run oneAgent
      (([] ++ .connect "t" "" "10.0.0.1" false :: [.recv 0 (.hello { agentName := "web" }), .handle 0 {}]) ++
        [.handle 0 {}])).isSome := rfl
  obtain ⟨t, ht⟩ := Option.isSome_iff_exists.mp hrun
  obtain ⟨s, hs, hstep⟩ := (serverSystem ("#" ++ ·) Nat Nat).run_concat.mp ht
  have hhandle : s.step ("#" ++ ·) (.handle 0 {}) = some t := hstep
  exact ⟨s, t, hs, hstep, ((acts_as_admitted hinit rfl hpass hs rfl hhandle).1 "db" rfl).2⟩

end Marshal.Server
