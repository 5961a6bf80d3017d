import Marshal.Server.Identity

/-! What a stream leaves behind.

The handler cleans up the last name and the last session it had, and closes the
name only when `Recv` fails. `Orderly` is the rule under which that is all there
is to clean up; `Kept` is what every step under the rule preserves: whatever is
marked open, registered or waited on belongs to a stream still being served. -/
namespace Marshal.Server
open Proto

variable {Op Res : Type} {hash : String → String}

/-- The handler's session is still in the broker's hands. -/
def Pc.listed : Pc Res → Bool
  | .failAll _ | .returned _ => false
  | _ => true

def Pc.isReturned : Pc Res → Bool
  | .returned _ => true
  | _ => false

theorem Pc.listed_of_serving {pc : Pc Res} (h : pc.serving = true) : pc.listed = true := by
  cases pc <;> first | rfl | cases h

theorem Pc.not_returned_of_serving {pc : Pc Res} (h : pc.serving = true) : pc.isReturned = false := by
  cases pc <;> first | rfl | cases h

/-! ### The rule -/

/-- The `Hello` is accepted under a name, and on a named stream under that name again. -/
def HelloOrderly (hash : String → String) (s : State Op Res) (st : Stream Op Res) (h : Hello)
    (c : Choice) : Prop :=
  match (identify hash s.auth st.identity h c s.now).2 with
  | .ok (name, _) => name ≠ "" ∧ (st.name = "" ∨ st.name = name)
  | .error _ => st.name = ""

instance (s : State Op Res) (st : Stream Op Res) (h : Hello) (c : Choice) :
    Decidable (HelloOrderly hash s st h c) := by
  unfold HelloOrderly
  split <;> infer_instance

/-- A session is replaced only when nothing is pending on it. -/
def RegisterOrderly (s : State Op Res) (st : Stream Op Res) : Prop :=
  ∀ j ∈ st.sess, ∀ ses ∈ s.broker.all[j]?, ses.pending = ∅

instance (s : State Op Res) (st : Stream Op Res) : Decidable (RegisterOrderly s st) :=
  inferInstanceAs (Decidable (∀ j ∈ st.sess, ∀ ses ∈ s.broker.all[j]?, ses.pending = ∅))

/-- The rule for a step of a handler, by where its stream stands. -/
def Pc.Orderly (hash : String → String) (s : State Op Res) (st : Stream Op Res) (c : Choice) :
    Pc Res → Prop
  | .hello h => HelloOrderly hash s st h c
  | .register _ => RegisterOrderly s st
  | _ => True

instance (s : State Op Res) (st : Stream Op Res) (c : Choice) (pc : Pc Res) :
    Decidable (pc.Orderly hash s st c) := by
  cases pc <;> unfold Pc.Orderly <;> infer_instance

/-- A handler keeps to its rule; a replaced session is never dispatched on; no send
succeeds after `failAll`. -/
def ServerAct.Orderly (hash : String → String) (s : State Op Res) : ServerAct Op Res → Prop
  | .handle i c => ∀ st ∈ s.streams[i]?, st.pc.Orderly hash s st c
  | .session j a => match a with
    | .dispatch _ => ∀ k ∈ s.sendsOn[j]?, ∀ st ∈ s.streams[k]?, st.sess = some j
    | a => ∀ ses ∈ s.broker.all[j]?, a.NotLate ses
  | _ => True

instance (s : State Op Res) : (a : ServerAct Op Res) → Decidable (a.Orderly hash s)
  | .handle i c => inferInstanceAs (Decidable (∀ st ∈ s.streams[i]?, st.pc.Orderly hash s st c))
  | .session j (.dispatch _) =>
    inferInstanceAs (Decidable (∀ k ∈ s.sendsOn[j]?, ∀ st ∈ s.streams[k]?, st.sess = some j))
  | .session j (.send d ok) => inferInstanceAs (Decidable (∀ ses ∈ s.broker.all[j]?, (SessionAct.send d ok).NotLate ses))
  | .session _ (.take _) | .session _ (.expire _) | .session _ (.remove _) | .session _ (.deliver _) |
    .session _ (.put _) | .session _ .failAll => isTrue fun _ _ => trivial
  | .connect .. | .recv .. | .recvErr .. | .tick _ | .evict _ | .reload _ => isTrue trivial

/-! ### Witnesses among the streams -/

/-- Some stream has the property. -/
def Somewhere (P : Stream Op Res → Prop) (s : State Op Res) : Prop :=
  ∃ (k : Nat) (x : Stream Op Res), s.streams[k]? = some x ∧ P x

section
variable {P : Stream Op Res → Prop} {s t : State Op Res} {i : Nat} {st st' : Stream Op Res} {c : Choice}

theorem Somewhere.set (h : Somewhere P s) (hst : s.streams[i]? = some st)
    (ht : t.streams = s.streams.set i st') (hown : P st → P st') : Somewhere P t := by
  obtain ⟨k, x, hk, hP⟩ := h
  by_cases hki : k = i
  · subst hki
    obtain rfl := Option.some.inj (hst.symm.trans hk)
    exact ⟨k, st', by rw [State.getElem?_of_set hst ht, if_pos rfl], hown hP⟩
  · exact ⟨k, x, by rw [State.getElem?_of_set hst ht, if_neg hki, hk], hP⟩

theorem Somewhere.here (hst : s.streams[i]? = some st) (ht : t.streams = s.streams.set i st')
    (h : P st') : Somewhere P t :=
  ⟨i, st', by rw [State.getElem?_of_set hst ht, if_pos rfl], h⟩

theorem Somewhere.append (h : Somewhere P s) {new : List (Stream Op Res)}
    (ht : t.streams = s.streams ++ new) : Somewhere P t := by
  obtain ⟨k, x, hk, hP⟩ := h
  exact ⟨k, x, by rw [ht, Growing.keep hk], hP⟩

/-! ### The invariant -/

/-- No stream works under the empty name. -/
abbrev Named (s : State Op Res) : Prop := Bound (fun _ _ n => n ≠ "") s

theorem Named.of_acts (h : Named s) (hst : s.streams[i]? = some st) (hacts : st.pc.acts = true) :
    st.name ≠ "" :=
  (h i st hst).named (.inl hacts)

theorem Named.sess_none (h : Named s) (hst : s.streams[i]? = some st) (hname : st.name = "") :
    st.sess = none := by
  cases hsess : st.sess with
  | none => rfl
  | some j => exact absurd hname ((h i st hst).named (.inr (.inl (by rw [hsess]; rfl))))

theorem named_step {a : ServerAct Op Res} (h : Named s) (hrule : a.Orderly hash s)
    (hstep : s.step hash a = some t) : Named t := by
  refine bound_step (fun _ _ _ hn => hn) ?_ h hstep
  rintro i c st hl auth name ack rfl hst hpc hok
  have hrule : st.pc.Orderly hash s st c := hrule st hst
  simp only [hpc, Pc.Orderly, HelloOrderly, hok] at hrule
  exact hrule.1

/-! #### The registry -/

def Served (n : String) (x : Stream Op Res) : Prop := x.name = n ∧ x.pc.serving = true

/-- Every name marked open is served. -/
def Opened (s : State Op Res) : Prop :=
  ∀ n e, s.reg.agents.get n = some e → e.streamOpen = true → n ≠ "" ∧ Somewhere (Served n) s

theorem Opened.set (h : Opened s) (hst : s.streams[i]? = some st)
    (ht : t.streams = s.streams.set i st') (hreg : t.reg = s.reg)
    (hown : ∀ n, n ≠ "" → Served n st → Served n st') : Opened t := by
  intro n e hn he
  rw [hreg] at hn
  obtain ⟨hne, hsome⟩ := h n e hn he
  exact ⟨hne, hsome.set hst ht (hown n hne)⟩

theorem opened_handle (h : Opened s) (hnamed : Named s) (hst : s.streams[i]? = some st)
    (hrule : (ServerAct.handle i c).Orderly hash s) (hh : s.handle hash i st c = some t) : Opened t := by
  have hrule : st.pc.Orderly hash s st c := hrule st hst
  cases State.handles_of_handle hh with
  | refuse hpc hid =>
    simp only [hpc, Pc.Orderly, HelloOrderly, hid] at hrule
    exact h.set hst rfl rfl fun n hne hserved => absurd (hserved.1.symm.trans hrule) hne
  | accept hpc hid =>
    simp only [hpc, Pc.Orderly, HelloOrderly, hid] at hrule
    refine h.set hst rfl rfl fun n hne hserved => ⟨?_, rfl⟩
    rcases hrule.2 with hname | hsame
    · exact absurd (hserved.1.symm.trans hname) hne
    · exact hsame.symm.trans hserved.1
  | openReg hpc =>
    have hname := hnamed.of_acts hst (by rw [hpc]; rfl)
    intro n e hn he
    have hn : (s.reg.openStream st.name s.now).agents.get n = some e := hn
    rw [Registry.openStream, Registry.get_setEntry] at hn
    split at hn
    · next hnm => exact ⟨hnm ▸ hname, .here hst rfl ⟨hnm.symm, rfl⟩⟩
    · obtain ⟨hne, hsome⟩ := h n e hn he
      exact ⟨hne, hsome.set hst rfl fun hserved => ⟨hserved.1, rfl⟩⟩
  | setMeta =>
    intro n e hn he
    obtain ⟨e', he', hopen', -⟩ := Registry.get_setMeta_back hn he
    obtain ⟨hne, hsome⟩ := h n e' he' hopen'
    exact ⟨hne, hsome.set hst rfl fun hserved => ⟨hserved.1, rfl⟩⟩
  | update hpc =>
    have hname := hnamed.of_acts hst (by rw [hpc]; rfl)
    intro n e hn he
    rw [State.setStream_reg, Registry.update, Registry.get_setEntry] at hn
    split at hn
    · next hnm => exact ⟨hnm ▸ hname, .here hst rfl ⟨hnm.symm, rfl⟩⟩
    · obtain ⟨hne, hsome⟩ := h n e hn he
      exact ⟨hne, hsome.set hst rfl fun hserved => ⟨hserved.1, rfl⟩⟩
  | close =>
    intro n e hn he
    rw [State.setStream_reg, Registry.get_close] at hn
    split at hn
    · obtain ⟨e', -, rfl⟩ := Option.map_eq_some_iff.mp hn
      cases he
    · next hnm =>
      obtain ⟨hne, hsome⟩ := h n e hn he
      exact ⟨hne, hsome.set hst rfl fun hserved => absurd hserved.1.symm hnm⟩
  | unregister hpc | failAll hpc =>
    exact h.set hst rfl rfl fun n _ hserved => absurd hserved.2 (by simp [hpc, Pc.serving])
  -- every other access leaves the registry, and the stream its name
  | register | metricTs | noStores | logTs | noLogs | sendAck | storeBatch | storeLogBatch | deliver
    | drop | put =>
    exact h.set hst rfl rfl fun n _ hserved => ⟨hserved.1, rfl⟩

theorem opened_step {a : ServerAct Op Res} (h : Opened s) (hnamed : Named s) (hrule : a.Orderly hash s)
    (hstep : s.step hash a = some t) : Opened t := by
  cases a with
  | connect token enroll ip blocked =>
    simp only [State.step] at hstep
    split at hstep
    · exact Option.some.inj hstep ▸ h
    · obtain rfl := Option.some.inj hstep
      intro n e hn he
      obtain ⟨hne, hsome⟩ := h n e hn he
      exact ⟨hne, hsome.append rfl⟩
  | recv i m =>
    obtain ⟨st, hst, hpc, rfl⟩ := State.step_recv hstep
    obtain ⟨pc, hrecv, hserving⟩ := Stream.recv_spec hpc s.hasStores s.hasLogs m
    exact h.set hst rfl rfl fun n _ hserved => hrecv ▸ ⟨hserved.1, hserving⟩
  | recvErr i eof =>
    obtain ⟨st, hst, hpc, rfl⟩ := State.step_recvErr hstep
    refine h.set hst rfl rfl fun n hne hserved => ?_
    have hname : (st.name != "") = true := by rw [hserved.1, bne_iff_ne]; exact hne
    rw [Stream.recvErr, if_pos hname]
    exact ⟨hserved.1, rfl⟩
  | handle i c =>
    obtain ⟨st, hst, hhandle⟩ := State.step_handle hstep
    exact opened_handle h hnamed hst hrule hhandle
  | session j a =>
    obtain ⟨-, ses, ses', k, st, -, -, -, hst, rfl⟩ := State.step_session hstep
    exact h.set hst rfl rfl fun n _ hserved => hserved
  | tick d => exact Option.some.inj hstep ▸ h
  | evict cutoff =>
    obtain rfl := Option.some.inj hstep
    intro n e hn he
    rw [Registry.get_evict] at hn
    exact h n e (Option.filter_eq_some_iff.mp hn).1 he
  | reload auth => exact Option.some.inj hstep ▸ h

/-! #### The broker -/

def Listed (n : String) (j : Nat) (x : Stream Op Res) : Prop :=
  x.name = n ∧ x.sess = some j ∧ x.pc.listed = true

/-- Every session in the broker is that of a stream yet to unregister it. -/
def AllListed (s : State Op Res) : Prop := ∀ n j, s.broker.get n = some j → Somewhere (Listed n j) s

theorem AllListed.set (h : AllListed s) (hst : s.streams[i]? = some st)
    (ht : t.streams = s.streams.set i st') (hbroker : t.broker.sessions = s.broker.sessions)
    (hown : ∀ n j, Listed n j st → Listed n j st') : AllListed t := by
  intro n j hn
  rw [Broker.get, hbroker] at hn
  exact (h n j hn).set hst ht (hown n j)

theorem listed_handle (h : AllListed s) (hnamed : Named s) (hst : s.streams[i]? = some st)
    (hrule : (ServerAct.handle i c).Orderly hash s) (hh : s.handle hash i st c = some t) :
    AllListed t := by
  have hunnamed : st.name = "" → ∀ n j, ¬ Listed n j st := by
    intro hname n j hlisted
    have := hlisted.2.1
    rw [hnamed.sess_none hst hname] at this
    cases this
  have hrule : st.pc.Orderly hash s st c := hrule st hst
  cases State.handles_of_handle hh with
  | refuse hpc hid =>
    simp only [hpc, Pc.Orderly, HelloOrderly, hid] at hrule
    exact h.set hst rfl rfl fun n j hlisted => absurd hlisted (hunnamed hrule n j)
  | accept hpc hid =>
    simp only [hpc, Pc.Orderly, HelloOrderly, hid] at hrule
    refine h.set hst rfl rfl fun n j hlisted => ?_
    rcases hrule.2 with hname | hsame
    · exact absurd hlisted (hunnamed hname n j)
    · exact ⟨hsame.symm.trans hlisted.1, hlisted.2.1, rfl⟩
  | register =>
    intro n j hn
    have hn : (s.broker.register st.name).get n = some j := hn
    rw [Broker.get, Broker.register, Table.get_set] at hn
    split at hn
    · next hnm =>
      obtain rfl := Option.some.inj hn
      exact .here hst rfl ⟨hnm.symm, rfl, rfl⟩
    · next hnm => exact (h n j hn).set hst rfl fun hlisted => absurd hlisted.1.symm hnm
  | @unregister out k _ hk =>
    intro n j hget
    have hn : (s.broker.unregister st.name k).get n = some j := hget
    have hold : s.broker.get n = some j ∧ ¬ (n = st.name ∧ j = k) := by
      rw [Broker.unregister] at hn
      split at hn
      · rw [Broker.get, Table.get_del] at hn
        split at hn
        · cases hn
        · next hnm => exact ⟨hn, fun hnk => hnm hnk.1⟩
      · next hcur =>
        refine ⟨hn, ?_⟩
        rintro ⟨rfl, rfl⟩
        exact hcur hn
    refine (h n j hold.1).set hst rfl fun hlisted => absurd ⟨hlisted.1.symm, ?_⟩ hold.2
    exact Option.some.inj (hlisted.2.1.symm.trans hk)
  | close =>
    refine h.set hst rfl rfl fun n j hlisted => ⟨hlisted.1, hlisted.2.1, ?_⟩
    simp [Stream.leave, hlisted.2.1, Pc.listed]
  | failAll hpc =>
    exact h.set hst rfl rfl fun n j hlisted => absurd hlisted.2.2 (by simp [hpc, Pc.listed])
  -- every other access leaves the broker's table, and the stream its name and session
  | openReg | setMeta | metricTs | noStores | logTs | noLogs | sendAck | update | storeBatch
    | storeLogBatch | deliver | drop | put =>
    exact h.set hst rfl rfl fun n j hlisted => ⟨hlisted.1, hlisted.2.1, rfl⟩

theorem listed_step {a : ServerAct Op Res} (h : AllListed s) (hnamed : Named s)
    (hrule : a.Orderly hash s) (hstep : s.step hash a = some t) : AllListed t := by
  cases a with
  | connect token enroll ip blocked =>
    simp only [State.step] at hstep
    split at hstep
    · exact Option.some.inj hstep ▸ h
    · obtain rfl := Option.some.inj hstep
      exact fun n j hn => (h n j hn).append rfl
  | recv i m =>
    obtain ⟨st, hst, hpc, rfl⟩ := State.step_recv hstep
    obtain ⟨pc, hrecv, hserving⟩ := Stream.recv_spec hpc s.hasStores s.hasLogs m
    exact h.set hst rfl rfl fun n j hlisted =>
      hrecv ▸ ⟨hlisted.1, hlisted.2.1, Pc.listed_of_serving hserving⟩
  | recvErr i eof =>
    obtain ⟨st, hst, hpc, rfl⟩ := State.step_recvErr hstep
    refine h.set hst rfl rfl fun n j hlisted => ?_
    unfold Stream.recvErr
    split
    · exact ⟨hlisted.1, hlisted.2.1, rfl⟩
    · exact ⟨hlisted.1, hlisted.2.1, by simp [Stream.leave, hlisted.2.1, Pc.listed]⟩
  | handle i c =>
    obtain ⟨st, hst, hhandle⟩ := State.step_handle hstep
    exact listed_handle h hnamed hst hrule hhandle
  | session j a =>
    obtain ⟨-, ses, ses', k, st, -, -, -, hst, rfl⟩ := State.step_session hstep
    exact h.set hst rfl rfl fun n j hlisted => hlisted
  | tick d => exact Option.some.inj hstep ▸ h
  | evict cutoff => exact Option.some.inj hstep ▸ h
  | reload auth => exact Option.some.inj hstep ▸ h

/-! #### The sessions -/

/-- A session has been failed, or its stream is still to fail it, or it was replaced
with nothing pending. -/
def Attended (j : Nat) (ses : Session Op Res) (x : Stream Op Res) : Prop :=
  ses.failed = true ∨ (x.sess = some j ∧ x.pc.isReturned = false) ∨
    (x.sess ≠ some j ∧ ∀ id, ses.pending.get id = none)

/-- Session `j` is in order and attended by the stream it sends on. -/
structure Minded (s : State Op Res) (j : Nat) (ses : Session Op Res) : Prop where
  inv : ses.Inv
  drained : ses.Drained
  attended : ∃ k x, s.sendsOn[j]? = some k ∧ s.streams[k]? = some x ∧ Attended j ses x

structure AllMinded (s : State Op Res) : Prop where
  aligned : s.sendsOn.length = s.broker.all.length
  owned : ∀ (k : Nat) (x : Stream Op Res), s.streams[k]? = some x →
    ∀ n j, (n, j) ∈ x.registered → s.sendsOn[j]? = some k
  minded : ∀ (j : Nat) (ses : Session Op Res), s.broker.all[j]? = some ses → Minded s j ses

/-- A stream moves on; the sessions stay. -/
theorem AllMinded.set (h : AllMinded s) (hst : s.streams[i]? = some st)
    (ht : t.streams = s.streams.set i st') (hall : t.broker.all = s.broker.all)
    (hsends : t.sendsOn = s.sendsOn) (hregistered : st'.registered = st.registered)
    (hown : ∀ j ses, s.broker.all[j]? = some ses → Attended j ses st → Attended j ses st') :
    AllMinded t := by
  refine ⟨by rw [hsends, hall, h.aligned], ?_, ?_⟩
  · intro k x hk n j hmem
    rw [State.getElem?_of_set hst ht] at hk
    rw [hsends]
    split at hk
    · next hki =>
      obtain rfl := Option.some.inj hk
      exact hki ▸ h.owned i st hst n j (hregistered ▸ hmem)
    · exact h.owned k x hk n j hmem
  · intro j ses hj
    obtain ⟨hinv, hdrained, k, x, hk, hx, hatt⟩ := h.minded j ses (hall ▸ hj)
    refine ⟨hinv, hdrained, k, ?_⟩
    by_cases hki : k = i
    · subst hki
      obtain rfl := Option.some.inj (hst.symm.trans hx)
      exact ⟨st', hsends ▸ hk, by rw [State.getElem?_of_set hst ht, if_pos rfl],
        hown j ses (hall ▸ hj) hatt⟩
    · exact ⟨x, hsends ▸ hk, by rw [State.getElem?_of_set hst ht, if_neg hki, hx], hatt⟩

/-- A session moves, by a step that keeps to the rule. -/
theorem AllMinded.setSession (h : AllMinded s) {j : Nat} {ses ses' : Session Op Res}
    (hj : s.broker.all[j]? = some ses) {a : SessionAct Op Res} (hlate : a.NotLate ses)
    (hstep : ses.step a = some ses')
    (hdispatch : a.isDispatch = true → ∀ k x, s.sendsOn[j]? = some k → s.streams[k]? = some x →
      x.sess = some j) : AllMinded (s.setSession j ses') := by
  refine ⟨by simpa [State.setSession] using h.aligned, h.owned, ?_⟩
  intro l u hl
  have hlt := (List.getElem?_eq_some_iff.mp hj).1
  by_cases hlj : l = j
  · subst hlj
    obtain rfl : ses' = u := by simpa [hlt] using hl
    obtain ⟨hinv, hdrained, k, x, hk, hx, hatt⟩ := h.minded l ses hj
    refine ⟨Session.inv_step hinv a hstep, Session.drained_step hinv hdrained hlate hstep, k, x, hk, hx, ?_⟩
    rcases hatt with hfailed | hcurrent | ⟨hreplaced, hnone⟩
    · exact .inl (Session.failed_step hinv hstep hfailed)
    · exact .inr (.inl hcurrent)
    · refine .inr (.inr ⟨hreplaced, fun id => ?_⟩)
      have hsome := Session.pending_step hinv hstep id
      cases hget : ses'.pending.get id with
      | none => rfl
      | some d =>
        rw [hget] at hsome
        rcases hsome.mp rfl with ⟨ha, -⟩ | ⟨hold, -⟩
        · exact absurd (hdispatch ha k x hk hx) hreplaced
        · rw [hnone id] at hold
          cases hold
  · have hl' : s.broker.all[l]? = some u := by
      rwa [State.setSession_all, List.getElem?_set_ne (fun hjl => hlj hjl.symm)] at hl
    obtain ⟨hinv, hdrained, k, x, hk, hx, hatt⟩ := h.minded l u hl'
    exact ⟨hinv, hdrained, k, x, hk, hx, hatt⟩

theorem attended_leave {j : Nat} {ses : Session Op Res} (h : Attended j ses st) (out : Ended) :
    Attended j ses (st.leave out) := by
  rcases h with hfailed | ⟨hsess, -⟩ | hreplaced
  · exact .inl hfailed
  · exact .inr (.inl ⟨hsess, by simp [Stream.leave, hsess, Pc.isReturned]⟩)
  · exact .inr (.inr hreplaced)

theorem attended_pc {j : Nat} {ses : Session Op Res} (h : Attended j ses st) {pc : Pc Res}
    (hpc : pc.isReturned = false) : Attended j ses { st with pc := pc } :=
  h.imp_right fun hc => hc.imp_left fun hc => ⟨hc.1, hpc⟩

/-- A new session is attended by its stream, and the one it replaces has nothing outstanding. -/
theorem AllMinded.register (h : AllMinded s) (hst : s.streams[i]? = some st)
    (hreplace : RegisterOrderly s st) (ack : HelloAck) :
    AllMinded ({ s with
      broker := s.broker.register st.name, sendsOn := s.sendsOn ++ [i] }.setStream i
      { st with
        sess := some s.broker.all.length
        pc := .metricTs ack
        registered := (st.name, s.broker.all.length) :: st.registered }) := by
  have hnew : (s.sendsOn ++ [i])[s.broker.all.length]? = some i := by
    rw [← h.aligned]
    exact List.getElem?_concat_length
  have hstreams := State.getElem?_of_set (s := s) hst (t := { s with
    broker := s.broker.register st.name, sendsOn := s.sendsOn ++ [i] }.setStream i
    { st with
      sess := some s.broker.all.length
      pc := .metricTs ack
      registered := (st.name, s.broker.all.length) :: st.registered }) rfl
  refine ⟨by simp [Broker.register, h.aligned], ?_, ?_⟩
  · intro k x hk n j hmem
    rw [hstreams] at hk
    split at hk
    · next hki =>
      subst hki
      obtain rfl := Option.some.inj hk
      rcases List.mem_cons.mp hmem with hhead | htail
      · obtain ⟨-, rfl⟩ := Prod.mk.inj hhead
        exact hnew
      · exact Growing.keep (h.owned k st hst n j htail)
    · exact Growing.keep (h.owned k x hk n j hmem)
  · intro j ses hget
    rcases Growing.old_or_new (show (s.broker.all ++ [({} : Session Op Res)])[j]? = some ses from hget)
      with hj | ⟨rfl, rfl⟩
    · have hlt := (List.getElem?_eq_some_iff.mp hj).1
      obtain ⟨hinv, hdrained, k, x, hk, hx, hatt⟩ := h.minded j ses hj
      refine ⟨hinv, hdrained, k, ?_⟩
      by_cases hki : k = i
      · subst hki
        obtain rfl := Option.some.inj (hst.symm.trans hx)
        refine ⟨_, Growing.keep hk, by rw [hstreams, if_pos rfl], ?_⟩
        have hne : (some s.broker.all.length : Option Nat) ≠ some j := by simp; omega
        rcases hatt with hfailed | ⟨hcurrent, -⟩ | ⟨-, hnone⟩
        · exact .inl hfailed
        · exact .inr (.inr ⟨hne, fun id => by rw [hreplace j hcurrent ses hj, Table.get_empty]⟩)
        · exact .inr (.inr ⟨hne, hnone⟩)
      · exact ⟨x, Growing.keep hk, by rw [hstreams, if_neg hki, hx], hatt⟩
    · exact ⟨Session.inv_init, (fun hf => by cases hf), i, _, hnew, by rw [hstreams, if_pos rfl],
        .inr (.inl ⟨rfl, rfl⟩)⟩

theorem minded_handle (h : AllMinded s) (hst : s.streams[i]? = some st)
    (hrule : (ServerAct.handle i c).Orderly hash s) (hh : s.handle hash i st c = some t) :
    AllMinded t := by
  cases State.handles_of_handle hh with
  | refuse | close => exact h.set hst rfl rfl rfl rfl fun j ses _ hatt => attended_leave hatt _
  | register hpc =>
    have hreplace : st.pc.Orderly hash s st c := hrule st hst
    simp only [hpc, Pc.Orderly] at hreplace
    exact h.register hst hreplace _
  | @deliver r _ _ _ _ hses =>
    have hmoved := h.setSession hses (a := .deliver r) trivial rfl fun hd => by cases hd
    exact hmoved.set hst rfl rfl rfl rfl fun j ses _ hatt => attended_pc hatt rfl
  | put _ _ hses hput =>
    have hmoved := h.setSession hses (a := .put 0) trivial hput fun hd => by cases hd
    exact hmoved.set hst rfl rfl rfl rfl fun j ses _ hatt => attended_pc hatt rfl
  | @unregister out k =>
    have hall : (s.broker.unregister st.name k).all = s.broker.all := by
      unfold Broker.unregister
      split <;> rfl
    exact h.set hst rfl hall rfl rfl fun j ses _ hatt => attended_pc hatt rfl
  | @failAll out k ses _ hk hses =>
    have hmoved := h.setSession hses (a := .failAll) trivial rfl fun hd => by cases hd
    refine hmoved.set hst rfl rfl rfl rfl fun j u hu hatt => ?_
    rcases hatt with hfailed | ⟨hcurrent, -⟩ | hreplaced
    · exact .inl hfailed
    · obtain rfl : k = j := Option.some.inj (hk.symm.trans hcurrent)
      have hlt := (List.getElem?_eq_some_iff.mp hses).1
      obtain rfl : ses.failAll = u := by simpa [hlt] using hu
      exact .inl rfl
    · exact .inr (.inr hreplaced)
  -- every other access leaves the sessions, and the stream its own
  | accept | openReg | setMeta | metricTs | noStores | logTs | noLogs | sendAck | update | storeBatch
    | storeLogBatch | drop =>
    exact h.set hst rfl rfl rfl rfl fun j ses _ hatt =>
      hatt.imp_right fun hc => hc.imp_left fun hc => ⟨hc.1, rfl⟩

theorem minded_step {a : ServerAct Op Res} (h : AllMinded s) (hrule : a.Orderly hash s)
    (hstep : s.step hash a = some t) : AllMinded t := by
  cases a with
  | connect token enroll ip blocked =>
    simp only [State.step] at hstep
    split at hstep
    · exact Option.some.inj hstep ▸ h
    · obtain rfl := Option.some.inj hstep
      refine ⟨h.aligned, ?_, ?_⟩
      · intro k x hk n j hmem
        rcases Growing.old_or_new hk with hold | ⟨-, rfl⟩
        · exact h.owned k x hold n j hmem
        · cases hmem
      · intro j ses hj
        obtain ⟨hinv, hdrained, k, x, hk, hx, hatt⟩ := h.minded j ses hj
        exact ⟨hinv, hdrained, k, x, hk, Growing.keep hx, hatt⟩
  | recv i m =>
    obtain ⟨st, hst, hpc, rfl⟩ := State.step_recv hstep
    obtain ⟨pc, hrecv, hserving⟩ := Stream.recv_spec hpc s.hasStores s.hasLogs m
    rw [hrecv]
    exact h.set hst rfl rfl rfl rfl fun j ses _ hatt =>
      attended_pc hatt (Pc.not_returned_of_serving hserving)
  | recvErr i eof =>
    obtain ⟨st, hst, hpc, rfl⟩ := State.step_recvErr hstep
    unfold Stream.recvErr
    split
    · exact h.set hst rfl rfl rfl rfl fun j ses _ hatt => attended_pc hatt rfl
    · exact h.set hst rfl rfl rfl rfl fun j ses _ hatt => attended_leave hatt _
  | handle i c =>
    obtain ⟨st, hst, hhandle⟩ := State.step_handle hstep
    exact minded_handle h hst hrule hhandle
  | session j a =>
    obtain ⟨hby, ses, ses', k, st, hj, hk, hses', hst, rfl⟩ := State.step_session hstep
    have hlate : a.NotLate ses := by
      cases a with
      | dispatch op => trivial
      | _ => exact hrule ses hj
    have hmoved := h.setSession hj hlate hses' (by
      intro hd l x hl hx
      cases a with
      | dispatch op => exact hrule l hl x hx
      | _ => cases hd)
    exact hmoved.set hst rfl rfl rfl rfl fun j ses _ hatt => hatt
  | tick d =>
    obtain rfl := Option.some.inj hstep
    exact ⟨h.aligned, h.owned, fun j ses hj => ⟨(h.minded j ses hj).1, (h.minded j ses hj).2, (h.minded j ses hj).3⟩⟩
  | evict cutoff =>
    obtain rfl := Option.some.inj hstep
    exact ⟨h.aligned, h.owned, fun j ses hj => ⟨(h.minded j ses hj).1, (h.minded j ses hj).2, (h.minded j ses hj).3⟩⟩
  | reload auth =>
    obtain rfl := Option.some.inj hstep
    exact ⟨h.aligned, h.owned, fun j ses hj => ⟨(h.minded j ses hj).1, (h.minded j ses hj).2, (h.minded j ses hj).3⟩⟩

/-! ### Along a run -/

structure Kept (s : State Op Res) : Prop where
  named : Named s
  opened : Opened s
  listed : AllListed s
  minded : AllMinded s

theorem kept_init (h₀ : (serverSystem hash Op Res).init s) : Kept s := by
  obtain ⟨hreg, hbroker, hsends, hstreams⟩ := h₀
  constructor
  · exact fun i st hi => by simp [hstreams] at hi
  · intro n e hn
    simp [hreg] at hn
  · intro n j hn
    simp [hbroker, Broker.get] at hn
  · exact ⟨by simp [hbroker, hsends], fun k x hk => by simp [hstreams] at hk,
      fun j ses hj => by simp [hbroker] at hj⟩

theorem kept_step {a : ServerAct Op Res} (h : Kept s) (hrule : a.Orderly hash s)
    (hstep : s.step hash a = some t) : Kept t :=
  ⟨named_step h.named hrule hstep, opened_step h.opened h.named hrule hstep,
    listed_step h.listed h.named hrule hstep, minded_step h.minded hrule hstep⟩

/-- Nothing of the stream is left: no name it opened is marked open, no session it
registered is in the broker, and no dispatch waits on one. -/
structure TornDown (s : State Op Res) (st : Stream Op Res) : Prop where
  closed : ∀ n ∈ st.opened, ∀ e, s.reg.agents.get n = some e → e.streamOpen = false
  unregistered : ∀ n j, (n, j) ∈ st.registered → ∀ m, s.broker.get m ≠ some j
  completed : ∀ n j, (n, j) ∈ st.registered → ∀ ses, s.broker.all[j]? = some ses → ∀ d, ¬ ses.Blocked d

theorem attended_returned {j : Nat} {ses : Session Op Res} (h : Minded s j ses)
    (hreturned : ∀ (k : Nat) (x : Stream Op Res), s.sendsOn[j]? = some k → s.streams[k]? = some x →
      x.pc.isReturned = true) (d : Nat) : ¬ ses.Blocked d := by
  obtain ⟨hinv, hdrained, k, x, hk, hx, hatt⟩ := h
  rcases hatt with hfailed | ⟨-, hserving⟩ | ⟨-, hnone⟩
  · exact Session.not_blocked hinv hdrained hfailed d
  · rw [hreturned k x hk hx] at hserving
    cases hserving
  · exact Session.not_blocked_of_pending hinv (hnone _)

/-- **Teardown.** In every run that keeps to `Orderly`, of any number of streams with any
messages and any ends: once they have all returned, nothing of any of them is left. -/
theorem teardown_complete {s₀ : State Op Res} {as : List (ServerAct Op Res)}
    (h₀ : (serverSystem hash Op Res).init s₀) (hrun : (serverSystem hash Op Res).run s₀ as = some s)
    (hrule : (serverSystem hash Op Res).Along (fun s a => a.Orderly hash s) s₀ as)
    (hreturned : ∀ (k : Nat) (x : Stream Op Res), s.streams[k]? = some x → x.pc.isReturned = true) :
    ∀ (i : Nat) (st : Stream Op Res), s.streams[i]? = some st → TornDown s st := by
  have hkept : Kept s := (serverSystem hash Op Res).along_invariant
    (fun s a t hC h hstep => kept_step h hC hstep) (kept_init h₀) hrun hrule
  have hnobody : ∀ P : Stream Op Res → Prop, (∀ x, P x → x.pc.isReturned = false) → ¬ Somewhere P s := by
    rintro P hP ⟨k, x, hk, hx⟩
    have := hreturned k x hk
    rw [hP x hx] at this
    cases this
  intro i st _
  constructor
  case closed =>
    intro n _ e hn
    by_contra hopen
    refine hnobody _ ?_ (hkept.opened n e hn (by simpa using hopen)).2
    exact fun x hx => Pc.not_returned_of_serving hx.2
  case unregistered =>
    intro n j _ m hm
    refine hnobody _ ?_ (hkept.listed m j hm)
    intro x hx
    cases hpc : x.pc <;> first | rfl | exact absurd hx.2.2 (by simp [hpc, Pc.listed])
  case completed =>
    intro n j _ ses hses
    exact attended_returned (hkept.minded.minded j ses hses) fun k x _ hx => hreturned k x hx

end

/-- A server that knows the enroll token `e` and no agent. -/
def freshServer : State Nat Nat := { auth := { enrollTokenHash := "#e" } }

/-- One stream enrolls, is served, and ends. -/
def servedRun (last : List (ServerAct Nat Nat)) : List (ServerAct Nat Nat) :=
  [.connect "" "e" "10.0.0.1" false, .recv 0 (.hello { agentName := "web" }),
    .handle 0 { fresh := some "t" }, .handle 0 {}, .handle 0 {}, .handle 0 {}, .handle 0 {}, .handle 0 {},
    .handle 0 {}] ++ last

theorem teardown_complete_eof :
    ∃ s, (serverSystem ("#" ++ ·) Nat Nat).run freshServer
        (servedRun [.recvErr 0 true, .handle 0 {}, .handle 0 {}, .handle 0 {}]) = some s ∧
      ∀ (i : Nat) (st : Stream Nat Nat), s.streams[i]? = some st → TornDown s st := by
  have hinit : (serverSystem ("#" ++ ·) Nat Nat).init freshServer := ⟨rfl, rfl, rfl, rfl⟩
  have hrule : (serverSystem ("#" ++ ·) Nat Nat).Along (fun s a => a.Orderly ("#" ++ ·) s) freshServer
      (servedRun [.recvErr 0 true, .handle 0 {}, .handle 0 {}, .handle 0 {}]) := by decide
  have hends : ((serverSystem ("#" ++ ·) Nat Nat).run freshServer
      (servedRun [.recvErr 0 true, .handle 0 {}, .handle 0 {}, .handle 0 {}])).map
        (fun s => s.streams.map fun x => x.pc.isReturned) = some [true] := rfl
  obtain ⟨s, hs, hreturned⟩ := Option.map_eq_some_iff.mp hends
  refine ⟨s, hs, teardown_complete hinit hs hrule fun k x hk => ?_⟩
  have hmem := List.mem_map_of_mem (f := fun x => x.pc.isReturned) (List.mem_of_getElem? hk)
  rw [hreturned] at hmem
  exact List.mem_singleton.mp hmem

/-- The second `Hello` is refused: the handler returns without closing the name. -/
theorem refused_hello_leaves_open :
    ∃ s st, (serverSystem ("#" ++ ·) Nat Nat).run freshServer
        (servedRun [.recv 0 (.hello {agentName := ""}), .handle 0 {}, .handle 0 {}, .handle 0 {}]) = some s ∧
      s.streams = [st] ∧ st.pc.isReturned = true ∧ ¬ TornDown s st := by
  refine ⟨_, _, rfl, rfl, rfl, fun h => ?_⟩
  exact absurd (h.closed "web" (by decide) _ rfl) (by decide)

end Marshal.Server
