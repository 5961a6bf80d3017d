import Marshal.Fleet.Client
import Marshal.Server.Identity

/-! What the agent receives first.

`Connect` registers the session before it sends the acknowledgement, and the agent
takes its first message for the acknowledgement. `AfterAck` is the rule that no
command is sent in between; it is exactly what the agent needs. -/
namespace Marshal.Server
open Proto Fleet

variable {Op Res : Type} {hash : String → String} {s t : State Op Res} {i : Nat} {st : Stream Op Res}
  {c : Choice}

/-- However much of its stream an agent has received, it has understood it. -/
def AckFirst (s : State Op Res) : Prop :=
  ∀ (i : Nat) (st : Stream Op Res), s.streams[i]? = some st → ∀ p, p <+: st.down →
    ∀ (cl : Client) (persisted : Bool), Understood cl persisted (cl.recvAll persisted p)

/-- A dispatch sends on a stream that has been sent something before. -/
def AfterAck (s : State Op Res) : ServerAct Op Res → Prop
  | .session j (.send _ true) => ∀ k ∈ s.sendsOn[j]?, ∀ st ∈ s.streams[k]?, st.down.isEmpty = false
  | _ => True

instance (s : State Op Res) : (a : ServerAct Op Res) → Decidable (AfterAck s a)
  | .session j (.send _ true) => inferInstanceAs (Decidable
      (∀ k ∈ s.sendsOn[j]?, ∀ st ∈ s.streams[k]?, st.down.isEmpty = false))
  | .session _ (.dispatch _) | .session _ (.send _ false) | .session _ (.take _) | .session _ (.expire _) |
    .session _ (.remove _) | .session _ (.deliver _) | .session _ (.put _) | .session _ .failAll => isTrue trivial
  | .connect .. | .recv .. | .recvErr .. | .handle .. | .tick _ | .evict _ | .reload _ => isTrue trivial

/-! ### The invariant -/

/-- What is sent down a stream begins with an acknowledgement. -/
def Opens (ms : List (ServerMessage Op)) : Prop := ∀ m ∈ ms.head?, ∃ ack, m = .helloAck ack

theorem Opens.append {ms : List (ServerMessage Op)} (h : Opens ms) (new : List (ServerMessage Op))
    (hnew : ms = [] → Opens new) : Opens (ms ++ new) := by
  cases ms with
  | nil => exact hnew rfl
  | cons m rest => exact h

/-- Every stream begins with an acknowledgement. -/
def Acked (s : State Op Res) : Prop :=
  ∀ (i : Nat) (st : Stream Op Res), s.streams[i]? = some st → Opens st.down

theorem Acked.ackFirst (h : Acked s) : AckFirst s := by
  intro i st hst p hp cl persisted
  cases p with
  | nil => exact ⟨fun m hm => (by cases hm), rfl⟩
  | cons m rest =>
    obtain ⟨more, hmore⟩ := hp
    obtain ⟨ack, rfl⟩ := h i st hst m (by rw [← hmore]; rfl)
    exact understood_recvAll cl persisted ack rest

theorem Acked.set {st' : Stream Op Res} (h : Acked s) (hst : s.streams[i]? = some st)
    (ht : t.streams = s.streams.set i st') (hopens : Opens st'.down) : Acked t := by
  intro k x hk
  rw [State.getElem?_of_set hst ht] at hk
  split at hk
  · obtain rfl := Option.some.inj hk
    exact hopens
  · exact h k x hk

/-- A handler sends nothing but acknowledgements. -/
theorem handle_down (hh : s.handle hash i st c = some t) :
    ∃ st', t.streams = s.streams.set i st' ∧
      (st'.down = st.down ∨ ∃ ack, st'.down = st.down ++ [.helloAck ack]) := by
  cases State.handles_of_handle hh with
  | @sendAck ack =>
    refine ⟨_, rfl, ?_⟩
    cases c.sent
    · exact .inl rfl
    · exact .inr ⟨ack, rfl⟩
  | _ => exact ⟨_, rfl, .inl rfl⟩

theorem acked_step {a : ServerAct Op Res} (h : Acked s) (hrule : AfterAck s a)
    (hstep : s.step hash a = some t) : Acked t := by
  cases a with
  | connect token enroll ip blocked =>
    simp only [State.step] at hstep
    split at hstep
    · exact Option.some.inj hstep ▸ h
    · obtain rfl := Option.some.inj hstep
      intro k x hk
      rcases Growing.old_or_new hk with hold | ⟨-, rfl⟩
      · exact h k x hold
      · exact fun m hm => by cases hm
  | recv i m =>
    obtain ⟨st, hst, hpc, rfl⟩ := State.step_recv hstep
    obtain ⟨pc, hrecv, -⟩ := Stream.recv_spec hpc s.hasStores s.hasLogs m
    rw [hrecv]
    exact h.set hst rfl (h i st hst)
  | recvErr i eof =>
    obtain ⟨st, hst, -, rfl⟩ := State.step_recvErr hstep
    refine h.set hst rfl ?_
    unfold Stream.recvErr
    split <;> exact h i st hst
  | handle i c =>
    obtain ⟨st, hst, hhandle⟩ := State.step_handle hstep
    obtain ⟨st', hst', hdown | ⟨ack, hdown⟩⟩ := handle_down hhandle
    · exact h.set hst hst' (hdown ▸ h i st hst)
    · refine h.set hst hst' (hdown ▸ (h i st hst).append _ fun _ m hm => ⟨ack, ?_⟩)
      exact (Option.mem_some_iff.mp hm).symm
  | session j a =>
    obtain ⟨-, ses, ses', k, st, hj, hk, hses', hst, rfl⟩ := State.step_session hstep
    refine h.set hst rfl ((h k st hst).append _ fun hempty => ?_)
    -- an empty stream is sent a command by a successful send only
    cases a with
    | send d ok =>
      cases ok with
      | true =>
        have hsent : st.down.isEmpty = false := hrule k hk st hst
        simp [hempty] at hsent
      | false => exact fun m hm => by cases hm
    | _ => exact fun m hm => by cases hm
  | tick d => exact Option.some.inj hstep ▸ h
  | evict cutoff => exact Option.some.inj hstep ▸ h
  | reload auth => exact Option.some.inj hstep ▸ h

/-- A command sent on a stream that was sent nothing yet is the agent's first message. -/
theorem early_send_breaks {a : ServerAct Op Res} (hrule : ¬ AfterAck s a)
    (hstep : s.step hash a = some t) : ¬ AckFirst t := by
  cases a with
  | session j a =>
    obtain ⟨-, ses, ses', k, st, hj, hk, hses', hst, rfl⟩ := State.step_session hstep
    cases a with
    | send d ok =>
      cases ok with
      | false => exact absurd trivial hrule
      | true =>
        obtain ⟨x, hx, -, -⟩ := Session.step_send hses'
        have hempty : st.down = [] := by
          by_contra hne
          refine hrule fun k' hk' st' hst' => ?_
          obtain rfl := Option.some.inj (hk.symm.trans hk')
          obtain rfl := Option.some.inj (hst.symm.trans hst')
          simpa using hne
        intro hfirst
        have hcmd : st.down ++ ses.sends (.send d true) = [.command ⟨x.id, x.op⟩] := by
          simp [hempty, Session.sends, hx]
        have hlist := hfirst k { st with down := st.down ++ ses.sends (.send d true) }
          (by rw [State.getElem?_of_set (i := k) hst rfl, if_pos rfl])
        rw [hcmd] at hlist
        exact not_understood_recvAll { name := "" } true _ (hlist _ (List.prefix_refl _) _ _)
    | _ => exact absurd trivial hrule
  | _ => exact absurd trivial hrule

/-- **The acknowledgement comes first.** In every state of a run every agent has
understood what it received — its first message was the acknowledgement, which seeded
its watermarks and its token, and it handled every command — if and only if every
command in the run was sent on a stream that had been sent something before. -/
theorem ack_first_iff {s₀ : State Op Res} {as : List (ServerAct Op Res)}
    (h₀ : (serverSystem hash Op Res).init s₀) (hrun : (serverSystem hash Op Res).run s₀ as = some s) :
    (∀ before after u, as = before ++ after → (serverSystem hash Op Res).run s₀ before = some u →
      AckFirst u) ↔ (serverSystem hash Op Res).Along AfterAck s₀ as := by
  have hinit : Acked s₀ := fun k x hk => by simp [h₀.2.2.2] at hk
  exact (serverSystem hash Op Res).along_iff (fun s h => Acked.ackFirst h)
    (fun s a t hC h hstep => acked_step h hC hstep) (fun s a t hC _ hstep => early_send_breaks hC hstep)
    hinit hrun

/-- `db` says `Hello`, is acknowledged, and is then sent a command. -/
def commandedRun : List (ServerAct Nat Nat) :=
  [.connect "t" "" "10.0.0.1" false, .recv 0 (.hello { agentName := "db" })] ++
    List.replicate 7 (.handle 0 {}) ++ [.session 0 (.dispatch 7), .session 0 (.send 0 true)]

theorem ack_first_commanded :
    ∃ s, (serverSystem ("#" ++ ·) Nat Nat).run oneAgent commandedRun = some s ∧ AckFirst s := by
  have hinit : (serverSystem ("#" ++ ·) Nat Nat).init oneAgent := ⟨rfl, rfl, rfl, rfl⟩
  have hends : ((serverSystem ("#" ++ ·) Nat Nat).run oneAgent commandedRun).isSome := rfl
  obtain ⟨s, hs⟩ := Option.isSome_iff_exists.mp hends
  exact ⟨s, hs, (ack_first_iff hinit hs).mpr (by decide) commandedRun [] s (by simp) hs⟩

/-- A command sent between `register` and the acknowledgement is lost, with the
watermarks of the acknowledgement behind it. -/
theorem early_command_lost :
    ∃ s st, (serverSystem ("#" ++ ·) Nat Nat).run
        { oneAgent with data := { metrics := { files := Table.set ∅ "db" ⟨[⟨5, "web#0", 0, 0⟩]⟩ } } }
        ([.connect "t" "" "10.0.0.1" false, .recv 0 (.hello { agentName := "db" })] ++
          List.replicate 4 (.handle 0 {}) ++ [.session 0 (.dispatch 7), .session 0 (.send 0 true)] ++
          List.replicate 3 (.handle 0 {})) = some s ∧
      s.streams = [st] ∧ st.down = [.command ⟨1, 7⟩, .helloAck { lastMetricTsMs := 5 }] ∧
      (∀ (cl : Client) persisted, (cl.recvAll persisted st.down).2.watermark = 0 ∧
        (cl.recvAll persisted st.down).2.handled = []) ∧ ¬ AckFirst s := by
  refine ⟨_, _, rfl, rfl, rfl, fun cl persisted => ⟨rfl, rfl⟩, fun hfirst => ?_⟩
  exact not_understood_recvAll { name := "" } true ⟨1, 7⟩ (hfirst 0 _ rfl _ ⟨[_], rfl⟩ _ _)

end Marshal.Server
