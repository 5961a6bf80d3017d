import Marshal.Server.Teardown

/-! When a live agent is shown connected.

The registry's open flag is per name, and `Close` clears it whichever stream asks.
`ClosesAlone` is the rule that a name is closed only when no other live stream
serves it; it is exactly what the connected flag needs. -/
namespace Marshal.Server
open Proto

variable {Op Res : Type} {hash : String → String}

section
variable {s t : State Op Res} {i : Nat} {st : Stream Op Res} {c : Choice}

/-- The stream serves `n`, opened and not torn down, and was heard within `offlineAfter`. -/
def Live (s : State Op Res) (n : String) (x : Stream Op Res) : Prop :=
  x.pc.serving = true ∧ ∃ tm, x.heard = some (n, tm) ∧ s.now - tm ≤ s.reg.offlineAfter

instance (s : State Op Res) (n : String) (x : Stream Op Res) : Decidable (Live s n x) :=
  match hheard : x.heard with
  | none => isFalse fun h => by
    obtain ⟨-, _, hsome, -⟩ := h
    simp [hheard] at hsome
  | some (m, tm) =>
    decidable_of_iff (x.pc.serving = true ∧ m = n ∧ s.now - tm ≤ s.reg.offlineAfter) (by
      constructor
      · rintro ⟨hserving, rfl, hfresh⟩
        exact ⟨hserving, tm, hheard, hfresh⟩
      · rintro ⟨hserving, tm', h, hfresh⟩
        rw [hheard] at h
        cases h
        exact ⟨hserving, rfl, hfresh⟩)

/-- Every agent with a live stream is reported connected. -/
def ShownConnected (s : State Op Res) : Prop :=
  ∀ (k : Nat) (x : Stream Op Res) (n : String), s.streams[k]? = some x → Live s n x →
    ∃ a ∈ s.reg.list s.now, a.agentName = n ∧ a.connected = true

/-- A handler about to close its name finds no other live stream of that name. -/
def ServerAct.ClosesAlone (s : State Op Res) : ServerAct Op Res → Prop
  | .handle i _ => ∀ st ∈ s.streams[i]?, (st.pc matches .close _) = true →
      ∀ k < s.streams.length, k ≠ i → ∀ x ∈ s.streams[k]?, ¬ Live s st.name x
  | _ => True

instance (s : State Op Res) : (a : ServerAct Op Res) → Decidable (a.ClosesAlone s)
  | .handle i _ => inferInstanceAs (Decidable (∀ st ∈ s.streams[i]?, (st.pc matches .close _) = true →
      ∀ k < s.streams.length, k ≠ i → ∀ x ∈ s.streams[k]?, ¬ Live s st.name x))
  | .connect .. | .recv .. | .recvErr .. | .session .. | .tick _ | .evict _ | .reload _ => isTrue trivial

/-! ### The invariant -/

/-- Whoever was heard was heard by now, and the entry of a live stream's name is open and
no staler than that stream. -/
structure Fresh (s : State Op Res) : Prop where
  seen : ∀ n e, s.reg.agents.get n = some e → e.streamOpen = true → e.lastSeen ≤ s.now
  heard : ∀ (k : Nat) (x : Stream Op Res) n tm, s.streams[k]? = some x → x.heard = some (n, tm) →
    tm ≤ s.now
  entry : ∀ (k : Nat) (x : Stream Op Res) n tm, s.streams[k]? = some x → x.pc.serving = true →
    x.heard = some (n, tm) → s.now - tm ≤ s.reg.offlineAfter →
      ∃ e, s.reg.agents.get n = some e ∧ e.streamOpen = true ∧ tm ≤ e.lastSeen

theorem Fresh.shown (h : Fresh s) : ShownConnected s := by
  rintro k x n hk ⟨hserving, tm, hheard, hfresh⟩
  obtain ⟨e, he, hopen, hlast⟩ := h.entry k x n tm hk hserving hheard hfresh
  refine (Registry.list_connected _ _ _).mpr ⟨e, he, ?_⟩
  have hseen := h.seen n e he hopen
  have hsub : timeSub s.now e.lastSeen ≤ s.reg.offlineAfter := by
    unfold timeSub
    omega
  simp [Registry.connected, hopen, hsub]

/-- A stream moves on without touching the registry or being heard. -/
theorem Fresh.set {st' : Stream Op Res} (h : Fresh s) (hst : s.streams[i]? = some st)
    (ht : t.streams = s.streams.set i st') (hreg : t.reg = s.reg) (hnow : t.now = s.now)
    (hheard : st'.heard = st.heard) (hserving : st'.pc.serving = true → st.pc.serving = true) :
    Fresh t := by
  have hback : ∀ (k : Nat) (x : Stream Op Res), t.streams[k]? = some x → ∃ y : Stream Op Res, s.streams[k]? = some y ∧ x.heard = y.heard ∧
      (x.pc.serving = true → y.pc.serving = true) := by
    intro k x hk
    rw [State.getElem?_of_set hst ht] at hk
    split at hk
    · next hki =>
      obtain rfl := Option.some.inj hk
      exact ⟨st, hki ▸ hst, hheard, hserving⟩
    · exact ⟨x, hk, rfl, id⟩
  constructor
  case seen => simpa only [hreg, hnow] using h.seen
  case heard =>
    intro k x n tm hk hx
    obtain ⟨y, hy, hxy, -⟩ := hback k x hk
    rw [hnow]
    exact h.heard k y n tm hy (hxy ▸ hx)
  case entry =>
    intro k x n tm hk hx hn hfresh
    obtain ⟨y, hy, hxy, hserves⟩ := hback k x hk
    rw [hreg] at hfresh ⊢
    rw [hnow] at hfresh
    exact h.entry k y n tm hy (hserves hx) (hxy ▸ hn) hfresh

/-- A stream is heard: its name's entry is marked open and seen now. -/
theorem Fresh.hear {st' : Stream Op Res} (h : Fresh s) (hst : s.streams[i]? = some st)
    (ht : t.streams = s.streams.set i st') {name : String} {e : AgentEntry}
    (hreg : t.reg = s.reg.setEntry name e) (hnow : t.now = s.now) (hopen : e.streamOpen = true)
    (hlast : e.lastSeen = s.now) (hheard : st'.heard = some (name, s.now)) : Fresh t := by
  have hget : ∀ n, t.reg.agents.get n = if n = name then some e else s.reg.agents.get n := by
    intro n
    rw [hreg, Registry.get_setEntry]
  have hoffline : t.reg.offlineAfter = s.reg.offlineAfter := by rw [hreg]; rfl
  have hback : ∀ (k : Nat) (x : Stream Op Res) n tm, t.streams[k]? = some x → x.heard = some (n, tm) →
      n = name ∧ tm = s.now ∨ s.streams[k]? = some x := by
    intro k x n tm hk hx
    rw [State.getElem?_of_set hst ht] at hk
    split at hk
    · obtain rfl := Option.some.inj hk
      rw [hheard] at hx
      cases hx
      exact .inl ⟨rfl, rfl⟩
    · exact .inr hk
  constructor
  case seen =>
    intro n e' hn hopen'
    rw [hget] at hn
    rw [hnow]
    split at hn
    · obtain rfl := Option.some.inj hn
      exact Int.le_of_eq hlast
    · exact h.seen n e' hn hopen'
  case heard =>
    intro k x n tm hk hx
    rw [hnow]
    rcases hback k x n tm hk hx with ⟨-, rfl⟩ | hold
    · exact Int.le_refl _
    · exact h.heard k x n tm hold hx
  case entry =>
    intro k x n tm hk hx hn hfresh
    rw [hget]
    by_cases hnm : n = name
    · refine ⟨e, if_pos hnm, hopen, ?_⟩
      rw [hlast]
      rcases hback k x n tm hk hn with ⟨-, rfl⟩ | hold
      · exact Int.le_refl _
      · exact h.heard k x n tm hold hn
    · rw [if_neg hnm]
      rcases hback k x n tm hk hn with ⟨hnm', -⟩ | hold
      · exact absurd hnm' hnm
      · exact h.entry k x n tm hold hx hn (by rwa [hoffline, hnow] at hfresh)

/-- The registry changes, but no entry that matters closes or grows stale. -/
theorem Fresh.retag (h : Fresh s) (ht : t.streams = s.streams) (hnow : t.now = s.now)
    (hoffline : t.reg.offlineAfter = s.reg.offlineAfter)
    (hback : ∀ n e, t.reg.agents.get n = some e → e.streamOpen = true →
      ∃ e', s.reg.agents.get n = some e' ∧ e'.streamOpen = true ∧ e'.lastSeen = e.lastSeen)
    (hkeep : ∀ n e, s.reg.agents.get n = some e → ∃ e', t.reg.agents.get n = some e' ∧
      e'.streamOpen = e.streamOpen ∧ e'.lastSeen = e.lastSeen) : Fresh t := by
  constructor
  case seen =>
    intro n e hn hopen
    obtain ⟨e', he', hopen', hlast⟩ := hback n e hn hopen
    rw [hnow, ← hlast]
    exact h.seen n e' he' hopen'
  case heard => simpa only [ht, hnow] using h.heard
  case entry =>
    intro k x n tm hk hserving hx hfresh
    rw [ht] at hk
    rw [hnow, hoffline] at hfresh
    obtain ⟨e, he, hopen, hlast⟩ := h.entry k x n tm hk hserving hx hfresh
    obtain ⟨e', he', hopen', hlast'⟩ := hkeep n e he
    exact ⟨e', he', hopen'.trans hopen, hlast' ▸ hlast⟩

theorem fresh_handle (h : Fresh s) (hst : s.streams[i]? = some st)
    (hrule : (ServerAct.handle i c).ClosesAlone s) (hh : s.handle hash i st c = some t) : Fresh t := by
  cases State.handles_of_handle hh with
  | openReg =>
    exact h.hear hst rfl (e := { s.reg.entry st.name with streamOpen := true, lastSeen := s.now })
      rfl rfl rfl rfl rfl
  | @update procs host =>
    exact h.hear hst rfl (e := { s.reg.entry st.name with
      procs := procs, host := host, streamOpen := true, lastSeen := s.now }) rfl rfl rfl rfl rfl
  | setMeta hpc =>
    have hcarry : ∀ m, Fresh { s with reg := s.reg.setMeta st.name m } := fun m =>
      h.retag rfl rfl rfl (fun n e hn hopen => Registry.get_setMeta_back hn hopen)
        fun n e hn => Registry.get_setMeta hn
    exact (hcarry _).set hst rfl rfl rfl rfl fun _ => by rw [hpc]; rfl
  | @close out hpc =>
    have hleave : (st.leave out).pc.serving = false := by
      unfold Stream.leave
      split <;> rfl
    have hback : ∀ (k : Nat) (x : Stream Op Res), (s.streams.set i (st.leave out))[k]? = some x →
        k = i ∧ x = st.leave out ∨ k ≠ i ∧ s.streams[k]? = some x := by
      intro k x hk
      rw [State.getElem?_of_set (t := { s with streams := s.streams.set i (st.leave out) }) hst rfl] at hk
      split at hk
      · next hki => exact .inl ⟨hki, (Option.some.inj hk).symm⟩
      · next hki => exact .inr ⟨hki, hk⟩
    constructor
    case seen =>
      intro n e hn hopen
      rw [State.setStream_reg, Registry.get_close] at hn
      split at hn
      · obtain ⟨e', -, rfl⟩ := Option.map_eq_some_iff.mp hn
        cases hopen
      · exact h.seen n e hn hopen
    case heard =>
      intro k x n tm hk hx
      rcases hback k x hk with ⟨-, rfl⟩ | ⟨-, hold⟩
      · exact h.heard i st n tm hst hx
      · exact h.heard k x n tm hold hx
    case entry =>
      intro k x n tm hk hserving hx hfresh
      rcases hback k x hk with ⟨-, rfl⟩ | ⟨hki, hold⟩
      · rw [hleave] at hserving
        cases hserving
      · have hfresh : s.now - tm ≤ s.reg.offlineAfter := by
          rwa [State.setStream_reg, Registry.close_offlineAfter] at hfresh
        rw [State.setStream_reg, Registry.get_close]
        -- the rule leaves only the other names
        rw [if_neg]
        · exact h.entry k x n tm hold hserving hx hfresh
        · rintro rfl
          exact hrule st hst (by rw [hpc]) k (List.getElem?_eq_some_iff.mp hold).1 hki x hold
            ⟨hserving, tm, hx, hfresh⟩
  | unregister | failAll => exact h.set hst rfl rfl rfl rfl fun hx => by cases hx
  -- every other access leaves the registry, and what was heard
  | refuse hpc | accept hpc | register hpc | metricTs hpc | noStores hpc | logTs hpc | noLogs hpc
    | sendAck hpc | storeBatch hpc | storeLogBatch hpc | deliver hpc | drop hpc | put hpc =>
    exact h.set hst rfl rfl rfl rfl fun _ => by rw [hpc]; rfl

theorem fresh_step {a : ServerAct Op Res} (h : Fresh s) (hrule : a.ClosesAlone s)
    (hstep : s.step hash a = some t) : Fresh t := by
  cases a with
  | connect token enroll ip blocked =>
    simp only [State.step] at hstep
    split at hstep
    · exact Option.some.inj hstep ▸ h
    · next identity _ =>
      obtain rfl := Option.some.inj hstep
      have hback : ∀ (k : Nat) (x : Stream Op Res) n tm,
          (s.streams ++ [{ identity := identity, ip := ip }])[k]? = some x →
          x.heard = some (n, tm) → s.streams[k]? = some x := by
        intro k x n tm hk hx
        rcases Growing.old_or_new hk with hold | ⟨-, rfl⟩
        · exact hold
        · cases hx
      exact ⟨h.seen, fun k x n tm hk hx => h.heard k x n tm (hback k x n tm hk hx) hx,
        fun k x n tm hk hserving hx => h.entry k x n tm (hback k x n tm hk hx) hserving hx⟩
  | recv i m =>
    obtain ⟨st, hst, hpc, rfl⟩ := State.step_recv hstep
    obtain ⟨pc, hrecv, -⟩ := Stream.recv_spec hpc s.hasStores s.hasLogs m
    rw [hrecv]
    exact h.set hst rfl rfl rfl rfl fun _ => by rw [hpc]; rfl
  | recvErr i eof =>
    obtain ⟨st, hst, hpc, rfl⟩ := State.step_recvErr hstep
    refine h.set hst rfl rfl rfl ?_ fun _ => by rw [hpc]; rfl
    unfold Stream.recvErr
    split <;> rfl
  | handle i c =>
    obtain ⟨st, hst, hhandle⟩ := State.step_handle hstep
    exact fresh_handle h hst hrule hhandle
  | session j a =>
    obtain ⟨-, ses, ses', k, st, -, -, -, hst, rfl⟩ := State.step_session hstep
    exact h.set hst rfl rfl rfl rfl id
  | tick d =>
    obtain rfl := Option.some.inj hstep
    refine ⟨fun n e hn hopen => ?_, fun k x n tm hk hx => ?_, fun k x n tm hk hserving hx hfresh => ?_⟩
    · have := h.seen n e hn hopen
      show e.lastSeen ≤ s.now + d
      omega
    · have := h.heard k x n tm hk hx
      show tm ≤ s.now + d
      omega
    · have hfresh : s.now + d - tm ≤ s.reg.offlineAfter := hfresh
      exact h.entry k x n tm hk hserving hx (by omega)
  | evict cutoff =>
    obtain rfl := Option.some.inj hstep
    refine ⟨fun n e hn hopen => ?_, h.heard, fun k x n tm hk hserving hx hfresh => ?_⟩
    · rw [Registry.get_evict] at hn
      exact h.seen n e (Option.filter_eq_some_iff.mp hn).1 hopen
    · obtain ⟨e, he, hopen, hlast⟩ := h.entry k x n tm hk hserving hx hfresh
      exact ⟨e, by rw [Registry.get_evict, he]; simp [hopen], hopen, hlast⟩
  | reload auth =>
    obtain rfl := Option.some.inj hstep
    exact ⟨h.seen, h.heard, h.entry⟩

/-- Closing a name that another live stream serves shows its agent disconnected. -/
theorem close_breaks {a : ServerAct Op Res} (hrule : ¬ a.ClosesAlone s)
    (hstep : s.step hash a = some t) : ¬ ShownConnected t := by
  cases a with
  | handle i c =>
    obtain ⟨st, hst, hhandle⟩ := State.step_handle hstep
    have hother : (st.pc matches .close _) = true ∧ ∃ k, k ≠ i ∧ ∃ x, s.streams[k]? = some x ∧
        Live s st.name x := by
      by_contra hnone
      refine hrule fun x hx hpc k _ hki y hy hlive => hnone ?_
      obtain rfl := Option.some.inj (hst.symm.trans hx)
      exact ⟨hpc, k, hki, y, hy, hlive⟩
    obtain ⟨hclose, k, hki, x, hk, hserving, tm, hx, hfresh⟩ := hother
    obtain ⟨out, hpc⟩ : ∃ out, st.pc = .close out := by
      cases hpc : st.pc <;> simp [hpc] at hclose ⊢
    simp only [State.handle, hpc] at hhandle
    obtain rfl := Option.some.inj hhandle
    intro hshown
    have hk' : (({ s with reg := s.reg.close st.name } : State Op Res).setStream i
        (st.leave out)).streams[k]? = some x := by
      rw [State.getElem?_of_set hst rfl, if_neg hki, hk]
    have hlive : Live (({ s with reg := s.reg.close st.name } : State Op Res).setStream i
        (st.leave out)) st.name x := by
      refine ⟨hserving, tm, hx, ?_⟩
      rwa [State.setStream_reg, Registry.close_offlineAfter]
    obtain ⟨e, he, hconn⟩ := (Registry.list_connected _ _ _).mp (hshown k x st.name hk' hlive)
    rw [State.setStream_reg, Registry.get_close, if_pos rfl] at he
    obtain ⟨e', -, rfl⟩ := Option.map_eq_some_iff.mp he
    simp [Registry.connected] at hconn
  | _ => exact absurd trivial hrule

/-- **Liveness shown.** Every state of a run reports every agent with a live stream as
connected if and only if every `Close` in the run finds no other live stream of its name. -/
theorem shown_connected_iff {s₀ : State Op Res} {as : List (ServerAct Op Res)}
    (h₀ : (serverSystem hash Op Res).init s₀) (hrun : (serverSystem hash Op Res).run s₀ as = some s) :
    (∀ before after u, as = before ++ after → (serverSystem hash Op Res).run s₀ before = some u →
      ShownConnected u) ↔
    (serverSystem hash Op Res).Along (fun s a => a.ClosesAlone s) s₀ as := by
  obtain ⟨hreg, -, -, hstreams⟩ := h₀
  have hinit : Fresh s₀ := ⟨fun n e hn => by simp [hreg] at hn, fun k x n tm hk => by simp [hstreams] at hk,
    fun k x n tm hk => by simp [hstreams] at hk⟩
  exact (serverSystem hash Op Res).along_iff (fun s h => Fresh.shown h)
    (fun s a t hC h hstep => fresh_step h hC hstep) (fun s a t hC _ hstep => close_breaks hC hstep)
    hinit hrun

end

/-- `db` connects, says `Hello` and is acknowledged; then it connects again and is opened. -/
def reconnecting : List (ServerAct Nat Nat) :=
  [.connect "t" "" "10.0.0.1" false, .recv 0 (.hello { agentName := "db" })] ++
    List.replicate 7 (.handle 0 {}) ++
    [.connect "t" "" "10.0.0.1" false, .recv 1 (.hello { agentName := "db" }), .handle 1 {}, .handle 1 {}]

theorem shown_connected_reconnecting :
    ∃ s, (serverSystem ("#" ++ ·) Nat Nat).run oneAgent reconnecting = some s ∧ ShownConnected s := by
  have hinit : (serverSystem ("#" ++ ·) Nat Nat).init oneAgent := ⟨rfl, rfl, rfl, rfl⟩
  have hends : ((serverSystem ("#" ++ ·) Nat Nat).run oneAgent reconnecting).isSome := rfl
  obtain ⟨s, hs⟩ := Option.isSome_iff_exists.mp hends
  exact ⟨s, hs, (shown_connected_iff hinit hs).mpr (by decide) reconnecting [] s (by simp) hs⟩

/-- The old stream's teardown comes after the new stream's `Open`: `db` is shown disconnected. -/
theorem stale_close_hides_agent :
    ∃ s x, (serverSystem ("#" ++ ·) Nat Nat).run oneAgent
        (reconnecting ++ [.recvErr 0 true, .handle 0 {}]) = some s ∧
      s.streams[1]? = some x ∧ Live s "db" x ∧ (s.reg.list s.now).map (·.connected) = [false] ∧
      ¬ ShownConnected s := by
  have hends : ((serverSystem ("#" ++ ·) Nat Nat).run oneAgent
      (reconnecting ++ [.recvErr 0 true, .handle 0 {}])).map
        (fun s => ((s.reg.list s.now).map (·.connected), s.streams[1]?.map fun x => decide (Live s "db" x))) =
      some ([false], some true) := by decide
  obtain ⟨s, hs, hpair⟩ := Option.map_eq_some_iff.mp hends
  obtain ⟨hlist, hlive⟩ := Prod.mk.injEq .. ▸ hpair
  obtain ⟨x, hx, hlive⟩ := Option.map_eq_some_iff.mp hlive
  have hlive : Live s "db" x := by simpa using hlive
  refine ⟨s, x, hs, hx, hlive, hlist, fun hshown => ?_⟩
  obtain ⟨a, ha, -, hconn⟩ := hshown 1 x "db" hx hlive
  have hfalse : a.connected ∈ (s.reg.list s.now).map (·.connected) := List.mem_map_of_mem ha
  rw [hlist, hconn] at hfalse
  cases List.mem_singleton.mp hfalse

end Marshal.Server
