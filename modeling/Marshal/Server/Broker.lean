import Marshal.Server.SessionProofs

/-! The broker: connected agent names and their live sessions.

A session is known by its place among those ever registered. The goroutines of
all sessions run side by side, so a step is a registration, an unregistration or a
step of one session; `actsOf` reads one session's steps out of a run. -/
namespace Marshal.Server
open Proto

variable {Op Res : Type}

structure Broker (Op Res : Type) where
  /-- Every session ever registered. -/
  all : List (Session Op Res) := []
  sessions : Table String Nat := ∅
deriving DecidableEq

namespace Broker

/-- A new session for `name`, superseding any previous one. -/
def register (b : Broker Op Res) (name : String) : Broker Op Res where
  all := b.all ++ [{}]
  sessions := b.sessions.set name b.all.length

/-- Drop the name's session only if it is still `i`. -/
def unregister (b : Broker Op Res) (name : String) (i : Nat) : Broker Op Res :=
  if b.sessions.get name = some i then { b with sessions := b.sessions.del name } else b

def get (b : Broker Op Res) (name : String) : Option Nat := b.sessions.get name

end Broker

inductive BrokerAct (Op Res : Type) where
  | register (name : String)
  | unregister (name : String) (i : Nat)
  | session (i : Nat) (a : SessionAct Op Res)
deriving DecidableEq

def Broker.step (b : Broker Op Res) : BrokerAct Op Res → Option (Broker Op Res)
  | .register name => some (b.register name)
  | .unregister name i => some (b.unregister name i)
  | .session i a => match b.all[i]? with
    | some s => (s.step a).map fun t => { b with all := b.all.set i t }
    | none => none

def brokerSystem (Op Res : Type) : Transition.System (Broker Op Res) (BrokerAct Op Res) where
  init b := b = {}
  step := Broker.step

/-! ### One session's steps -/

def BrokerAct.sessionAct? (i : Nat) : BrokerAct Op Res → Option (SessionAct Op Res)
  | .session j a => if j = i then some a else none
  | _ => none

/-- The steps of session `i` in a run of the broker. -/
def actsOf (i : Nat) (as : List (BrokerAct Op Res)) : List (SessionAct Op Res) :=
  as.filterMap (BrokerAct.sessionAct? i)

/-- No session's send succeeds once that session's `failAll` has run. -/
def BrokerAct.NotLate (b : Broker Op Res) : BrokerAct Op Res → Prop
  | .session i a => ∀ s ∈ b.all[i]?, a.NotLate s
  | _ => True

instance (b : Broker Op Res) (a : BrokerAct Op Res) : Decidable (a.NotLate b) := by
  cases a with
  | session i a =>
    show Decidable (∀ s ∈ b.all[i]?, a.NotLate s)
    infer_instance
  | _ => exact isTrue trivial

namespace Broker

theorem step_session {b c : Broker Op Res} {i : Nat} {a : SessionAct Op Res}
    (h : b.step (.session i a) = some c) :
    ∃ s t, b.all[i]? = some s ∧ s.step a = some t ∧ c = { b with all := b.all.set i t } := by
  simp only [step] at h
  split at h
  · next s hs =>
    obtain ⟨t, ht, rfl⟩ := Option.map_eq_some_iff.mp h
    exact ⟨s, t, hs, ht, rfl⟩
  · cases h

/-- In a run of the broker each session runs by itself. -/
theorem run_session {as : List (BrokerAct Op Res)} {b : Broker Op Res}
    (hrun : (brokerSystem Op Res).run {} as = some b)
    (hlate : (brokerSystem Op Res).Along (fun b a => a.NotLate b) {} as) :
    (∀ i s, b.all[i]? = some s → (sessionSystem Op Res).run {} (actsOf i as) = some s ∧
      (sessionSystem Op Res).Along (fun s a => a.NotLate s) {} (actsOf i as)) ∧
    ∀ i, b.all.length ≤ i → actsOf i as = [] := by
  refine (brokerSystem Op Res).along_history
    (I := fun as b => (∀ i s, b.all[i]? = some s → (sessionSystem Op Res).run {} (actsOf i as) = some s ∧
      (sessionSystem Op Res).Along (fun s a => a.NotLate s) {} (actsOf i as)) ∧
      ∀ i, b.all.length ≤ i → actsOf i as = [])
    ⟨by simp, fun i _ => rfl⟩ ?_ hrun hlate
  intro as b act c _ hC hI hstep
  obtain ⟨hrun, hunborn⟩ := hI
  have hconcat : ∀ i, actsOf i (as ++ [act]) = actsOf i as ++ (act.sessionAct? i).toList := by
    intro i
    rw [actsOf, List.filterMap_append]
    cases hact : act.sessionAct? i <;> simp [actsOf, hact]
  cases act with
  | register name =>
    obtain rfl := Option.some.inj hstep
    simp only [hconcat, BrokerAct.sessionAct?, Option.toList_none, List.append_nil]
    refine ⟨fun i s hi => ?_, fun i hi => hunborn i (by simp [register] at hi; omega)⟩
    rcases Growing.old_or_new hi with hold | ⟨rfl, rfl⟩
    · exact hrun i s hold
    · rw [hunborn _ (Nat.le_refl _)]
      exact ⟨rfl, trivial⟩
  | unregister name j =>
    obtain rfl := Option.some.inj hstep
    have hall : (b.unregister name j).all = b.all := by
      rw [unregister]
      split <;> rfl
    simpa only [hconcat, BrokerAct.sessionAct?, Option.toList_none, List.append_nil, hall]
      using ⟨hrun, hunborn⟩
  | session j a =>
    obtain ⟨s, t, hj, ha, rfl⟩ := step_session hstep
    have hlt := (List.getElem?_eq_some_iff.mp hj).1
    simp only [hconcat, BrokerAct.sessionAct?]
    refine ⟨fun i u hi => ?_, fun i hi => ?_⟩
    · by_cases hij : j = i
      · subst hij
        obtain rfl : t = u := by simpa [hlt] using hi
        obtain ⟨hs, halong⟩ := hrun j s hj
        simp only [if_true, Option.toList_some]
        exact ⟨(sessionSystem Op Res).run_concat.mpr ⟨s, hs, ha⟩,
          ((sessionSystem Op Res).along_concat hs).mpr ⟨halong, hC s hj⟩⟩
      · simp only [if_neg hij, Option.toList_none, List.append_nil]
        exact hrun i u (by rwa [List.getElem?_set_ne hij] at hi)
    · rw [List.length_set] at hi
      rw [if_neg (by omega), hunborn i hi]
      rfl

/-! ### Who a name leads to -/

end Broker

def BrokerAct.isRegister : BrokerAct Op Res → Bool
  | .register _ => true
  | _ => false

namespace Broker

theorem all_length {as : List (BrokerAct Op Res)} {b : Broker Op Res}
    (hrun : (brokerSystem Op Res).run {} as = some b) :
    b.all.length = as.countP BrokerAct.isRegister := by
  refine (brokerSystem Op Res).run_history
    (I := fun as b => b.all.length = as.countP BrokerAct.isRegister) rfl ?_ hrun
  intro as b act c _ hlen hstep
  rw [List.countP_append, List.countP_singleton, ← hlen]
  cases act with
  | register name =>
    obtain rfl := Option.some.inj hstep
    simp [register, BrokerAct.isRegister]
  | unregister name i =>
    obtain rfl := Option.some.inj hstep
    rw [unregister]
    split <;> rfl
  | session i a =>
    obtain ⟨s, t, -, -, rfl⟩ := step_session hstep
    simp [BrokerAct.isRegister]

/-- A name keeps its session unless another is registered or that one is unregistered. -/
theorem get_step {b c : Broker Op Res} {act : BrokerAct Op Res} {name : String} {i : Nat}
    (hregister : act ≠ .register name) (hunregister : act ≠ .unregister name i)
    (hget : b.get name = some i) (hstep : b.step act = some c) : c.get name = some i := by
  cases act with
  | register other =>
    obtain rfl := Option.some.inj hstep
    have hne : name ≠ other := fun h => hregister (h ▸ rfl)
    simpa [get, register, Table.get_set, hne] using hget
  | unregister other j =>
    obtain rfl := Option.some.inj hstep
    rw [unregister]
    split
    · next hcur =>
      have hne : name ≠ other := by
        rintro rfl
        obtain rfl := Option.some.inj (hget.symm.trans hcur)
        exact hunregister rfl
      simpa [get, Table.get_del, hne] using hget
    · exact hget
  | session j a =>
    obtain ⟨s, t, -, -, rfl⟩ := step_session hstep
    exact hget

/-- A name keeps the session last registered for it until that very session is
unregistered: no other step, an older session's teardown least of all, removes it. -/
theorem get_last_registered {before after : List (BrokerAct Op Res)} {name : String}
    {b : Broker Op Res}
    (hrun : (brokerSystem Op Res).run {} (before ++ .register name :: after) = some b)
    (hlast : .register name ∉ after)
    (hkept : .unregister name (before.countP BrokerAct.isRegister) ∉ after) :
    b.get name = some (before.countP BrokerAct.isRegister) := by
  obtain ⟨b₀, hbefore, hafter⟩ := (brokerSystem Op Res).run_append.mp hrun
  obtain ⟨b₁, hregister, hafter⟩ := (brokerSystem Op Res).run_cons.mp hafter
  obtain rfl := Option.some.inj hregister
  rw [← all_length hbefore] at hkept ⊢
  have hget : (b₀.register name).get name = some b₀.all.length := Table.get_set_self _ _ _
  refine (brokerSystem Op Res).along_invariant
    (C := fun _ act => act ≠ .register name ∧ act ≠ .unregister name b₀.all.length)
    (I := fun b => b.get name = some b₀.all.length)
    (fun b act c hC hget hstep => get_step hC.1 hC.2 hget hstep)
    hget hafter ((brokerSystem Op Res).along_of_mem ?_ _)
  intro _ act hact
  exact ⟨fun h => hlast (h ▸ hact), fun h => hkept (h ▸ hact)⟩

end Broker

/-- **Dispatch.** In every run of any number of sessions, with results delivered in
any order, contexts done, sends failing and sessions failed at any point: each
session's replies are correlated with its dispatches, and a name leads to the session
last registered for it until that session itself is unregistered. -/
theorem dispatch_correlates {as : List (BrokerAct Op Res)} {b : Broker Op Res}
    (hrun : (brokerSystem Op Res).run {} as = some b)
    (hlate : (brokerSystem Op Res).Along (fun b a => a.NotLate b) {} as) :
    (∀ i s, b.all[i]? = some s → Session.Correlated (actsOf i as) s) ∧
    ∀ before after name, as = before ++ .register name :: after → .register name ∉ after →
      .unregister name (before.countP BrokerAct.isRegister) ∉ after →
        b.get name = some (before.countP BrokerAct.isRegister) := by
  refine ⟨fun i s hi => ?_, ?_⟩
  · obtain ⟨hs, halong⟩ := (Broker.run_session hrun hlate).1 i s hi
    exact Session.correlated_run hs halong
  · rintro before after name rfl hlast hkept
    exact Broker.get_last_registered hrun hlast hkept

/-- A late reply, a teardown and a reconnect whose predecessor unregisters late. -/
def reconnectRun : List (BrokerAct Nat Nat) :=
  [.register "web", .session 0 (.dispatch 7), .session 0 (.send 0 true), .session 0 (.expire 0),
    .session 0 (.deliver ⟨1, 42⟩), .session 0 (.remove 0), .session 0 (.put 0),
    .session 0 (.dispatch 8), .session 0 (.send 1 true), .register "web", .unregister "web" 0,
    .session 0 .failAll, .session 0 (.take 1), .session 1 (.dispatch 9)]

theorem dispatch_correlates_reconnect :
    ∃ b, (brokerSystem Nat Nat).run {} reconnectRun = some b ∧
      (∀ i s, b.all[i]? = some s → Session.Correlated (actsOf i reconnectRun) s) ∧
      b.get "web" = some 1 := by
  have hrun : ((brokerSystem Nat Nat).run {} reconnectRun).isSome := by decide
  obtain ⟨b, hb⟩ := Option.isSome_iff_exists.mp hrun
  obtain ⟨hall, hget⟩ := dispatch_correlates hb (by decide)
  exact ⟨b, hb, hall, hget (reconnectRun.take 9) (reconnectRun.drop 10) "web" rfl (by decide) (by decide)⟩

end Marshal.Server
