import Marshal.Daemon.Run
import Marshal.Daemon.SingleProcess

/-! Nothing runs after the shutdown, unless an operation is late.

The final `StopAll` waits for every instance that is not over, so when it releases
`opMu` none is left. Nothing keeps a goroutine that was waiting for `opMu` from
taking it then: a late operation that starts instances (`startsNone` is false) leaves
children behind. Without one, all instances stay over. -/
namespace Marshal.Daemon
open Config Supervisor

/-! ### Operations that start no instance -/

namespace Manager

/-- None of these apps has instances to start. -/
def noInstances (m : Manager) (ps : List Nat) : Bool :=
  ps.all fun p => match m.apps[p]? with
    | some a => a.spec.instances ≤ 0
    | none => true

/-- The operation, called now, starts no instance. -/
def startsNone (m : Manager) : Op → Bool
  | .add app => m.apps.any (·.name == app.name) || app.instances ≤ 0
  | .restart sel | .reload sel => match resolve m.apps sel with
    | .ok ps => m.noInstances ps
    | .error _ => true
  | .updateEnv name _ => match resolve m.apps name with
    | .ok (p :: _) => m.noInstances [p]
    | _ => true
  | .stop _ | .resetCounters _ | .delete _ | .stopAll => true

/-- The step calls no operation, or one that starts no instance. -/
def callsNoStart (m : Manager) : Action → Bool
  | .call op => m.startsNone op
  | _ => true

/-- The instruction starts no instance, over apps with these definitions. -/
def Calm (specs : List App) : Instr → Prop
  | .fresh ps => ∀ p ∈ ps, ∀ app, specs[p]? = some app → app.instances ≤ 0
  | .reloadSlot _ _ | .replace _ _ => False
  | _ => True

/-- The operation under way starts no instance. -/
def AllCalm (m : Manager) : Prop :=
  ∀ op todo, m.running = some ⟨op, todo⟩ → ∀ i ∈ todo, Calm m.Specs i

theorem allCalm_of_idle {m : Manager} (h : m.running = none) : AllCalm m := by
  intro op todo hrun
  rw [h] at hrun
  cases hrun

theorem allCalm_of_todo {m : Manager} {op : Op} {todo : List Instr}
    (hrun : m.running = some ⟨op, todo⟩) (h : ∀ i ∈ todo, Calm m.Specs i) : AllCalm m := by
  intro op' todo' hrun'
  rw [hrun] at hrun'
  cases hrun'
  exact h

theorem calm_stopInstances {specs : List App} {insts : List ManagedInstance} {more : List Instr}
    (h : ∀ i ∈ more, Calm specs i) : ∀ i ∈ stopInstances insts ++ more, Calm specs i := by
  intro i hi
  rcases List.mem_append.mp hi with hi | hi
  · rcases List.mem_append.mp hi with hi | hi <;> obtain ⟨x, -, rfl⟩ := List.mem_map.mp hi <;> trivial
  · exact h i hi

theorem Specs_get {m : Manager} {p : Nat} {app : App} (h : m.Specs[p]? = some app) :
    ∃ a, m.apps[p]? = some a ∧ a.spec = app := by
  simpa [Specs] using h

theorem le_of_noInstances {m : Manager} {ps : List Nat} (h : m.noInstances ps = true) {p : Nat}
    (hp : p ∈ ps) {a : ManagedApp} (hget : m.apps[p]? = some a) : a.spec.instances ≤ 0 := by
  have := List.all_eq_true.mp h p hp
  simpa [hget] using this

theorem calm_fresh {m : Manager} {ps : List Nat} (h : m.noInstances ps = true) :
    Calm m.Specs (.fresh ps) := by
  intro p hp app happ
  obtain ⟨a, hget, rfl⟩ := Specs_get happ
  exact le_of_noInstances h hp hget

theorem startInstances_none {base : Nat} {ctxDone : Bool} {app : App} (h : app.instances ≤ 0) :
    startInstances base ctxDone app = ([], []) := by
  have hzero : app.instances.toNat = 0 := by omega
  simp [startInstances, hzero]

theorem allCalm_selected {m : Manager} {op : Op} {sel : String} {todo : List Nat → List Instr}
    (h : ∀ ps, resolve m.apps sel = .ok ps → ∀ i ∈ todo ps, Calm m.Specs i) :
    AllCalm (m.selected op sel todo) := by
  unfold selected
  split
  · exact allCalm_of_idle rfl
  · rename_i ps hres
    exact allCalm_of_todo rfl (h ps hres)

theorem reloadSlots_nil {m : Manager} {ps : List Nat} (h : m.noInstances ps = true) :
    m.reloadSlots ps = [] := by
  unfold reloadSlots
  rw [List.flatMap_eq_nil_iff]
  intro p hp
  cases hget : m.apps[p]? with
  | none => rfl
  | some a =>
    have hzero : a.spec.instances.toNat = 0 := by
      have := le_of_noInstances h hp hget
      omega
    simp [hzero]

theorem allCalm_updateEnv {m : Manager} {name : String} {env : List (String × String)}
    (h : m.startsNone (.updateEnv name env) = true) : AllCalm (m.UpdateEnv name env) := by
  unfold UpdateEnv
  split
  · exact allCalm_of_idle rfl
  · exact allCalm_of_idle rfl
  · rename_i p rest hres
    simp only [startsNone, hres] at h
    refine allCalm_of_todo rfl (calm_stopInstances ?_)
    intro i hi
    rcases List.mem_cons.mp hi with rfl | hi
    · intro q hq app happ
      obtain rfl := List.mem_singleton.mp hq
      obtain ⟨b, hget, rfl⟩ := Specs_get happ
      cases hold : m.apps[q]? with
      | none => simp [hold] at hget
      | some a =>
        simp only [List.getElem?_modify_eq, hold] at hget
        cases hget
        show a.spec.instances ≤ 0
        exact le_of_noInstances h (List.mem_singleton_self q) hold
    · rw [List.mem_singleton.mp hi]
      trivial

/-- A call of an operation that starts nothing. -/
theorem calm_call {m : Manager} {op : Op} (h : m.startsNone op = true) :
    AllCalm (m.call op) ∧ (m.call op).workers = m.workers := by
  refine ⟨?_, ?_⟩
  · cases op with
    | add app => exact allCalm_of_idle (Add_running m app)
    | stop sel => exact allCalm_selected fun ps _ => calm_stopInstances (by simp [Calm])
    | restart sel =>
      apply allCalm_selected
      intro ps hres
      simp only [startsNone, hres] at h
      apply calm_stopInstances
      intro i hi
      rcases List.mem_cons.mp hi with rfl | hi
      · exact calm_fresh h
      · rw [List.mem_singleton.mp hi]
        trivial
    | reload sel =>
      apply allCalm_selected
      intro ps hres
      simp only [startsNone, hres] at h
      rw [reloadSlots_nil h]
      simp [Calm]
    | updateEnv name env => exact allCalm_updateEnv h
    | resetCounters sel =>
      apply allCalm_selected
      intro ps hres i hi
      rcases List.mem_append.mp hi with hi | hi
      · obtain ⟨x, -, rfl⟩ := List.mem_map.mp hi
        trivial
      · rw [List.mem_singleton.mp hi]
        trivial
    | delete sel =>
      show AllCalm (m.Delete sel)
      unfold Delete
      split
      · exact allCalm_of_idle rfl
      · exact allCalm_of_todo rfl (calm_stopInstances (by simp [Calm]))
    | stopAll => exact allCalm_of_todo rfl (calm_stopInstances (by simp [Calm]))
  · cases op with
    | add app =>
      cases hname : m.apps.any (·.name == app.name) with
      | true => rw [call, Add_taken hname, finish_workers]
      | false =>
        have hle : app.instances ≤ 0 := by simpa [startsNone, hname] using h
        rw [call, (Add_new hname).2.1, startInstances_none (by exact hle), List.append_nil]
    | stop sel | restart sel | reload sel | resetCounters sel =>
      simp only [call, selected]
      split <;> rfl
    | updateEnv name env =>
      simp only [call, UpdateEnv]
      split <;> rfl
    | delete sel =>
      simp only [call, Delete]
      split <;> rfl
    | stopAll => rfl

/-- Apps without instances get none. -/
theorem fresh_none {m : Manager} {ps : List Nat} (h : Calm m.Specs (.fresh ps)) :
    (ps.foldl freshApp m).workers = m.workers ∧ (ps.foldl freshApp m).Specs = m.Specs := by
  induction ps generalizing m with
  | nil => exact ⟨rfl, rfl⟩
  | cons p rest ih =>
    have hone : (m.freshApp p).workers = m.workers ∧ (m.freshApp p).Specs = m.Specs := by
      cases hget : m.apps[p]? with
      | none =>
        unfold freshApp
        rw [hget]
        exact ⟨rfl, rfl⟩
      | some a =>
        obtain ⟨happs, hworkers⟩ := freshApp_get hget
        have hle : a.spec.instances ≤ 0 := h p List.mem_cons_self a.spec (by simp [Specs, hget])
        refine ⟨?_, ?_⟩
        · rw [hworkers, startInstances_none hle, List.append_nil]
        · show (m.freshApp p).apps.map (·.spec) = m.apps.map (·.spec)
          rw [happs]
          exact map_set_eq hget rfl
    obtain ⟨hworkers, hspecs⟩ := hone
    have hrest := @ih (m.freshApp p) (by
      rw [hspecs]
      exact fun q hq => h q (List.mem_cons_of_mem p hq))
    rw [List.foldl_cons]
    exact ⟨hrest.1.trans hworkers, hrest.2.trans hspecs⟩

theorem calm_exec {m t : Manager} {op : Op} {todo : List Instr}
    (hrun : m.running = some ⟨op, todo⟩) (hcalm : AllCalm m) (h : Executes m op todo t) :
    AllCalm t ∧ Evolves m.workers t.workers := by
  have hall := hcalm op todo hrun
  cases h with
  | cancel =>
    exact ⟨allCalm_of_todo rfl fun i hi => hall i (List.mem_cons_of_mem _ hi),
      evolves_touch fun i => (rfl : i.step .cancel = _)⟩
  | resetCounters =>
    exact ⟨allCalm_of_todo rfl fun i hi => hall i (List.mem_cons_of_mem _ hi),
      evolves_touch fun i => (rfl : i.step .resetCounters = _)⟩
  | wait | online | goOn =>
    exact ⟨allCalm_of_todo rfl fun i hi => hall i (List.mem_cons_of_mem _ hi), .refl _⟩
  | @fresh ps rest =>
    obtain ⟨hworkers, hspecs⟩ := fresh_none (hall _ List.mem_cons_self)
    refine ⟨allCalm_of_todo rfl fun i hi => ?_, ?_⟩
    · show Calm (ps.foldl freshApp m).Specs i
      rw [hspecs]
      exact hall i (List.mem_cons_of_mem _ hi)
    · rw [proceed_workers, hworkers]
      exact .refl _
  | @reloadSlot p idx rest => exact (hall (.reloadSlot p idx) List.mem_cons_self).elim
  | @replace p idx rest => exact (hall (.replace p idx) List.mem_cons_self).elim
  | abort | describe | answer => exact ⟨allCalm_of_idle rfl, .refl _⟩

theorem calm_step {m t : Manager} {a : Action} (hcalm : AllCalm m)
    (hnone : m.callsNoStart a = true) (h : m.step a = some t) :
    AllCalm t ∧ Evolves m.workers t.workers := by
  cases moves_of_step h with
  | @call op hidle =>
    obtain ⟨hall, hworkers⟩ := calm_call hnone
    rw [hworkers]
    exact ⟨hall, .refl _⟩
  | exec hrun hexec => exact calm_exec hrun hcalm hexec
  | worker hmove =>
    refine ⟨?_, evolves_worker hmove⟩
    rw [hmove.eq]
    exact hcalm
  | cancelCtx => exact ⟨hcalm, .refl _⟩

theorem Evolves.trans {ws ws' ws'' : List Worker} (h : Evolves ws ws') (h' : Evolves ws' ws'') :
    Evolves ws ws'' := by
  refine ⟨h'.length.trans h.length, fun w x hx => ?_⟩
  obtain ⟨y, hy, hkey, hover, hcoherent⟩ := h.each w x hx
  obtain ⟨z, hz, hkey', hover', hcoherent'⟩ := h'.each w y hy
  refine ⟨z, hz, hkey'.trans hkey, fun hpc => ?_, hcoherent' ∘ hcoherent⟩
  obtain ⟨hpcy, hchildren⟩ := hover hpc
  obtain ⟨hpcz, hchildren'⟩ := hover' hpcy
  exact ⟨hpcz, hchildren'.trans hchildren⟩

/-- Every instance is over, or the operation under way waits for it. -/
def Settling (m : Manager) : Prop := ∀ w, w < m.workers.length → Awaited m w ∨ Over m.workers w

theorem Settling.ended {m : Manager} (h : Settling m) (hidle : m.running = none) {w : Nat}
    (hw : w < m.workers.length) : Over m.workers w := by
  rcases h w hw with hawaited | hover
  · obtain ⟨op, todo, hrun, -⟩ := hawaited
    rw [hidle] at hrun
    cases hrun
  · exact hover

/-- The final `StopAll` waits for every instance that is not over. -/
theorem settling_stopAll {m : Manager} (hm : Single m) (hidle : m.running = none) :
    Settling (m.call .stopAll) := by
  intro w hw
  have hget : m.workers[w]? = some m.workers[w] := List.getElem?_eq_getElem hw
  by_cases hpc : m.workers[w].inst.pc = .returned
  · exact .inr ⟨_, hget, hpc⟩
  · obtain ⟨a, ha, x, hx, rfl⟩ := ((hm.idle hidle).held w _ hget hpc).resolve_left id
    obtain ⟨p, hp⟩ := List.mem_iff_getElem?.mp ha
    refine .inl (awaited_call (mem_collectInstances.mpr ⟨p, ?_, a, hp, hx⟩))
    exact List.mem_range.mpr (List.getElem?_eq_some_iff.mp hp).1

end Manager

namespace Marshald

/-! ### The steps of the daemon -/

/-- The manager takes a step of its own or stays as it is. -/
structure Moves (d : Marshald) (a : Action) (t : Marshald) : Prop where
  alive : d.phase ≠ .exited
  manager : (inManager a = true ∧ ∃ ma, d.managerAction a = some ma ∧ d.mgr.step ma = some t.mgr) ∨
    (inManager a = false ∧ t.mgr = d.mgr)
  phase : d.nextPhase t.mgr a = some t.phase

theorem moves_of_step {d t : Marshald} {a : Action} (h : d.step a = some t) : Moves d a t := by
  unfold step at h
  split at h
  · cases h
  · rename_i halive
    cases hin : inManager a with
    | true =>
      simp only [hin, if_true] at h
      cases hma : d.managerAction a with
      | none => simp [hma] at h
      | some ma =>
        cases hm : d.mgr.step ma with
        | none => simp [hma, hm] at h
        | some m =>
          cases hphase : d.nextPhase m a with
          | none => simp [hma, hm, hphase] at h
          | some phase =>
            simp only [hma, hm, hphase, Option.bind_eq_bind, Option.bind_some, Option.pure_def,
              Option.some.injEq] at h
            subst h
            exact ⟨halive, .inl ⟨hin, ma, hma, hm⟩, hphase⟩
    | false =>
      simp only [hin, Bool.false_eq_true, if_false] at h
      cases hphase : d.nextPhase d.mgr a with
      | none => simp [hphase] at h
      | some phase =>
        simp only [hphase, Option.bind_eq_bind, Option.bind_some, Option.pure_def,
          Option.some.injEq] at h
        subst h
        exact ⟨halive, .inr ⟨hin, rfl⟩, hphase⟩

/-- A step is in time: no id runs out, and an operation called after the final `StopAll` starts no
instance. -/
def InTime (d : Marshald) (a : Action) : Prop :=
  ∀ ma ∈ d.managerAction a, Manager.FreshID d.mgr ma ∧
    (d.phase = .stopped → d.mgr.callsNoStart ma = true)

instance (d : Marshald) (a : Action) : Decidable (InTime d a) :=
  inferInstanceAs (Decidable (∀ ma ∈ d.managerAction a, _ ∧ _))

/-! ### The final `StopAll` -/

/-- From the final `StopAll` on no instance is started, and each is over when it returns. -/
structure Shut (d : Marshald) : Prop where
  single : Manager.Single d.mgr
  calm : d.phase = .stopping ∨ d.phase = .stopped ∨ d.phase = .exited → Manager.AllCalm d.mgr
  held : d.phase = .stopping → d.mgr.running ≠ none
  settling : d.phase = .stopping → Manager.Settling d.mgr
  ended : d.phase = .stopped ∨ d.phase = .exited →
    ∀ w, w < d.mgr.workers.length → Manager.Over d.mgr.workers w

theorem shut_start (apps : List App) : Shut (start apps) :=
  ⟨Manager.single_new, by simp [start], by simp [start], by simp [start], by simp [start]⟩

/-- Before the final `StopAll` there is nothing to keep but the slots. -/
theorem shut_of_serving {d : Marshald} (h : Manager.Single d.mgr)
    (hphase : ¬ (d.phase = .stopping ∨ d.phase = .stopped ∨ d.phase = .exited)) : Shut d :=
  ⟨h, fun hp => absurd hp hphase, fun hp => absurd (.inl hp) hphase,
    fun hp => absurd (.inl hp) hphase, fun hp => absurd (.inr hp) hphase⟩

/-- Where a step outside the manager takes `Run`. -/
theorem phase_outside {d : Marshald} {m : Manager} {a : Action} {p : Phase}
    (hin : inManager a = false) (h : d.nextPhase m a = some p) :
    p = d.phase ∨ (d.phase = .restoring [] ∧ p = .serving) ∨ (d.phase = .serving ∧ p = .served) ∨
      (d.phase = .stopped ∧ p = .exited) := by
  cases a with
  | restore | call | manager | stopAll => cases hin
  | serve | serveFails | exit =>
    simp only [nextPhase, Option.ite_none_right_eq_some, Option.some.injEq] at h
    simp [h.1, ← h.2]
  | serveEnds =>
    simp only [nextPhase, Option.ite_none_right_eq_some, Option.some.injEq] at h
    simp [h.1.1, ← h.2]
  | arrive | gracefulStop | samplerEnds | fleetEnds =>
    simp only [nextPhase, Option.ite_none_right_eq_some, Option.some.injEq] at h
    exact .inl h.2.symm
  | leave =>
    simp only [nextPhase, Option.ite_none_left_eq_some, Option.some.injEq] at h
    exact .inl h.2.symm
  | kill =>
    simp only [nextPhase, Option.some.injEq] at h
    exact .inl h.symm

/-- Where a step within the manager takes `Run`. -/
theorem phase_inside {d : Marshald} {m : Manager} {a : Action} {p : Phase} {ma : Manager.Action}
    (hin : inManager a = true) (hma : d.managerAction a = some ma) (h : d.nextPhase m a = some p) :
    (∃ app rest, d.phase = .restoring (app :: rest) ∧ p = .restoring rest) ∨
    (d.phase = .served ∧ p = .stopping ∧ ma = .call .stopAll) ∨
    (d.phase = .stopping ∧ m.running = none ∧ p = .stopped) ∨
    (p = d.phase ∧ (d.phase = .stopping → m.running ≠ none ∨ ∃ op, ma = .call op)) := by
  cases a with
  | serve | arrive | leave | kill | gracefulStop | serveEnds | serveFails | samplerEnds | fleetEnds
  | exit => cases hin
  | restore =>
    simp only [nextPhase] at h
    split at h <;> simp only [Option.some.injEq, reduceCtorEq] at h
    rename_i app rest hrestoring
    exact .inl ⟨app, rest, hrestoring, h.symm⟩
  | stopAll =>
    simp only [nextPhase, Option.ite_none_right_eq_some, Option.some.injEq] at h
    simp only [managerAction, Option.some.injEq] at hma
    exact .inr (.inl ⟨h.1, h.2.symm, hma.symm⟩)
  | call k =>
    simp only [nextPhase, Option.some.injEq] at h
    simp only [managerAction] at hma
    split at hma <;> simp only [Option.some.injEq, reduceCtorEq] at hma
    exact .inr (.inr (.inr ⟨h.symm, fun _ => .inr ⟨_, hma.symm⟩⟩))
  | manager a =>
    simp only [nextPhase, Option.some.injEq] at h
    split at h
    · rename_i hstop
      exact .inr (.inr (.inl ⟨hstop.1, hstop.2, h.symm⟩))
    · rename_i hgo
      exact .inr (.inr (.inr ⟨h.symm, fun hp => .inl fun hnone => hgo ⟨hp, hnone⟩⟩))

theorem settling_step {m t : Manager} {a : Manager.Action} (hm : Manager.Single m)
    (hs : Manager.Settling m) (hlength : t.workers.length = m.workers.length)
    (h : m.step a = some t) : Manager.Settling t := by
  intro w hw
  rw [hlength] at hw
  exact Manager.awaited_step hm (hs w hw) h

theorem shut_inside {d t : Marshald} {a : Action} {ma : Manager.Action} (hd : Shut d)
    (htime : InTime d a) (hin : inManager a = true) (hma : d.managerAction a = some ma)
    (hstep : d.mgr.step ma = some t.mgr) (hphase : d.nextPhase t.mgr a = some t.phase)
    (halive : d.phase ≠ .exited) : Shut t := by
  obtain ⟨hfresh, hlate⟩ := htime ma hma
  have hsingle := Manager.single_step hfresh hd.single hstep
  -- While `StopAll` holds the lock, nobody calls an operation.
  have hheld : d.phase = .stopping → ∀ op, ma ≠ .call op := by
    intro hp op heq
    subst heq
    exact hd.held hp (Manager.step_call hstep).1
  have hcalm : d.phase = .stopping ∨ d.phase = .stopped →
      Manager.AllCalm t.mgr ∧ Manager.Evolves d.mgr.workers t.mgr.workers := by
    intro hp
    refine Manager.calm_step (hd.calm (by rcases hp with hp | hp <;> simp [hp])) ?_ hstep
    rcases hp with hp | hp
    · cases ma with
      | call op => exact absurd rfl (hheld hp op)
      | exec | worker | cancelCtx => rfl
    · exact hlate hp
  rcases phase_inside hin hma hphase with ⟨app, rest, -, hp⟩ | ⟨-, hp, rfl⟩ | ⟨hstop, hidle, hp⟩ |
    ⟨hp, hbusy⟩
  · exact shut_of_serving hsingle (by simp [hp])
  · obtain ⟨hidle, heq⟩ := Manager.step_call hstep
    refine ⟨hsingle, ?_, ?_, ?_, by simp [hp]⟩ <;> rw [heq]
    · exact fun _ => (Manager.calm_call rfl).1
    · intro _ hnone
      cases hnone
    · exact fun _ => Manager.settling_stopAll hd.single hidle
  · obtain ⟨hall, hev⟩ := hcalm (.inl hstop)
    have hsettling := settling_step hd.single (hd.settling hstop) hev.length hstep
    exact ⟨hsingle, fun _ => hall, by simp [hp], by simp [hp], fun _ w hw => hsettling.ended hidle hw⟩
  · refine ⟨hsingle, ?_, ?_, ?_, ?_⟩
    · intro hq
      rw [hp] at hq
      exact (hcalm (by simpa [halive] using hq)).1
    · intro hq
      rw [hp] at hq
      rcases hbusy hq with hrun | ⟨op, heq⟩
      · exact hrun
      · exact absurd heq (hheld hq op)
    · intro hq
      rw [hp] at hq
      exact settling_step hd.single (hd.settling hq) (hcalm (.inl hq)).2.length hstep
    · intro hq w hw
      rw [hp] at hq
      have hstopped : d.phase = .stopped := by simpa [halive] using hq
      rw [(hcalm (.inr hstopped)).2.length] at hw
      exact Manager.over_step (hd.ended hq w hw) hstep

theorem shut_step {d t : Marshald} {a : Action} (htime : InTime d a) (hd : Shut d)
    (h : d.step a = some t) : Shut t := by
  obtain ⟨halive, hmgr, hphase⟩ := moves_of_step h
  rcases hmgr with ⟨hin, ma, hma, hstep⟩ | ⟨hin, hmgr⟩
  · exact shut_inside hd htime hin hma hstep hphase halive
  · have hsingle : Manager.Single t.mgr := hmgr ▸ hd.single
    rcases phase_outside hin hphase with hp | ⟨-, hp⟩ | ⟨-, hp⟩ | ⟨hstopped, hp⟩
    · refine ⟨hsingle, ?_, ?_, ?_, ?_⟩ <;> rw [hp, hmgr]
      · exact hd.calm
      · exact hd.held
      · exact hd.settling
      · exact hd.ended
    · exact shut_of_serving hsingle (by simp [hp])
    · exact shut_of_serving hsingle (by simp [hp])
    · refine ⟨hsingle, ?_, by simp [hp], by simp [hp], ?_⟩ <;> rw [hmgr]
      · exact fun _ => hd.calm (.inr (.inl hstopped))
      · exact fun _ => hd.ended (.inl hstopped)

theorem shut_run {apps : List App} {d t : Marshald} {as : List Action} (hd : Shut d)
    (hrun : (machine apps).run d as = some t) (htime : (machine apps).Along InTime d as) : Shut t :=
  (machine apps).along_invariant (fun _ _ _ hC hI h => shut_step hC hI h) hd hrun htime

/-- `Run` stays past its final `StopAll`, and no instance is started from there on. -/
theorem evolves_after {d t : Marshald} {a : Action} (htime : InTime d a) (hd : Shut d)
    (hphase : d.phase = .stopped ∨ d.phase = .exited) (h : d.step a = some t) :
    (t.phase = .stopped ∨ t.phase = .exited) ∧
    Manager.Evolves d.mgr.workers t.mgr.workers := by
  obtain ⟨halive, hmgr, hnext⟩ := moves_of_step h
  have hstopped : d.phase = .stopped := by simpa [halive] using hphase
  rcases hmgr with ⟨hin, ma, hma, hstep⟩ | ⟨hin, hmgr⟩
  · refine ⟨?_, ?_⟩
    · rcases phase_inside hin hma hnext with ⟨app, rest, hp, -⟩ | ⟨hp, -, -⟩ | ⟨hp, -, -⟩ | ⟨hp, -⟩
      · simp [hstopped] at hp
      · simp [hstopped] at hp
      · simp [hstopped] at hp
      · exact .inl (hp.trans hstopped)
    · refine (Manager.calm_step (hd.calm (.inr (.inl hstopped))) ?_ hstep).2
      exact (htime ma hma).2 hstopped
  · refine ⟨?_, ?_⟩
    · rcases phase_outside hin hnext with hp | ⟨hp, -⟩ | ⟨hp, -⟩ | ⟨-, hp⟩
      · exact .inl (hp.trans hstopped)
      · simp [hstopped] at hp
      · simp [hstopped] at hp
      · exact .inr hp
    · rw [hmgr]
      exact .refl _

/-- An instance that is over has no child. -/
theorem no_child {d : Marshald} (hd : Shut d) (hphase : d.phase = .stopped ∨ d.phase = .exited)
    {w : Nat} {x : Worker} (hx : d.mgr.workers[w]? = some x) :
    x.inst.pc = .returned ∧ x.inst.child = .none := by
  obtain ⟨y, hy, hpc⟩ := hd.ended hphase w (List.getElem?_eq_some_iff.mp hx).1
  rw [hx, Option.some.injEq] at hy
  subst hy
  refine ⟨hpc, ?_⟩
  by_contra hchild
  have hhas := (hd.single.slots.coherent x (List.mem_of_getElem? hx)).child.mp hchild
  rw [hpc] at hhas
  cases hhas

/-- **Nothing runs after the shutdown as long as no operation is late.** In every run of the
daemon in which no id runs out and every operation called after the final `StopAll` has returned
starts no instance: once it has returned, no instance has a child or a goroutine that goes on, and
whatever happens later no instance is added and none starts a child. -/
theorem nothing_after_shutdown {apps : List App} {as : List Action} {d : Marshald}
    (hrun : (machine apps).run (start apps) as = some d)
    (htime : (machine apps).Along InTime (start apps) as)
    (hphase : d.phase = .stopped ∨ d.phase = .exited) :
    (∀ x ∈ d.mgr.workers, x.inst.pc = .returned ∧ x.inst.child = .none) ∧
    ∀ more t, (machine apps).run d more = some t → (machine apps).Along InTime d more →
      t.mgr.workers.length = d.mgr.workers.length ∧
      ∀ (w : Nat) (x y : Worker), d.mgr.workers[w]? = some x → t.mgr.workers[w]? = some y →
        y.inst.child = .none ∧ y.inst.children = x.inst.children := by
  have hd := shut_run (shut_start apps) hrun htime
  refine ⟨?_, ?_⟩
  · intro x hx
    obtain ⟨w, hw⟩ := List.mem_iff_getElem?.mp hx
    exact no_child hd hphase hw
  · intro more t hmore htime'
    have hI : Shut t ∧ (t.phase = .stopped ∨ t.phase = .exited) ∧
        Manager.Evolves d.mgr.workers t.mgr.workers := by
      refine (machine apps).along_invariant (C := InTime)
        (I := fun u => Shut u ∧ (u.phase = .stopped ∨ u.phase = .exited) ∧
          Manager.Evolves d.mgr.workers u.mgr.workers)
        ?_ ⟨hd, hphase, .refl _⟩ hmore htime'
      intro u a v hC hI h
      obtain ⟨hu, hp, hev⟩ := hI
      obtain ⟨hp', hev'⟩ := evolves_after hC hu hp h
      exact ⟨shut_step hC hu h, hp', hev.trans hev'⟩
    obtain ⟨ht, hp, hev⟩ := hI
    refine ⟨hev.length, ?_⟩
    intro w x y hx hy
    obtain ⟨z, hz, -, hover, -⟩ := hev.each w x hx
    rw [hy, Option.some.injEq] at hz
    subst hz
    exact ⟨(no_child ht hp hy).2, (hover (no_child hd hphase hx).1).2⟩

/-- An app comes up and the daemon is killed. -/
def killWeb : List Action :=
  [Action.restore, .serve] ++ (Manager.comesUp 0 7).map Action.manager ++
    [Action.kill, .gracefulStop, .serveEnds, .stopAll, .manager .exec] ++
    (Manager.goesDown 0).map Action.manager ++ [Action.manager .exec, .manager .exec]

theorem killWeb_runs :
    ((machine [{ name := "web" }]).run (start [{ name := "web" }]) killWeb).isSome = true := by
  decide +kernel

theorem nothing_after_shutdown_killWeb :
    ∃ d, (machine [{ name := "web" }]).run (start [{ name := "web" }]) killWeb = some d ∧
      ∀ x ∈ d.mgr.workers, x.inst.pc = .returned ∧ x.inst.child = .none := by
  have hrun := (Option.some_get killWeb_runs).symm
  exact ⟨_, hrun, (nothing_after_shutdown hrun (by decide +kernel) (by decide +kernel)).1⟩

/-- The memory guard has fired before the kill; its restart gets the lock after `StopAll`. -/
def lateRestart : List Action :=
  [Action.restore, .serve] ++ (Manager.comesUp 0 7).map Action.manager ++
    [Action.arrive .guard [.restart "web"], .kill, .gracefulStop, .serveEnds, .stopAll, .manager .exec] ++
    (Manager.goesDown 0).map Action.manager ++ [Action.manager .exec, .manager .exec, .call 0] ++
    [Action.manager .exec, .manager .exec, .manager .exec] ++
    (Manager.comesUp 1 8).map Action.manager ++ [Action.exit]

theorem lateRestart_runs :
    ((machine [{ name := "web" }]).run (start [{ name := "web" }]) lateRestart).isSome = true := by
  decide +kernel

/-- A child is left behind when the process exits. -/
theorem runs_after_shutdown :
    ¬ ∀ (apps : List App) (as : List Action) (d : Marshald),
      (machine apps).run (start apps) as = some d → d.phase = .stopped ∨ d.phase = .exited →
      ∀ x ∈ d.mgr.workers, x.inst.child = .none := by
  intro h
  have hrun := (Option.some_get lateRestart_runs).symm
  exact absurd (h [{ name := "web" }] lateRestart _ hrun (by decide +kernel)) (by decide +kernel)

end Marshald
end Marshal.Daemon
