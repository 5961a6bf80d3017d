import Marshal.Daemon.SinkPolicies

/-! The service's operations on the sinks.

Each operation of the service is a run of the manager, the policies and the sinks together,
from one state in which nothing is left to start to another (`Reaches`); so is each of its
runs. -/
namespace Marshal.Daemon
open Config

namespace LogService

/-- The manager and the policies are the service's, and nothing is left to start. -/
structure Follows (s : LogService) (service : Service) : Prop where
  mgr : s.mgr = service.mgr
  logs : s.logs = service.logs
  policy : s.logPolicyDefault = service.logPolicyDefault
  starting : s.starting = []

/-- A run leads to a state that follows the service. -/
def Reaches (policy : Logs.Policy) (s : LogService) (service : Service) : Prop :=
  ∃ as t, (machine policy).run s as = some t ∧ t.Follows service

section Reaches
variable {policy : Logs.Policy} {s : LogService} {service after : Service}

theorem Follows.reaches (h : s.Follows service) : Reaches policy s service := ⟨[], s, rfl, h⟩

theorem Reaches.trans (h : Reaches policy s service)
    (hafter : ∀ t, Follows t service → Reaches policy t after) : Reaches policy s after := by
  obtain ⟨as, t, hrun, ht⟩ := h
  obtain ⟨more, u, hmore, hu⟩ := hafter t ht
  exact ⟨as ++ more, u, (machine policy).run_append.mpr ⟨t, hrun, hmore⟩, hu⟩

theorem reaches_step {t : LogService} {a : Action} (h : s.step a = some t)
    (ht : Reaches policy t service) : Reaches policy s service := by
  obtain ⟨as, u, hrun, hu⟩ := ht
  exact ⟨a :: as, u, (machine policy).run_cons.mpr ⟨t, h, hrun⟩, hu⟩

/-- The writers of all that was started are asked for. -/
theorem reaches_started (hmgr : s.mgr = service.mgr) (hlogs : s.logs = service.logs)
    (hpolicy : s.logPolicyDefault = service.logPolicyDefault) : Reaches policy s service := by
  induction hstarting : s.starting generalizing s with
  | nil => exact Follows.reaches ⟨hmgr, hlogs, hpolicy, hstarting⟩
  | cons label rest ih =>
    have hstep : s.step .startInstance = some { s.For label with starting := rest } := by
      simp only [step, hstarting]
    exact reaches_step hstep (ih hmgr hlogs hpolicy rfl)

theorem reaches_SetPolicy (h : s.Follows service) (app : App) : Reaches policy s
    { service with logs := service.logs.SetPolicy app.name (logPolicy app service.logPolicyDefault) } := by
  refine reaches_step (a := .SetPolicy app) rfl (Follows.reaches ⟨h.mgr, ?_, h.policy, h.starting⟩)
  show s.logs.SetPolicy _ (logPolicy app s.logPolicyDefault) = _
  rw [h.logs, h.policy]

theorem reaches_manager (h : s.Follows service) {a : Manager.Action} {m : Manager}
    (hm : service.mgr.step a = some m) : Reaches policy s { service with mgr := m } := by
  have hready : s.ready a = true := by
    cases a <;> simp [ready, h.starting]
  have hstep : s.step (.manager a) = some (s.follow m) := by
    simp only [step, hready, if_true, h.mgr, hm, Option.map_some]
  exact reaches_step hstep (reaches_started rfl h.logs h.policy)

theorem reaches_managers (h : s.Follows service) {more : List Manager.Action} {m : Manager}
    (hrun : Manager.machine.run service.mgr more = some m) :
    Reaches policy s { service with mgr := m } := by
  induction more generalizing s service with
  | nil =>
    cases hrun
    exact h.reaches
  | cons a rest ih =>
    obtain ⟨t, ha, hrest⟩ := Manager.machine.run_cons.mp hrun
    exact (reaches_manager h ha).trans fun u hu => @ih u { service with mgr := t } hu hrest

/-! ### Operations -/

theorem step_add {m : Manager} (hidle : m.running = none) (app : App) :
    m.step (.call (.add app)) = some (m.call (.add app)) := by
  simp only [Manager.step, hidle]

theorem reaches_launchApp (h : s.Follows service) (hidle : service.mgr.running = none) (app : App) :
    Reaches policy s (service.launchApp app).1 :=
  (reaches_SetPolicy h app).trans fun _ ht => by
    obtain ⟨as, u, hrun, hu⟩ := reaches_manager ht (step_add hidle app)
    exact ⟨as, u, hrun, hu.mgr, hu.logs, hu.policy, hu.starting⟩

theorem reaches_doStart (h : s.Follows service) (hidle : service.mgr.running = none)
    (specs : List AppSpec) : Reaches policy s (service.doStart specs).1 := by
  induction specs generalizing s service with
  | nil => exact h.reaches
  | cons spec rest ih =>
    unfold Service.doStart
    split
    · exact h.reaches
    · rename_i app happ
      split
      · exact reaches_launchApp h hidle app
      · exact (reaches_launchApp h hidle app).trans fun t ht =>
          ih ht (Manager.Add_running service.mgr app)

theorem reaches_addAll (h : s.Follows service) (hidle : service.mgr.running = none) (apps : List App) :
    Reaches policy s { service with mgr := (service.mgr.addAll apps).1 } := by
  induction apps generalizing s service with
  | nil => exact h.reaches
  | cons app rest ih =>
    exact (reaches_manager h (step_add hidle app)).trans fun t ht =>
      ih ht (Manager.Add_running service.mgr app)

theorem reaches_Delete (h : s.Follows service) {sel : String} {more : List Manager.Action}
    {answer : Answer} (hdelete : service.Delete sel more = some (after, answer)) :
    Reaches policy s after := by
  cases hcomplete : service.mgr.complete (.delete sel) more with
  | none => simp [Service.Delete, hcomplete] at hdelete
  | some r =>
    obtain ⟨m, reply⟩ := r
    have hrun : Manager.machine.run service.mgr (.call (.delete sel) :: more) = some m := by
      unfold Manager.complete at hcomplete
      split at hcomplete
      · rename_i u hrun
        simp only [Option.ite_none_right_eq_some, Option.some.injEq, Prod.mk.injEq] at hcomplete
        rw [hrun, hcomplete.2.1]
      · cases hcomplete
    obtain ⟨as, t, hruns, ht⟩ := reaches_managers h hrun
    refine ⟨as, t, hruns, ?_⟩
    unfold Service.Delete at hdelete
    rw [hcomplete] at hdelete
    cases reply <;> cases hdelete <;> exact ⟨ht.mgr, ht.logs, ht.policy, ht.starting⟩

theorem Reaches.persist {r : Service × Answer} (h : Reaches policy s r.1) (wrote : Bool) :
    Reaches policy s (Service.persist wrote r) := by
  obtain ⟨as, t, hrun, ht⟩ := h
  refine ⟨as, t, hrun, ?_⟩
  unfold Service.persist
  split
  · unfold Service.Save
    split <;> exact ⟨ht.mgr, ht.logs, ht.policy, ht.starting⟩
  · exact ht

/-! ### Steps -/

theorem running_of_idle (h : service.idle = true) : service.mgr.running = none := by
  simpa [Service.idle] using h

/-- Every operation of the service is a run with the sinks. -/
theorem reaches_service (h : s.Follows service) {a : Service.Action} (ha : service.step a = some after) :
    Reaches policy s after := by
  cases a with
  | Start specs =>
    simp only [Service.step, Option.ite_none_right_eq_some, Option.some.injEq] at ha
    obtain ⟨hidle, rfl⟩ := ha
    exact reaches_doStart h (running_of_idle hidle) specs
  | fleetStart specs wrote =>
    simp only [Service.step, Option.ite_none_right_eq_some, Option.some.injEq] at ha
    obtain ⟨hidle, rfl⟩ := ha
    exact (reaches_doStart h (running_of_idle hidle) specs).persist wrote
  | Launch app wrote =>
    simp only [Service.step, Option.ite_none_right_eq_some, Option.some.injEq] at ha
    obtain ⟨hidle, rfl⟩ := ha
    exact (reaches_launchApp h (running_of_idle hidle) app).persist wrote
  | Resurrect =>
    simp only [Service.step, Option.ite_none_right_eq_some, Option.some.injEq] at ha
    obtain ⟨hidle, rfl⟩ := ha
    unfold Service.Resurrect
    split
    · exact h.reaches
    · exact reaches_addAll h (running_of_idle hidle) _
  | Delete sel more =>
    obtain ⟨r, hdelete, rfl⟩ := Option.map_eq_some_iff.mp ha
    exact reaches_Delete h hdelete
  | fleetDelete sel more wrote =>
    obtain ⟨r, hdelete, rfl⟩ := Option.map_eq_some_iff.mp ha
    refine Reaches.persist ?_ wrote
    unfold Service.fleetDelete at hdelete
    cases hr : service.Delete sel more with
    | none => simp [hr] at hdelete
    | some q =>
      obtain ⟨as, t, hrun, ht⟩ := @reaches_Delete policy s service q.1 h sel more q.2 hr
      refine ⟨as, t, hrun, ?_⟩
      simp only [hr] at hdelete
      split at hdelete <;> cases hdelete <;> exact ⟨ht.mgr, ht.logs, ht.policy, ht.starting⟩
  | Save wrote =>
    cases ha
    refine Follows.reaches ?_
    unfold Service.Save
    split <;> exact ⟨h.mgr, h.logs, h.policy, h.starting⟩
  | manager a =>
    simp only [Service.step, Option.ite_none_right_eq_some, Option.map_eq_some_iff] at ha
    obtain ⟨-, m, hm, rfl⟩ := ha
    exact reaches_manager h hm
  | deployer d =>
    cases ha
    exact Follows.reaches ⟨h.mgr, h.logs, h.policy, h.starting⟩

theorem reaches_policies (h : s.Follows service) (apps : List App) : Reaches policy s
    { service with logs := apps.foldl (fun r app =>
      r.SetPolicy app.name (logPolicy app service.logPolicyDefault)) service.logs } := by
  induction apps generalizing s service with
  | nil => exact h.reaches
  | cons app rest ih => exact (reaches_SetPolicy h app).trans fun t ht => ih ht

/-- The daemon's start registers the policies of the saved apps and adds the apps. -/
theorem reaches_start (store : Store) (deployer : Deploy.Deployer) :
    Reaches policy (start policy) (Service.start store deployer policy) := by
  let empty : Service := { deployer := deployer, logPolicyDefault := policy,
                           logs := Logs.Policies.SetDefaultPolicy {} policy }
  have hempty : (start policy).Follows empty := ⟨rfl, rfl, rfl, rfl⟩
  refine (reaches_policies hempty (Service.savedApps store)).trans fun t ht => ?_
  obtain ⟨as, u, hrun, hu⟩ := reaches_addAll ht rfl (Service.savedApps store)
  exact ⟨as, u, hrun, hu.mgr, hu.logs, hu.policy, hu.starting⟩

/-- **Every run of the service is a run with the sinks.** -/
theorem reaches_run (store : Store) (deployer : Deploy.Deployer) {as : List Service.Action}
    {service : Service} (hrun : (Service.machine store deployer policy).run
      (Service.start store deployer policy) as = some service) :
    Reaches policy (start policy) service :=
  (Service.machine store deployer policy).run_invariant
    (fun _ _ _ h ha => h.trans fun _ ht => reaches_service ht ha) (reaches_start store deployer) hrun

end Reaches
end LogService
end Marshal.Daemon
