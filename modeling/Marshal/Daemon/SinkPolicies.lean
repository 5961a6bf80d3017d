import Marshal.Daemon.Sinks

/-! Whose policy a sink was created with.

The instances of an app have the labels of its slots (`Labelled`), and only `Add` brings in
an app with new ones. So the sinks keep the effective policies as long as each sink that is
created for a managed app is created with its policy, and an app that is taken in finds no
sink with another one (`Prepared`). -/
namespace Marshal.Daemon
open Config

namespace Manager

/-! ### Labels -/

/-- Every app has the instances of its slots, under their labels. -/
def Labelled (m : Manager) : Prop :=
  ∀ a ∈ m.apps, a.insts.map (·.label) = (List.range a.spec.instances.toNat).map (label a.spec.name)

theorem labelled_set {m t : Manager} (hm : m.Labelled) {p : Nat} {a : ManagedApp}
    (happs : t.apps = m.apps.set p a)
    (ha : a.insts.map (·.label) = (List.range a.spec.instances.toNat).map (label a.spec.name)) :
    t.Labelled := by
  intro b hb
  rw [happs] at hb
  rcases List.mem_or_eq_of_mem_set hb with hb | rfl
  · exact hm b hb
  · exact ha

theorem labels_started (base : Nat) (ctxDone : Bool) (app : App) :
    (startInstances base ctxDone app).2.map (·.label) =
      (List.range app.instances.toNat).map (label app.name) := by
  simp [startInstances, Function.comp_def]

theorem labelled_fresh {m : Manager} (hm : m.Labelled) (ps : List Nat) :
    (ps.foldl freshApp m).Labelled := by
  induction ps generalizing m with
  | nil => exact hm
  | cons p rest ih =>
    refine ih ?_
    cases hget : m.apps[p]? with
    | none =>
      simp only [freshApp, hget]
      exact hm
    | some a =>
      exact labelled_set hm (freshApp_get hget).1 (labels_started m.workers.length m.ctxDone a.spec)

theorem labelled_replaceSlot {m : Manager} (hm : m.Labelled) {p idx : Nat}
    (hidx : ∃ a, m.apps[p]? = some a ∧ idx < a.spec.instances.toNat) : (m.replaceSlot p idx).Labelled := by
  obtain ⟨a, hget, hlt⟩ := hidx
  have hlabels := hm a (List.mem_of_getElem? hget)
  have hold : (a.insts.map (·.label))[idx]? = some (label a.spec.name idx) := by
    rw [hlabels]
    simp [hlt]
  rw [List.getElem?_map, Option.map_eq_some_iff] at hold
  obtain ⟨old, hold, hlabel⟩ := hold
  have hslot : idx < a.insts.length := (List.getElem?_eq_some_iff.mp hold).1
  exact labelled_set hm (replaceSlot_get hget hslot).1 ((map_set_eq hold hlabel.symm).trans hlabels)

theorem labelled_call {m : Manager} (hm : m.Labelled) (op : Op) : (m.call op).Labelled := by
  cases op with
  | add app =>
    show ∀ a ∈ (m.Add app).apps, _
    cases htaken : m.apps.any (·.name == app.name) with
    | true =>
      rw [Add_taken htaken]
      exact hm
    | false =>
      rw [(Add_new htaken).1]
      intro a ha
      rcases List.mem_append.mp ha with ha | ha
      · exact hm a ha
      · rw [List.mem_singleton.mp ha]
        exact labels_started m.workers.length m.ctxDone { app with id := m.assignID app }
  | stop sel | restart sel | reload sel | resetCounters sel =>
    intro a ha
    exact hm a (apps_selected ▸ ha)
  | updateEnv name env =>
    show (m.UpdateEnv name env).Labelled
    unfold UpdateEnv
    split
    · exact hm
    · exact hm
    · rename_i p rest hres
      cases hget : m.apps[p]? with
      | none =>
        refine fun a ha => hm a ?_
        rwa [List.modify_eq_set_getElem?, hget] at ha
      | some a =>
        have happs : (m.apps.modify p fun a => { a with spec := { a.spec with env := env } }) =
            m.apps.set p { a with spec := { a.spec with env := env } } := by
          rw [List.modify_eq_set_getElem?, hget]
          rfl
        exact labelled_set hm happs (hm a (List.mem_of_getElem? hget))
  | delete sel =>
    intro a ha
    rw [Delete_apps] at ha
    exact hm a (List.mem_of_mem_filter ha)
  | stopAll => exact hm

theorem labelled_step {m t : Manager} {a : Action} (hm : m.Labelled) (hplan : m.Planned)
    (h : m.step a = some t) : t.Labelled := by
  cases moves_of_step h with
  | call hidle => exact labelled_call hm _
  | exec hrun hexec =>
    cases hexec with
    | fresh => exact labelled_fresh hm _
    | replace => exact labelled_replaceSlot hm (hplan _ _ hrun _ _ (.inr (by simp)))
    | cancel | wait | reloadSlot | online | abort | goOn | resetCounters | describe | answer => exact hm
  | worker hmove =>
    rw [hmove.eq]
    exact hm
  | cancelCtx => exact hm

/-! ### Specs -/

/-- What the sinks' policies depend on. -/
def sinkPart (policy : Logs.Policy) (app : App) : String × Int × Logs.Policy :=
  (app.name, app.instances, logPolicy app policy)

/-- A managed app was managed before, or is the one that was added. -/
theorem specs_step {m t : Manager} {a : Action} (h : m.step a = some t) (policy : Logs.Policy)
    {app : App} (happ : app ∈ t.Specs) :
    (∃ held ∈ m.Specs, sinkPart policy held = sinkPart policy app) ∨
    ∃ new, a = .call (.add new) ∧ (∀ held ∈ m.apps, held.name ≠ new.name) ∧
      app = { new with id := m.assignID new } := by
  cases hkeeps : keepsList a with
  | true =>
    refine .inl ?_
    have hlasting : Lasting fun a => sinkPart policy a.spec := ⟨fun _ _ => rfl, fun _ _ => rfl⟩
    have hrows := hlasting.step hkeeps h
    obtain ⟨b, hb, rfl⟩ := List.mem_map.mp happ
    have hmem : sinkPart policy b.spec ∈ t.apps.map fun a => sinkPart policy a.spec :=
      List.mem_map.mpr ⟨b, hb, rfl⟩
    rw [hrows] at hmem
    obtain ⟨c, hc, heq⟩ := List.mem_map.mp hmem
    exact ⟨c.spec, List.mem_map.mpr ⟨c, hc, rfl⟩, heq⟩
  | false =>
    cases moves_of_step h with
    | @call op hidle =>
      cases op with
      | add new =>
        cases htaken : m.apps.any (·.name == new.name) with
        | true =>
          refine .inl ⟨app, ?_, rfl⟩
          rwa [call, Add_taken htaken] at happ
        | false =>
          rw [call, Specs, (Add_new htaken).1, List.map_append] at happ
          rcases List.mem_append.mp happ with happ | happ
          · exact .inl ⟨app, happ, rfl⟩
          · refine .inr ⟨new, rfl, ?_, List.mem_singleton.mp happ⟩
            intro held hheld heq
            exact List.any_eq_false.mp htaken held hheld (beq_iff_eq.mpr heq)
      | delete sel =>
        refine .inl ⟨app, ?_, rfl⟩
        rw [Specs, Delete_apps] at happ
        exact (List.filter_sublist.map _).subset happ
      | stop | restart | reload | resetCounters | updateEnv | stopAll => cases hkeeps
    | exec | worker | cancelCtx => cases hkeeps

end Manager

namespace LogService

/-! ### Sinks by app and slot -/

theorem policyFor_registered (s : LogService) (name : String) (idx : Nat) :
    s.logs.policyFor (Manager.label name idx) = s.registered name := by
  unfold Logs.Policies.policyFor registered
  rw [Memguard.appName_label]

/-- The sinks of the slots of the managed apps have the apps' effective policies. -/
def Right (s : LogService) : Prop :=
  ∀ app ∈ s.mgr.Specs, ∀ idx < app.instances.toNat,
    ∀ p ∈ s.sinks.get (Manager.label app.name idx), p = logPolicy app s.logPolicyDefault

theorem effective_iff {s : LogService} (hlabelled : s.mgr.Labelled) : s.Effective ↔ s.Right := by
  constructor
  · intro h app happ idx hidx p hp
    obtain ⟨a, ha, rfl⟩ := List.mem_map.mp happ
    have hmem : Manager.label a.spec.name idx ∈ a.insts.map (·.label) := by
      rw [hlabelled a ha]
      exact List.mem_map.mpr ⟨idx, List.mem_range.mpr hidx, rfl⟩
    obtain ⟨x, hx, hlabel⟩ := List.mem_map.mp hmem
    exact h a ha x hx p (hlabel ▸ hp)
  · intro h a ha x hx p hp
    have hmem : x.label ∈ a.insts.map (·.label) := List.mem_map.mpr ⟨x, hx, rfl⟩
    rw [hlabelled a ha] at hmem
    obtain ⟨idx, hidx, hlabel⟩ := List.mem_map.mp hmem
    exact h a.spec (List.mem_map.mpr ⟨a, ha, rfl⟩) idx (List.mem_range.mp hidx) p (hlabel ▸ hp)

/-- A sink is asked for. -/
theorem right_For_iff {s : LogService} (hs : s.Right) (label : String) :
    (s.For label).Right ↔ s.Registered label := by
  constructor
  · intro h app happ idx hidx hlabel hnone
    subst hlabel
    rw [← s.policyFor_registered app.name idx]
    refine h app happ idx hidx _ ?_
    show (s.sinks.fill _ _).get _ = _
    rw [Table.get_fill, if_pos rfl, hnone]
    rfl
  · intro h app happ idx hidx p hp
    have hget : (s.sinks.fill s.logs.policyFor label).get (Manager.label app.name idx) = some p := hp
    rw [Table.get_fill] at hget
    split at hget
    · rename_i hlabel
      cases hsink : s.sinks.get label with
      | some q =>
        rw [hsink] at hget
        refine hs app happ idx hidx p ?_
        rw [hlabel, hsink]
        exact hget
      | none =>
        rw [hsink, ← hlabel, policyFor_registered] at hget
        rw [← Option.some.inj hget]
        exact h app happ idx hidx hlabel.symm hsink
    · exact hs app happ idx hidx p hget

theorem get_Remove (s : LogService) (labels : List String) {label : String} {p : Logs.Policy}
    (h : (s.Remove labels).sinks.get label = some p) : s.sinks.get label = some p := by
  have hget : (labels.foldl Table.del s.sinks).get label = some p := h
  rw [Table.get_foldl_del] at hget
  split at hget
  · cases hget
  · exact hget

theorem removedLabels_add (m : Manager) (app : App) : m.removedLabels (m.call (.add app)) = [] := by
  have hresults : ∃ outcome, (m.call (.add app)).results = (.add app, outcome) :: m.results := by
    show ∃ outcome, (m.Add app).results = _
    unfold Manager.Add
    split <;> exact ⟨_, rfl⟩
  obtain ⟨outcome, hresults⟩ := hresults
  unfold Manager.removedLabels
  rw [hresults]
  split <;> rfl

/-! ### Steps -/

/-- The invariant: besides the sinks, what says that instances have their slots' labels. -/
structure Consistent (s : LogService) : Prop where
  labelled : s.mgr.Labelled
  planned : s.mgr.Planned
  right : s.Right

theorem consistent_follow {s : LogService} {m : Manager} {a : Manager.Action} (hs : s.Consistent)
    (h : s.mgr.step a = some m) (hprepared : s.Prepared (.manager a)) : (s.follow m).Consistent := by
  refine ⟨Manager.labelled_step hs.labelled hs.planned h, Manager.planned_step hs.planned h, ?_⟩
  intro app happ idx hidx p hp
  have hsink := s.get_Remove _ hp
  rcases Manager.specs_step h s.logPolicyDefault happ with ⟨held, hheld, heq⟩ | ⟨new, rfl, hfree, rfl⟩
  · simp only [Manager.sinkPart, Prod.mk.injEq] at heq
    obtain ⟨hname, hinstances, hpolicy⟩ := heq
    show p = logPolicy app s.logPolicyDefault
    rw [← hpolicy]
    exact hs.right held hheld idx (hinstances ▸ hidx) p (hname ▸ hsink)
  · exact hprepared hfree idx hidx p hsink

theorem consistent_step {s t : LogService} {a : Action} (hprepared : s.Prepared a) (hs : s.Consistent)
    (h : s.step a = some t) : t.Consistent := by
  cases a with
  | SetPolicy app =>
    cases h
    exact ⟨hs.labelled, hs.planned, hs.right⟩
  | Writers name =>
    cases h
    exact ⟨hs.labelled, hs.planned, (right_For_iff hs.right _).mpr hprepared⟩
  | startInstance =>
    simp only [step] at h
    split at h
    · cases h
    · rename_i label rest hstarting
      cases h
      have hregistered : s.Registered label := hprepared label (by rw [hstarting]; rfl)
      exact ⟨hs.labelled, hs.planned, (right_For_iff hs.right _).mpr hregistered⟩
  | manager a =>
    simp only [step, Option.ite_none_right_eq_some, Option.map_eq_some_iff] at h
    obtain ⟨-, m, hstep, rfl⟩ := h
    exact consistent_follow hs hstep hprepared

/-- A step that is not prepared leaves a sink with another policy. -/
theorem not_effective_step {s t : LogService} {a : Action} (hprepared : ¬ s.Prepared a)
    (hs : s.Consistent) (h : s.step a = some t) : ¬ t.Effective := by
  cases a with
  | SetPolicy app => exact absurd trivial hprepared
  | Writers name =>
    cases h
    have hlabelled : (s.For (Manager.label name 0)).mgr.Labelled := hs.labelled
    rw [effective_iff hlabelled, right_For_iff hs.right]
    exact hprepared
  | startInstance =>
    simp only [step] at h
    split at h
    · cases h
    · rename_i label rest hstarting
      cases h
      have hlabelled : (s.For label).mgr.Labelled := hs.labelled
      intro heffective
      refine hprepared fun l hl => ?_
      rw [hstarting] at hl
      cases hl
      exact (right_For_iff hs.right _).mp ((effective_iff hlabelled).mp heffective)
  | manager a =>
    simp only [step, Option.ite_none_right_eq_some, Option.map_eq_some_iff] at h
    obtain ⟨-, m, hstep, rfl⟩ := h
    cases a with
    | call op =>
      cases op with
      | add app =>
        rw [effective_iff (Manager.labelled_step hs.labelled hs.planned hstep)]
        refine fun hright => hprepared fun hfree idx hidx p hp => ?_
        obtain ⟨-, rfl⟩ := Manager.step_call hstep
        have htaken : s.mgr.apps.any (·.name == app.name) = false :=
          List.any_eq_false.mpr fun a ha heq => hfree a ha (beq_iff_eq.mp heq)
        refine hright { app with id := s.mgr.assignID app } ?_ idx hidx p ?_
        · show _ ∈ (s.mgr.Add app).Specs
          rw [Manager.Specs, (Manager.Add_new htaken).1, List.map_append]
          exact List.mem_append_right _ (List.mem_singleton.mpr rfl)
        · simp only [follow, removedLabels_add]
          exact hp
      | stop | restart | reload | updateEnv | resetCounters | delete | stopAll =>
        exact absurd trivial hprepared
    | exec | worker | cancelCtx => exact absurd trivial hprepared

theorem consistent_start (policy : Logs.Policy) : (start policy).Consistent :=
  ⟨by simp [Manager.Labelled, start], Manager.planned_of_idle rfl, by simp [Right, Manager.Specs, start]⟩

/-! ### What is registered -/

/-- The policy that was set last for the app, or else the default. -/
def lastSet (policy : Logs.Policy) (name : String) (as : List Action) : Logs.Policy :=
  as.foldl (fun p a => match a with
    | .SetPolicy app => if app.name = name then logPolicy app policy else p
    | _ => p) policy

/-- What is registered for an app depends on the policies that were set for its name only. -/
theorem registered_run (policy : Logs.Policy) {as : List Action} {s : LogService}
    (hrun : (machine policy).run (start policy) as = some s) (name : String) :
    s.logPolicyDefault = policy ∧ s.registered name = lastSet policy name as := by
  refine (machine policy).run_history
    (I := fun as s => s.logPolicyDefault = policy ∧ s.registered name = lastSet policy name as)
    ⟨rfl, rfl⟩ ?_ hrun
  intro as s a t _ hs hstep
  obtain ⟨hpolicy, hregistered⟩ := hs
  have hstep : s.step a = some t := hstep
  unfold lastSet at hregistered ⊢
  rw [List.foldl_append, ← hregistered]
  cases a with
  | SetPolicy app =>
    cases hstep
    refine ⟨hpolicy, ?_⟩
    show ((s.logs.policies.set app.name _).get name).getD s.logs.default = _
    rw [Table.get_set, hpolicy]
    simp only [List.foldl_cons, List.foldl_nil, eq_comm]
    split <;> rfl
  | Writers name' =>
    cases hstep
    exact ⟨hpolicy, rfl⟩
  | startInstance =>
    simp only [step] at hstep
    split at hstep <;> cases hstep
    exact ⟨hpolicy, rfl⟩
  | manager a =>
    simp only [step, Option.ite_none_right_eq_some, Option.map_eq_some_iff] at hstep
    obtain ⟨-, m, -, rfl⟩ := hstep
    exact ⟨hpolicy, rfl⟩

/-! ### The result -/

/-- **The sinks have the effective policies exactly where the registry is prepared.** For every
default policy and every order of policies set, deploy output, launches, instance starts,
deletions and other operations: in every state of the run each sink of an instance of a managed
app was created with the effective policy of the app's spec, if and only if at every step at which
a managed app gets a sink the app's effective policy is registered, and no app is taken in while a
sink with another policy is left under one of its labels. -/
theorem sinks_effective_iff (policy : Logs.Policy) {as : List Action} {s : LogService}
    (hrun : (machine policy).run (start policy) as = some s) :
    (∀ before after t, as = before ++ after → (machine policy).run (start policy) before = some t →
      t.Effective) ↔ (machine policy).Along Prepared (start policy) as :=
  (machine policy).along_iff (fun _ hs => (effective_iff hs.labelled).mpr hs.right)
    (fun _ _ _ hprepared hs h => consistent_step hprepared hs h)
    (fun _ _ _ hprepared hs h => not_effective_step hprepared hs h) (consistent_start policy) hrun

/-- A deployed app that keeps larger files than the default. -/
def deployed : App :=
  { name := "web", cmd := "./web", maxRestarts := 16, killTimeout := defaultKillTimeout
    logs := some { maxSizeMB := some 50, maxBackups := none, maxAgeDays := none, compress := none }
    source := some { repo := "https://git/web" } }

/-- The app is launched, and redeployed later. -/
def launchFirst : List Action :=
  [.SetPolicy deployed, .manager (.call (.add deployed)), .startInstance, .Writers "web"]

theorem launchFirst_effective :
    ∃ s, (machine Logs.DefaultPolicy).run (start Logs.DefaultPolicy) launchFirst = some s ∧
      s.sinks.get "web#0" = some { Logs.DefaultPolicy with maxSizeMB := 50 } ∧ s.Effective :=
  ⟨_, rfl, rfl, (@sinks_effective_iff Logs.DefaultPolicy launchFirst _ rfl).mpr (by decide) launchFirst [] _
    rfl rfl⟩

/-- The deploy writes its clone's output before the app is launched. -/
def outputFirst : List Action :=
  [.Writers "web", .SetPolicy deployed, .manager (.call (.add deployed)), .startInstance]

/-- The app's first sink has the default policy. -/
theorem output_fixes_policy : ¬ ∀ (policy : Logs.Policy) (as : List Action) (s : LogService),
    (machine policy).run (start policy) as = some s → s.Effective := by
  intro h
  exact absurd (h Logs.DefaultPolicy outputFirst _ rfl) (by decide)

end LogService
end Marshal.Daemon
