import Marshal.Daemon.Tables

/-! Memory limits and log policies through the operations.

Each operation is asked what it does to the settings by name: a launch sets them and adds
the app, or fails and leaves them set; `Resurrect` adds without setting; a deletion takes
apps out by their ids and limits by the names in its answer. -/
namespace Marshal.Daemon
open Config Memguard
namespace Service

/-- The app that a start fails on because its name is taken, with the app that has the name. -/
def clash (held : List App) : List AppSpec → Option (App × App)
  | [] => none
  | spec :: rest => match appSpecToConfig spec with
    | .error _ => none
    | .ok app => match named held app.name with
      | some holder => some (holder, app)
      | none => clash (held ++ [app]) rest

/-- The tables stay those of the managed apps. -/
def Keeps (s : Service) : Action → Prop
  /- An app that is refused has the settings of the app that has its name. -/
  | .Start specs | .fleetStart specs _ => ∀ holder app, clash s.mgr.Specs specs = some (holder, app) →
    settings s.logPolicyDefault app = settings s.logPolicyDefault holder
  | .Launch app _ => ∀ holder, named s.mgr.Specs app.name = some holder →
    settings s.logPolicyDefault app = settings s.logPolicyDefault holder
  /- An app that is added has no limit, and its policy is the one that is set for its name. -/
  | .Resurrect => ∀ apps, s.store.Load = .ok apps → ∀ app, named apps app.name = some app →
    named s.mgr.Specs app.name = none → app.maxMemoryRestart = 0 ∧
      s.logs.policyFor (Manager.label app.name 0) = logPolicy app s.logPolicyDefault
  /- An app with a limit that is taken out is a selected one, and has an instance. -/
  | .Delete sel _ | .fleetDelete sel _ _ => ∀ a ∈ s.mgr.apps, s.mgr.unlinks sel a = true →
    0 < a.spec.maxMemoryRestart → a ∈ s.mgr.selectedApps sel ∧ s.mgr.snapshotApp a ≠ []
  | .Save _ | .manager _ | .deployer _ => True

/-- An app that is in the saved list twice has the same settings at its first and its last place. -/
def DumpAgrees (policy : Logs.Policy) (apps : List App) : Prop :=
  ∀ first last, named apps last.name = some first → named apps.reverse last.name = some last →
    settings policy last = settings policy first

/-! ### Launches -/

section Launch
variable {s : Service}

theorem launchApp_row (hm : s.mgr.WellNamed) (app : App) (name : String) :
    (s.launchApp app).1.mgr.row s.logPolicyDefault name =
      (s.mgr.row s.logPolicyDefault name).or
        (if app.name = name then some (settings s.logPolicyDefault app) else none) :=
  Manager.row_Add hm _ app name

theorem launchApp_limits (app : App) (name : String) : (s.launchApp app).1.guard.limits.get name =
    if name = app.name then limitOf app.maxMemoryRestart else s.guard.limits.get name :=
  s.guard.SetLimit_limits app.name name app.maxMemoryRestart

theorem launchApp_policy (app : App) (name : String) :
    (s.launchApp app).1.logs.policyFor (Manager.label name 0) =
      if name = app.name then logPolicy app s.logPolicyDefault
      else s.logs.policyFor (Manager.label name 0) := by
  show (s.logs.SetPolicy app.name _).policyFor _ = _
  rw [Logs.Policies.policyFor_SetPolicy, appName_label]

/-- Only a refused launch of an app with other settings leaves the tables wrong. -/
theorem launchApp_inStep (hm : s.mgr.WellNamed) (h : s.InStep) (app : App) :
    (s.launchApp app).1.InStep ↔ ∀ r, s.mgr.row s.logPolicyDefault app.name = some r →
      settings s.logPolicyDefault app = r := by
  constructor
  · intro ht r hr
    have hrow := launchApp_row hm app app.name
    rw [hr, Option.some_or] at hrow
    have hlimit := ht.limit app.name
    rw [launchApp_limits, if_pos rfl] at hlimit
    have hpolicy := ht.policy app.name r hrow
    rw [launchApp_policy, if_pos rfl] at hpolicy
    refine Prod.ext (limitOf_inj ?_) hpolicy
    show limitOf app.maxMemoryRestart = _
    rw [hlimit]
    show Option.bind ((s.launchApp app).1.mgr.row s.logPolicyDefault app.name) _ = _
    rw [hrow]
    rfl
  · intro hagree
    have hrow : ∀ name, (s.launchApp app).1.mgr.row s.logPolicyDefault name =
        if name = app.name then some (settings s.logPolicyDefault app)
        else s.mgr.row s.logPolicyDefault name := by
      intro name
      rw [launchApp_row hm]
      by_cases hname : name = app.name
      · subst hname
        rw [if_pos rfl, if_pos rfl]
        cases hr : s.mgr.row s.logPolicyDefault app.name with
        | none => rfl
        | some r => rw [Option.some_or, hagree r hr]
      · rw [if_neg hname, if_neg (Ne.symm hname), Option.or_none]
    refine ⟨?_, ?_⟩
    · intro name
      show _ = Option.bind ((s.launchApp app).1.mgr.row s.logPolicyDefault name) _
      rw [launchApp_limits, hrow]
      split
      · rfl
      · exact h.limit name
    · intro name r hr
      rw [show (s.launchApp app).1.logPolicyDefault = s.logPolicyDefault from rfl, hrow] at hr
      rw [launchApp_policy]
      split
      · rename_i hname
        rw [if_pos hname] at hr
        cases hr
        rfl
      · rename_i hname
        rw [if_neg hname] at hr
        exact h.policy name r hr

/-- The apps that are held, for what is asked of them. -/
def Holds (s : Service) (held : List App) : Prop :=
  ∀ name, (named held name).map (settings s.logPolicyDefault) = s.mgr.row s.logPolicyDefault name

theorem holds_launchApp (hm : s.mgr.WellNamed) {held : List App} (hheld : s.Holds held) (app : App) :
    (s.launchApp app).1.Holds (held ++ [app]) := by
  intro name
  show Option.map (settings s.logPolicyDefault) _ = (s.launchApp app).1.mgr.row s.logPolicyDefault name
  rw [launchApp_row hm, ← hheld]
  unfold named
  rw [Keyed.first_append, Keyed.first_singleton, Option.map_or]
  congr 1
  split <;> rfl

theorem Holds.isSome {held : List App} (hheld : s.Holds held) (name : String) :
    (named held name).isSome = (named s.mgr.Specs name).isSome := by
  simpa only [Manager.row, Option.isSome_map] using congrArg Option.isSome (hheld name)

/-- Up to the first that fails, every spec is launched; one fails with its tables set where its
name is taken. -/
theorem doStart_inStep (specs : List AppSpec) (hm : s.mgr.WellNamed) (h : s.InStep)
    {held : List App} (hheld : s.Holds held) : (s.doStart specs).1.mgr.WellNamed ∧
      ((s.doStart specs).1.InStep ↔ ∀ holder app, clash held specs = some (holder, app) →
        settings s.logPolicyDefault app = settings s.logPolicyDefault holder) := by
  induction specs generalizing s held with
  | nil => exact ⟨hm, fun _ _ _ hclash => (by cases hclash), fun _ => h⟩
  | cons spec rest ih =>
    unfold doStart clash
    cases hspec : appSpecToConfig spec with
    | error text => exact ⟨hm, fun _ _ _ hclash => (by cases hclash), fun _ => h⟩
    | ok app =>
      have hnamed := Manager.wellNamed_Add hm app
      have hrow := hheld app.name
      have htaken := Manager.Add_answer hm app
      rw [← hheld.isSome] at htaken
      simp only
      cases hanswer : (s.launchApp app).2 with
      | error text =>
        obtain ⟨holder, hholder⟩ := Option.isSome_iff_exists.mp (htaken.mp ⟨text, hanswer⟩)
        simp only [hholder, Option.some.injEq, Prod.mk.injEq]
        refine ⟨hnamed, (launchApp_inStep hm h app).trans ?_⟩
        rw [← hrow, hholder]
        constructor
        · intro hagree a b heq
          obtain ⟨rfl, rfl⟩ := heq
          exact hagree _ rfl
        · intro hagree r hr
          cases hr
          exact hagree holder app ⟨rfl, rfl⟩
      | ok snaps =>
        have hfree : named held app.name = none := by
          rw [← Option.not_isSome_iff_eq_none, ← htaken]
          intro herror
          obtain ⟨text, htext⟩ := herror
          rw [show (s.mgr.call (.add app)).answer = _ from hanswer] at htext
          cases htext
        simp only [hfree]
        refine ih hnamed ((launchApp_inStep hm h app).mpr ?_) (holds_launchApp hm hheld app)
        intro r hr
        rw [← hrow, hfree] at hr
        cases hr

end Launch

/-! ### Deletions -/

/-- The names in a deletion's answer are those of the selected apps that have an instance. -/
theorem mem_removedNames {m : Manager} {sel name : String} :
    (∃ snaps, m.removedSnaps sel = .ok snaps ∧ name ∈ snaps.map (·.name)) ↔
      ∃ a ∈ m.selectedApps sel, a.name = name ∧ m.snapshotApp a ≠ [] := by
  unfold Manager.removedSnaps
  constructor
  · intro h
    obtain ⟨snaps, hsnaps, hname⟩ := h
    split at hsnaps
    · cases hsnaps
    · cases hsnaps
      obtain ⟨snap, hsnap, rfl⟩ := List.mem_map.mp hname
      obtain ⟨a, ha, hmem⟩ := List.mem_flatMap.mp hsnap
      exact ⟨a, ha, (Server.snapshotApp_name hmem).symm, List.ne_nil_of_mem hmem⟩
  · intro h
    obtain ⟨a, ha, rfl, hsome⟩ := h
    obtain ⟨snap, hsnap⟩ := List.exists_mem_of_ne_nil _ hsome
    cases hres : resolve m.apps sel with
    | error text => simp [Manager.selectedApps, hres] at ha
    | ok ps => exact ⟨_, rfl, List.mem_map.mpr ⟨snap, List.mem_flatMap.mpr ⟨a, ha, hsnap⟩,
        Server.snapshotApp_name hsnap⟩⟩

/-- What a deletion does to the tables. -/
structure Deletes (s : Service) (sel : String) (t : Service) : Prop where
  apps : t.mgr.apps = s.mgr.apps.filter fun a => !s.mgr.unlinks sel a
  limits : ∀ name, ((∃ a ∈ s.mgr.selectedApps sel, a.name = name ∧ s.mgr.snapshotApp a ≠ []) →
      t.guard.limits.get name = none) ∧
    ((¬ ∃ a ∈ s.mgr.selectedApps sel, a.name = name ∧ s.mgr.snapshotApp a ≠ []) →
      t.guard.limits.get name = s.guard.limits.get name)
  logs : t.logs = s.logs
  policy : t.logPolicyDefault = s.logPolicyDefault

theorem Delete_deletes {s t : Service} {sel : String} {more : List Manager.Action} {answer : Answer}
    (h : s.Delete sel more = some (t, answer)) : s.Deletes sel t := by
  unfold Delete at h
  split at h
  · cases h
  · rename_i m text hcomplete
    cases h
    obtain ⟨happs, hanswer⟩ := Manager.complete_delete hcomplete
    refine ⟨happs, fun name => ⟨fun hname => ?_, fun _ => rfl⟩, rfl, rfl⟩
    obtain ⟨snaps, hsnaps, -⟩ := mem_removedNames.mpr hname
    rw [hsnaps] at hanswer
    cases hanswer
  · rename_i m snaps hcomplete
    cases h
    obtain ⟨happs, hanswer⟩ := Manager.complete_delete hcomplete
    have hlimits : ∀ name, (unguard s.guard snaps).limits.get name =
        if name ∈ snaps.map (·.name) then none else s.guard.limits.get name := by
      intro name
      simp only [unguard, Guard.foldl_Remove_limits, List.mem_eraseDups]
    refine ⟨happs, fun name => ⟨fun hname => ?_, fun hname => ?_⟩, rfl, rfl⟩
    · obtain ⟨snaps', hsnaps, hmem⟩ := mem_removedNames.mpr hname
      rw [hsnaps] at hanswer
      cases hanswer
      exact (hlimits name).trans (if_pos hmem)
    · refine (hlimits name).trans (if_neg fun hmem => hname ?_)
      exact mem_removedNames.mp ⟨snaps, hanswer.symm, hmem⟩

theorem fleetDelete_deletes {s t : Service} {sel : String} {more : List Manager.Action}
    {answer : Answer} (h : s.fleetDelete sel more = some (t, answer)) : s.Deletes sel t := by
  unfold fleetDelete at h
  split at h
  · cases h
  · rename_i u answer' hdelete
    have hu := Delete_deletes hdelete
    simp only at h
    split at h <;> cases h <;> exact ⟨hu.apps, hu.limits, hu.logs, hu.policy⟩

theorem app_of_name {m : Manager} (hm : m.WellNamed) {a b : ManagedApp} (ha : a ∈ m.apps)
    (hb : b ∈ m.apps) (h : a.name = b.name) : a = b := by
  have hnames : (m.apps.map fun a => a.spec.name).Nodup := by
    simpa [Manager.Specs, List.map_map, Function.comp_def] using hm.names
  exact List.inj_on_of_nodup_map hnames ha hb (by rw [hm.spec a ha, hm.spec b hb, h])

section Deletion
variable {s t : Service} {sel : String} (hm : s.mgr.WellNamed) (hd : s.Deletes sel t)
include hm hd

/-- What is left after a deletion is there with its settings. -/
theorem Deletes.kept {a : ManagedApp} (ha : a ∈ s.mgr.apps) (hkept : s.mgr.unlinks sel a = false) :
    t.mgr.row t.logPolicyDefault a.name = some (settings s.logPolicyDefault a.spec) := by
  refine (Manager.row_eq_some (Manager.wellNamed_filter hm hd.apps)).mpr ⟨a, ?_, rfl, by rw [hd.policy]⟩
  rw [hd.apps, List.mem_filter, hkept]
  exact ⟨ha, rfl⟩

theorem Deletes.left {name : String} {r : Nat × Logs.Policy}
    (hr : t.mgr.row t.logPolicyDefault name = some r) : ∃ a ∈ s.mgr.apps,
      s.mgr.unlinks sel a = false ∧ a.name = name ∧ settings s.logPolicyDefault a.spec = r := by
  obtain ⟨a, ha, hname, hsettings⟩ :=
    (Manager.row_eq_some (Manager.wellNamed_filter hm hd.apps)).mp hr
  rw [hd.apps, List.mem_filter, Bool.not_eq_true'] at ha
  exact ⟨a, ha.1, ha.2, hname, hd.policy ▸ hsettings⟩

/-- Nothing is left under the name of an app that is taken out. -/
theorem Deletes.gone {a : ManagedApp} (ha : a ∈ s.mgr.apps) (hunlinks : s.mgr.unlinks sel a = true) :
    t.mgr.row t.logPolicyDefault a.name = none := by
  rw [Option.eq_none_iff_forall_ne_some]
  intro r hr
  obtain ⟨b, hb, hkept, hname, -⟩ := hd.left hm hr
  rw [app_of_name hm hb ha hname, hunlinks] at hkept
  cases hkept

/-- A limit that a deletion keeps for an app it takes out is no managed app's. -/
theorem Deletes.limit_removed (h : s.InStep) (ht : t.InStep) {a : ManagedApp} (ha : a ∈ s.mgr.apps)
    (hunlinks : s.mgr.unlinks sel a = true) (hpos : 0 < a.spec.maxMemoryRestart) :
    a ∈ s.mgr.selectedApps sel ∧ s.mgr.snapshotApp a ≠ [] := by
  by_cases hname : ∃ b ∈ s.mgr.selectedApps sel, b.name = a.name ∧ s.mgr.snapshotApp b ≠ []
  · obtain ⟨b, hb, hname, hsome⟩ := hname
    rw [← app_of_name hm (Server.mem_selectedApps hb).1 ha hname]
    exact ⟨hb, hsome⟩
  · have hlimit := ht.limit a.name
    rw [hd.gone hm ha hunlinks, (hd.limits a.name).2 hname, h.limit,
      (Manager.row_eq_some hm).mpr ⟨a, ha, rfl, rfl⟩] at hlimit
    have hheld := (@limitOf_eq_some _ a.spec.maxMemoryRestart).mpr ⟨rfl, hpos⟩
    exact absurd (hheld.symm.trans hlimit) (by simp)

/-- A name without a limit to be removed: what is held for it is what is left under it. -/
theorem Deletes.limit_left (h : s.InStep) (hall : ∀ a ∈ s.mgr.apps, s.mgr.unlinks sel a = true →
      0 < a.spec.maxMemoryRestart → a ∈ s.mgr.selectedApps sel ∧ s.mgr.snapshotApp a ≠ [])
    {name : String} (hname : ¬ ∃ b ∈ s.mgr.selectedApps sel, b.name = name ∧ s.mgr.snapshotApp b ≠ []) :
    s.guard.limits.get name = (t.mgr.row t.logPolicyDefault name).bind fun r => limitOf r.1 := by
  rw [h.limit]
  cases hr : s.mgr.row s.logPolicyDefault name with
  | none =>
    cases hr' : t.mgr.row t.logPolicyDefault name with
    | none => rfl
    | some r =>
      obtain ⟨a, ha, -, rfl, rfl⟩ := hd.left hm hr'
      rw [(Manager.row_eq_some hm).mpr ⟨a, ha, rfl, rfl⟩] at hr
      cases hr
  | some r =>
    obtain ⟨a, ha, rfl, rfl⟩ := (Manager.row_eq_some hm).mp hr
    cases hunlinks : s.mgr.unlinks sel a with
    | false => rw [hd.kept hm ha hunlinks]
    | true =>
      rw [hd.gone hm ha hunlinks]
      have hzero : a.spec.maxMemoryRestart = 0 := by
        by_contra hpos
        obtain ⟨hsel, hsome⟩ := hall a ha hunlinks (Nat.pos_of_ne_zero hpos)
        exact hname ⟨a, hsel, rfl, hsome⟩
      show limitOf a.spec.maxMemoryRestart = none
      rw [hzero]
      rfl

/-- A deletion leaves the tables wrong where it keeps the limit of an app it takes out. -/
theorem deletes_inStep (h : s.InStep) : t.InStep ↔ ∀ a ∈ s.mgr.apps, s.mgr.unlinks sel a = true →
    0 < a.spec.maxMemoryRestart → a ∈ s.mgr.selectedApps sel ∧ s.mgr.snapshotApp a ≠ [] := by
  constructor
  · intro ht a ha
    exact hd.limit_removed hm h ht ha
  · intro hall
    refine ⟨fun name => ?_, fun name r hr => ?_⟩
    · by_cases hname : ∃ b ∈ s.mgr.selectedApps sel, b.name = name ∧ s.mgr.snapshotApp b ≠ []
      · obtain ⟨b, hb, rfl, hsome⟩ := hname
        obtain ⟨hmem, hunlinks⟩ := Server.mem_selectedApps hb
        rw [(hd.limits b.name).1 ⟨b, hb, rfl, hsome⟩, hd.gone hm hmem hunlinks]
        rfl
      · rw [(hd.limits name).2 hname]
        exact hd.limit_left hm h hall hname
    · obtain ⟨a, ha, -, rfl, rfl⟩ := hd.left hm hr
      rw [hd.logs]
      exact h.policy a.name _ ((Manager.row_eq_some hm).mpr ⟨a, ha, rfl, rfl⟩)

end Deletion

/-! ### `Resurrect` and the start -/

/-- `Resurrect` leaves the tables wrong where it adds an app that needs other settings than those
that are set for its name. -/
theorem Resurrect_inStep {s : Service} (hm : s.mgr.WellNamed) (h : s.InStep) :
    s.Resurrect.1.mgr.WellNamed ∧ (s.Resurrect.1.InStep ↔ s.Keeps .Resurrect) := by
  unfold Resurrect Keeps
  cases hload : s.store.Load with
  | error text => exact ⟨hm, fun _ _ h => (by cases h), fun _ => h⟩
  | ok apps =>
    obtain ⟨hnamed, hrow⟩ := Manager.addAll_row hm s.logPolicyDefault apps
    refine ⟨hnamed, ?_⟩
    constructor
    · intro ht loaded hloaded app happ hfree
      cases hloaded
      have hnone : s.mgr.row s.logPolicyDefault app.name = none := by rw [Manager.row, hfree]; rfl
      have hsome := hrow app.name
      rw [hnone, happ, Option.none_or] at hsome
      have hlimit := (ht.limit app.name).symm.trans (h.limit app.name)
      rw [hnone, show Manager.row _ _ app.name = _ from hsome] at hlimit
      refine ⟨?_, ht.policy app.name _ hsome⟩
      by_contra hpos
      have := (@limitOf_eq_some _ app.maxMemoryRestart).mpr ⟨rfl, Nat.pos_of_ne_zero hpos⟩
      exact absurd (this.symm.trans hlimit) (by simp)
    · intro hall
      have hnew : ∀ name r, s.mgr.row s.logPolicyDefault name = none →
          (s.mgr.addAll apps).1.row s.logPolicyDefault name = some r →
          limitOf r.1 = none ∧ s.logs.policyFor (Manager.label name 0) = r.2 := by
        intro name r hnone hr
        rw [hrow, hnone, Option.none_or] at hr
        obtain ⟨app, happ, rfl⟩ := Option.map_eq_some_iff.mp hr
        obtain ⟨-, rfl⟩ := Keyed.mem_of_first happ
        obtain ⟨hzero, hpolicy⟩ := hall apps rfl app happ (Option.map_eq_none_iff.mp hnone)
        refine ⟨?_, hpolicy⟩
        show limitOf app.maxMemoryRestart = none
        rw [hzero]
        rfl
      have hold : ∀ name r, s.mgr.row s.logPolicyDefault name = some r →
          (s.mgr.addAll apps).1.row s.logPolicyDefault name = some r := by
        intro name r hr
        rw [hrow, hr, Option.some_or]
      refine ⟨fun name => ?_, fun name r hr => ?_⟩
      · rw [show Service.guard _ = s.guard from rfl, h.limit]
        show _ = Option.bind ((s.mgr.addAll apps).1.row s.logPolicyDefault name) _
        cases hr : s.mgr.row s.logPolicyDefault name with
        | some r => rw [hold name r hr]
        | none =>
          cases hr' : (s.mgr.addAll apps).1.row s.logPolicyDefault name with
          | none => rfl
          | some r => exact (hnew name r hr hr').1.symm
      · show s.logs.policyFor _ = r.2
        cases hr' : s.mgr.row s.logPolicyDefault name with
        | some r' =>
          rw [show Manager.row _ _ name = _ from hold name r' hr'] at hr
          cases hr
          exact h.policy name _ hr'
        | none => exact (hnew name r hr' hr).2

@[simp] theorem start_default (store : Store) (deployer : Deploy.Deployer) (policy : Logs.Policy) :
    (start store deployer policy).logPolicyDefault = policy := rfl

section Start
variable (store : Store) (deployer : Deploy.Deployer) (policy : Logs.Policy)

theorem start_limits (name : String) : (start store deployer policy).guard.limits.get name =
    ((named (savedApps store).reverse name).map fun app => limitOf app.maxMemoryRestart).getD none :=
  @Keyed.get_foldl _ _ _ App.name Guard _ (fun g app => g.SetLimit app.name app.maxMemoryRestart)
    (fun g name => g.limits.get name) (fun app => limitOf app.maxMemoryRestart)
    (fun g app name => g.SetLimit_limits app.name name app.maxMemoryRestart) (savedApps store) {} name

theorem start_policy (name : String) :
    (start store deployer policy).logs.policyFor (Manager.label name 0) =
      ((named (savedApps store).reverse name).map fun app => logPolicy app policy).getD policy := by
  refine @Keyed.get_foldl _ _ _ App.name Logs.Policies _
    (fun r app => r.SetPolicy app.name (logPolicy app policy))
    (fun r name => r.policyFor (Manager.label name 0)) (fun app => logPolicy app policy)
    (fun r app name => ?_) (savedApps store) _ name
  simp only [Logs.Policies.policyFor_SetPolicy, appName_label]

theorem start_row (name : String) : (start store deployer policy).mgr.row policy name =
    (named (savedApps store) name).map (settings policy) :=
  (Manager.addAll_row Manager.wellNamed_new policy (savedApps store)).2 name

/-- The tables are filled from the last entry of a name, the apps from its first. -/
theorem start_inStep : (start store deployer policy).InStep ↔ DumpAgrees policy (savedApps store) := by
  constructor
  · intro h first last hfirst hlast
    have hrow := start_row store deployer policy last.name
    rw [hfirst] at hrow
    refine Prod.ext (limitOf_inj ?_) ?_
    · have hlimit := (start_limits store deployer policy last.name).symm.trans (h.limit last.name)
      rw [hlast, start_default, hrow] at hlimit
      exact hlimit
    · have hpolicy := (start_policy store deployer policy last.name).symm.trans (h.policy last.name _ hrow)
      rw [hlast] at hpolicy
      exact hpolicy
  · intro hagree
    have hlast : ∀ name first, named (savedApps store) name = some first →
        ∃ last, named (savedApps store).reverse name = some last ∧
          settings policy last = settings policy first := by
      intro name first hfirst
      obtain ⟨hmem, rfl⟩ := Keyed.mem_of_first hfirst
      cases hlast : named (savedApps store).reverse first.name with
      | none => exact absurd rfl (Keyed.first_eq_none.mp hlast first (List.mem_reverse.mpr hmem))
      | some last =>
        have hname := (Keyed.mem_of_first hlast).2
        exact ⟨last, rfl, hagree first last (hname ▸ hfirst) (hname ▸ hlast)⟩
    refine ⟨fun name => ?_, fun name r hr => ?_⟩
    · rw [start_limits, start_default, start_row]
      cases hfirst : named (savedApps store) name with
      | none =>
        have hnone : named (savedApps store).reverse name = none := by
          refine Keyed.first_eq_none.mpr fun app happ => ?_
          exact Keyed.first_eq_none.mp hfirst app (List.mem_reverse.mp happ)
        rw [hnone]
        rfl
      | some first =>
        obtain ⟨last, hlast, heq⟩ := hlast name first hfirst
        rw [hlast]
        exact congrArg (fun r => limitOf r.1) heq
    · rw [start_default, start_row] at hr
      obtain ⟨first, hfirst, rfl⟩ := Option.map_eq_some_iff.mp hr
      obtain ⟨last, hlast, heq⟩ := hlast name first hfirst
      rw [start_policy, hlast]
      exact congrArg Prod.snd heq

end Start

/-! ### Runs -/

theorem inStep_Save (s : Service) (wrote : Bool) : (s.Save wrote).InStep ↔ s.InStep := by
  unfold Save
  split
  · exact ⟨fun h => ⟨h.limit, h.policy⟩, fun h => ⟨h.limit, h.policy⟩⟩
  · exact Iff.rfl

theorem persist_inStep (wrote : Bool) (r : Service × Answer) :
    (persist wrote r).mgr = r.1.mgr ∧ ((persist wrote r).InStep ↔ r.1.InStep) := by
  unfold persist
  split
  · exact ⟨Save_mgr r.1 wrote, inStep_Save r.1 wrote⟩
  · exact ⟨rfl, Iff.rfl⟩

theorem holds_Specs (s : Service) : s.Holds s.mgr.Specs := fun _ => rfl

theorem launch_inStep {s : Service} (hm : s.mgr.WellNamed) (h : s.InStep) (app : App) (wrote : Bool) :
    (s.launchApp app).1.InStep ↔ s.Keeps (.Launch app wrote) := by
  rw [launchApp_inStep hm h]
  unfold Keeps Manager.row
  simp only [Option.map_eq_some_iff, forall_exists_index, and_imp, forall_apply_eq_imp_iff₂]

/-- A step keeps the tables exactly where its rule is met. -/
theorem step_inStep {s t : Service} {a : Action} (hm : s.mgr.WellNamed) (h : s.InStep)
    (hstep : s.step a = some t) : t.mgr.WellNamed ∧ (t.InStep ↔ s.Keeps a) := by
  cases a with
  | Start specs =>
    simp only [step, Option.ite_none_right_eq_some, Option.some.injEq] at hstep
    obtain ⟨-, rfl⟩ := hstep
    exact doStart_inStep specs hm h s.holds_Specs
  | fleetStart specs wrote =>
    simp only [step, Option.ite_none_right_eq_some, Option.some.injEq] at hstep
    obtain ⟨-, rfl⟩ := hstep
    obtain ⟨hmgr, hiff⟩ := persist_inStep wrote (s.doStart specs)
    obtain ⟨hnamed, hstart⟩ := doStart_inStep specs hm h s.holds_Specs
    exact ⟨hmgr ▸ hnamed, hiff.trans hstart⟩
  | Launch app wrote =>
    simp only [step, Option.ite_none_right_eq_some, Option.some.injEq] at hstep
    obtain ⟨-, rfl⟩ := hstep
    obtain ⟨hmgr, hiff⟩ := persist_inStep wrote (s.launchApp app)
    exact ⟨hmgr ▸ Manager.wellNamed_Add hm app, hiff.trans (launch_inStep hm h app wrote)⟩
  | Resurrect =>
    simp only [step, Option.ite_none_right_eq_some, Option.some.injEq] at hstep
    obtain ⟨-, rfl⟩ := hstep
    exact Resurrect_inStep hm h
  | Delete sel more =>
    obtain ⟨r, hdelete, rfl⟩ := Option.map_eq_some_iff.mp hstep
    have hd := Delete_deletes hdelete
    exact ⟨Manager.wellNamed_filter hm hd.apps, deletes_inStep hm hd h⟩
  | fleetDelete sel more wrote =>
    obtain ⟨r, hdelete, rfl⟩ := Option.map_eq_some_iff.mp hstep
    have hd := fleetDelete_deletes hdelete
    obtain ⟨hmgr, hiff⟩ := persist_inStep wrote r
    exact ⟨hmgr ▸ Manager.wellNamed_filter hm hd.apps, hiff.trans (deletes_inStep hm hd h)⟩
  | Save wrote =>
    cases hstep
    exact ⟨Save_mgr s wrote ▸ hm, fun _ => trivial, fun _ => (inStep_Save s wrote).mpr h⟩
  | manager a =>
    simp only [step, Option.ite_none_right_eq_some] at hstep
    obtain ⟨hkeeps, hstep⟩ := hstep
    obtain ⟨m, hm', rfl⟩ := Option.map_eq_some_iff.mp hstep
    refine ⟨Manager.wellNamed_step hkeeps hm' hm, fun _ => trivial, fun _ => ⟨?_, ?_⟩⟩
    · intro name
      show _ = Option.bind (m.row s.logPolicyDefault name) _
      rw [Manager.row_step hkeeps hm']
      exact h.limit name
    · intro name r hr
      exact h.policy name r ((Manager.row_step hkeeps hm' _ name).symm.trans hr)
  | deployer d =>
    cases hstep
    exact ⟨hm, fun _ => trivial, fun _ => ⟨h.limit, h.policy⟩⟩

/-- **Limits and policies are those of the managed apps exactly as long as every operation sets
and removes them for the apps it takes in and out.** For every saved list, default policy and
sequence of operations, failed writes of the list included: in every state of the run the limits
and policies are those of the managed apps, if and only if an app that stands in the saved list
twice has the same settings in both places, every start or launch that is refused for a name is of
an app with the settings of the one that has the name, every app that `Resurrect` adds has no
limit and the policy that is set for its name, and every app with a limit that a deletion takes
out is a selected one with an instance. -/
theorem tables_track_apps (store : Store) (deployer : Deploy.Deployer) (policy : Logs.Policy)
    {as : List Action} {s : Service}
    (hrun : (machine store deployer policy).run (start store deployer policy) as = some s) :
    (∀ before after u, as = before ++ after →
      (machine store deployer policy).run (start store deployer policy) before = some u → u.Tracks) ↔
    DumpAgrees policy (savedApps store) ∧
      (machine store deployer policy).Along Keeps (start store deployer policy) as := by
  have hm : (start store deployer policy).mgr.WellNamed :=
    (Manager.addAll_row Manager.wellNamed_new policy (savedApps store)).1
  have hstart := start_inStep store deployer policy
  have hiff := fun h => (machine store deployer policy).along_iff (C := Keeps)
    (I := fun s => s.mgr.WellNamed ∧ s.InStep) (P := Tracks)
    (fun s hI => (tracks_iff hI.1).mpr hI.2)
    (fun s a t hC hI ht => ⟨(step_inStep hI.1 hI.2 ht).1, (step_inStep hI.1 hI.2 ht).2.mpr hC⟩)
    (fun s a t hC hI ht hP => hC ((step_inStep hI.1 hI.2 ht).2.mp
      ((tracks_iff (step_inStep hI.1 hI.2 ht).1).mp hP)))
    (s := start store deployer policy) ⟨hm, hstart.mpr h⟩ hrun
  constructor
  · intro hP
    have hagree := hstart.mp ((tracks_iff hm).mp (hP [] as _ rfl rfl))
    exact ⟨hagree, (hiff hagree).mp hP⟩
  · intro h
    exact (hiff h.1).mpr h.2

def noDeploys : Deploy.Deployer := { deployRoot := Deploy.homeDeploys, disk := .ofDirs [] }

/-- An app with a limit is started, deleted with its instance, and started without a limit. -/
def limitDropped : List Action :=
  [.Start [{ name := "web", cmd := "./web", maxMemoryRestart := 100 }],
    .Delete "web" [.exec, .worker 0 (.spawn 1 10), .worker 0 .next, .worker 0 (.childExit none),
      .worker 0 .reap, .worker 0 .next, .worker 0 .next, .exec, .exec],
    .fleetStart [{ name := "web", cmd := "./web" }] true]

theorem tables_track_limitDropped : ∃ s, (machine {} noDeploys Logs.DefaultPolicy).run
      (start {} noDeploys Logs.DefaultPolicy) limitDropped = some s ∧ s.Tracks := by
  refine ⟨_, rfl, (tables_track_apps {} noDeploys Logs.DefaultPolicy rfl).mpr ⟨?_, ?_⟩ limitDropped [] _
    (List.append_nil _).symm rfl⟩
  · intro first last hfirst
    cases hfirst
  · refine .intro ?_ (.intro ?_ (.intro ?_ trivial))
    · intro holder app hclash
      cases hclash
    · intro a ha _ _
      cases List.mem_singleton.mp ha
      exact ⟨by decide, by decide⟩
    · intro holder app hclash
      cases hclash

/-- A second start under a name is refused and leaves its limit to the app that has the name. -/
theorem limit_of_refused : ¬ ∀ (store : Store) (deployer : Deploy.Deployer) (policy : Logs.Policy)
    (as : List Action) (s : Service),
    (machine store deployer policy).run (start store deployer policy) as = some s → s.Tracks := by
  intro h
  have ht := h {} noDeploys Logs.DefaultPolicy
    [.Start [{ name := "web", cmd := "./web", maxMemoryRestart := 100 }],
      .Start [{ name := "web", cmd := "./web", maxMemoryRestart := 200 }]] _ rfl
  obtain ⟨app, happ, -, hlimit, -⟩ := (ht.limits "web" 200).mp rfl
  cases List.mem_singleton.mp happ
  cases hlimit

end Service
end Marshal.Daemon
