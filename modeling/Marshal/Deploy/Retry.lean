import Marshal.Deploy.Exclusion
import Marshal.Lib.System

/-! What a failed operation leaves behind.

`busy` is an entry in `states`, whatever its phase. A job that comes to its end deletes
the entry, unless it failed: then the entry stays, in phase `failed`, and keeps every
further `Redeploy` and `Commit` of the app out until the app is forgotten. -/
namespace Marshal.Deploy
open Config

/-- The job is about to end; `true` if its operation failed. A commit clears its entry either
way. -/
def Job.ends (j : Job) : Option Bool :=
  match j.pc with
  | .launched | .pushed _ => some false
  | .failing _ _ => some true
  | _ => none

namespace Jobs

/-! ### How the app's operations ended -/

/-- What a step adds: an operation of the app that ends, or the app forgotten. -/
def outcome (name : String) (failed : Bool) (s : Jobs) : Action → Bool
  | .forget name' => if name' = name then false else failed
  | .job k _ => match s.jobs[k]? with
    | some j => if j.name = name then j.ends.getD failed else failed
    | none => failed
  | _ => failed

/-- The operation of the app that ended last failed, and the app was not forgotten since. -/
def failedLast (name : String) (s : Jobs) (as : List Action) : Bool :=
  machine.record (outcome name) false s as

/-- No operation of the app is between its busy check and its end. -/
def Idle (s : Jobs) (name : String) : Prop := ∀ j ∈ s.jobs, j.active = true → j.name ≠ name

instance (s : Jobs) (name : String) : Decidable (s.Idle name) :=
  inferInstanceAs (Decidable (∀ j ∈ s.jobs, _))

/-- The call gets past its checks. -/
def accepts (s : Jobs) (a : Action) : Bool :=
  match machine.run s [a, .job s.jobs.length .ok] with
  | none => false
  | some t => match t.jobs[s.jobs.length]? with
    | some j => j.taken
    | none => false

/-! ### Who finds the app busy -/

theorem step_job {s t : Jobs} {k : Nat} {j : Job} {e : Event} {pc : Pc} (hget : s.jobs[k]? = some j)
    (hadv : s.advance j j.pc e = some (t, pc)) : s.step (.job k e) = some (t.put k j pc) := by
  simp only [step, hget, Option.bind_eq_bind, Option.bind_some, hadv]
  rfl

theorem accepts_of_call {s : Jobs} {a : Action} (kind : Kind)
    (h : s.step a = some (s.call kind .check)) :
    s.accepts a = (s.deployer.states.get kind.name).isNone := by
  have hget : (s.call kind .check).jobs[s.jobs.length]? = some ⟨kind, .check⟩ := by
    show (s.jobs ++ [_])[_]? = _
    rw [List.getElem?_concat_length]
  have hrun : machine.run s [a, .job s.jobs.length .ok] =
      (s.call kind .check).step (.job s.jobs.length .ok) := by
    simp only [Transition.System.run, machine, h]
    cases (s.call kind .check).step (.job s.jobs.length .ok) <;> rfl
  have hadv : (s.call kind .check).advance ⟨kind, .check⟩ .check .ok =
      if (s.deployer.states.get kind.name).isSome
      then some (s.call kind .check, .refused (busyText kind))
      else some ((s.call kind .check).setState kind.name (mark kind).1 "", (mark kind).2) := rfl
  unfold accepts
  cases hfree : s.deployer.states.get kind.name with
  | none =>
    rw [hfree, if_neg (by simp)] at hadv
    have hself : (((s.call kind .check).setState kind.name (mark kind).1 "").put s.jobs.length
        ⟨kind, .check⟩ (mark kind).2).jobs[s.jobs.length]? = some ⟨kind, (mark kind).2⟩ :=
      put_self hget rfl
    simp only [hrun, step_job hget hadv, hself]
    cases kind <;> rfl
  | some st =>
    rw [hfree, if_pos Option.isSome_some] at hadv
    simp only [hrun, step_job hget hadv, put_self hget rfl]
    rfl

theorem accepts_redeploy {s : Jobs} {name : String} {src : GitSource}
    (hgit : checkSource (s.managed.get name).join notGit = .ok src) :
    s.accepts (.redeploy name) = (s.deployer.states.get name).isNone := by
  apply accepts_of_call (.redeploy name)
  simp only [step, Redeploy, hgit]

theorem accepts_commit {s : Jobs} {name : String} {src : GitSource} {dir : List String}
    (hgit : checkSource (s.managed.get name).join notGit = .ok src)
    (hroot : s.deployer.Root name = some dir) :
    s.accepts (.commit name) = (s.deployer.states.get name).isNone := by
  apply accepts_of_call (.commit name)
  simp only [step, Commit]
  cases hsrc : (s.managed.get name).join with
  | none => simp [checkSource, hsrc] at hgit
  | some src' =>
    have hrepo : src'.repo ≠ "" := by
      intro hempty
      simp [checkSource, hsrc, hempty] at hgit
    simp only [if_neg hrepo, hroot]

/-! ### What an operation leaves -/

/-- The step that ends an operation leaves the entry exactly if the operation failed. -/
theorem busy_of_ends {s t : Jobs} {j : Job} {e : Event} {pc : Pc}
    (h : s.advance j j.pc e = some (t, pc)) {failed : Bool} (hends : j.ends = some failed) :
    t.busy j.name ↔ failed = true := by
  obtain ⟨kind, at_⟩ := j
  cases at_ with
  | launched | pushed =>
    cases hends
    cases e <;> cases h
    simp [busy, clearState_get]
  | failing =>
    cases hends
    cases e <;> cases h
    simp [busy, setState_get]
  | check | refused | started | credential | wipe | fetch | fetched | build | launch | push | done =>
    cases hends

/-- A job that is not at its end stays active. -/
theorem active_of_not_ends {s t : Jobs} {j : Job} {e : Event} {pc : Pc}
    (h : s.advance j j.pc e = some (t, pc)) (hends : j.ends = none) (hactive : j.active = true) :
    Job.active ⟨j.kind, pc⟩ = true := by
  obtain ⟨kind, at_⟩ := j
  cases at_ with
  | check | refused | done => cases hactive
  | launched | pushed | failing => cases hends
  | started | wipe | fetched => cases e <;> cases h; rfl
  | push => cases e <;> cases h; rfl
  | credential =>
    cases e with
    | ok =>
      cases h
      cases kind <;> rfl
    | fail err =>
      cases h
      rfl
    | ran => cases h
  | fetch | build =>
    cases e with
    | ran disk err => cases err <;> cases h <;> rfl
    | ok | fail => cases h <;> rfl
  | launch =>
    cases kind with
    | fresh app =>
      cases e with
      | ok =>
        simp only [advance, Launch] at h
        split at h <;> cases h <;> rfl
      | fail | ran => cases h
    | redeploy | commit => cases e <;> cases h <;> rfl

/-- An operation of the app is under way, or its entry tells how the last one ended. -/
def Settled (name : String) (failed : Bool) (s : Jobs) : Prop :=
  (∃ k, s.holds k = some name) ∨ (s.busy name ↔ failed = true)

theorem settled_of_same {name : String} {failed : Bool} {s t : Jobs} (hs : Settled name failed s)
    (hholds : ∀ k, s.holds k = some name → t.holds k = some name)
    (hstates : t.deployer.states.get name = s.deployer.states.get name) : Settled name failed t := by
  rcases hs with ⟨k, hk⟩ | hbusy
  · exact .inl ⟨k, hholds k hk⟩
  · refine .inr ?_
    rw [busy, hstates]
    exact hbusy

theorem settled_call {name : String} {failed : Bool} {s : Jobs} (hs : Settled name failed s) (kind : Kind)
    (pc : Pc) : Settled name failed (s.call kind pc) := by
  refine settled_of_same hs ?_ rfl
  intro k hk
  obtain ⟨j, hget, hactive, rfl⟩ := holds_some hk
  exact holds_of_active (Growing.keep hget) hactive

theorem advance_others {s t : Jobs} {j : Job} {pc : Pc} (h : Advances s j t pc) {name : String}
    (hne : name ≠ j.name) : t.deployer.states.get name = s.deployer.states.get name := by
  cases h with
  | refuse | launch => rfl
  | take => rw [setState_get, if_neg hne]
  | goOn _ _ _ _ _ _ hothers | finish _ _ _ hothers => exact hothers name hne

theorem advance_jobs {s t : Jobs} {j : Job} {pc : Pc} (h : Advances s j t pc) : t.jobs = s.jobs := by
  cases h with
  | refuse | take | launch => rfl
  | goOn _ _ _ hjobs | finish _ hjobs => exact hjobs

theorem settled_job {name : String} {failed : Bool} {s t : Jobs} {k : Nat} {e : Event}
    (hs : Settled name failed s) (h : s.step (.job k e) = some t) :
    Settled name (outcome name failed s (.job k e)) t := by
  obtain ⟨j, u, pc, hget, hadv, rfl⟩ := job_advance h
  have hjobs := advance_jobs (advances_of_advance hadv)
  simp only [outcome, hget]
  by_cases hname : j.name = name
  · subst hname
    rw [if_pos rfl]
    cases hends : j.ends with
    | some ended => exact .inr (busy_of_ends hadv hends)
    | none =>
      cases hactive : j.active with
      | true =>
        refine .inl ⟨k, ?_⟩
        rw [holds_put_self hget hjobs, if_pos (active_of_not_ends hadv hends hactive)]
      | false =>
        cases advances_of_advance hadv with
        | refuse hpc =>
          refine settled_of_same hs ?_ rfl
          intro i hi
          by_cases hik : i = k
          · subst hik
            simp [holds, hget, hactive] at hi
          · rwa [holds_put_other hik rfl]
        | take hpc hfree =>
          refine .inl ⟨k, ?_⟩
          rw [holds_put_self hget hjobs, if_pos]
          cases j.kind <;> rfl
        | goOn hactive' | launch hactive' | finish hactive' =>
          rw [hactive] at hactive'
          cases hactive'
  · rw [if_neg hname]
    refine settled_of_same hs ?_ (advance_others (advances_of_advance hadv) (Ne.symm hname))
    intro i hi
    by_cases hik : i = k
    · subst hik
      obtain ⟨j', hget', -, hname'⟩ := holds_some hi
      obtain rfl : j = j' := Option.some.inj (hget.symm.trans hget')
      exact absurd hname' hname
    · rwa [holds_put_other hik hjobs]

theorem settled_step {name : String} {failed : Bool} {s t : Jobs} {a : Action}
    (hs : Settled name failed s) (h : s.step a = some t) :
    Settled name (outcome name failed s a) t := by
  cases a with
  | start | redeploy | commit =>
    cases h
    exact settled_call hs _ _
  | job k e => exact settled_job hs h
  | forget name' =>
    cases h
    by_cases hname : name' = name
    · subst hname
      refine .inr ?_
      simp [outcome, busy, Deployer.Forget]
    · rw [outcome, if_neg hname]
      refine settled_of_same hs (fun _ hk => hk) ?_
      exact (s.deployer.states.get_del name' name).trans (if_neg (Ne.symm hname))
  | hostAdd | hostDelete =>
    cases h
    exact settled_of_same hs (fun _ hk => hk) rfl

/-- With no operation under way the app is busy exactly if the last one failed. -/
theorem busy_iff_failed {s t : Jobs} {as : List Action} {name : String} (hs : machine.init s)
    (hrun : machine.run s as = some t) (hidle : t.Idle name) :
    t.busy name ↔ failedLast name s as = true := by
  have hinit : Settled name false s := .inr (by simp [busy, hs.2])
  have hsettled := machine.record_invariant (outcome name) (fun _ _ _ _ hI h => settled_step hI h) hinit hrun
  rcases hsettled with ⟨k, hk⟩ | hbusy
  · obtain ⟨j, hget, hactive, hname⟩ := holds_some hk
    exact absurd hname (hidle j (List.mem_of_getElem? hget) hactive)
  · exact hbusy

/-! ### The result -/

/-- **An app can be deployed anew unless its last operation failed.** In every state reached by a
new deployer, over any disk and any host, in which no operation of a managed git app is under way:
`Redeploy` and, where the app's directory exists, `Commit` are accepted exactly if the operation of
the app that ended last did not fail or the app was forgotten since. -/
theorem accepted_iff {s t : Jobs} {as : List Action} {name : String} {src : GitSource}
    (hs : machine.init s) (hrun : machine.run s as = some t) (hidle : t.Idle name)
    (hgit : checkSource (t.managed.get name).join notGit = .ok src) :
    (t.accepts (.redeploy name) = true ↔ failedLast name s as = false) ∧
    (t.deployer.Root name ≠ none →
      (t.accepts (.commit name) = true ↔ failedLast name s as = false)) := by
  have hfree : (t.deployer.states.get name).isNone = true ↔ failedLast name s as = false := by
    rw [← Bool.not_eq_true, ← busy_iff_failed hs hrun hidle, busy, not_not, Option.isNone_iff_eq_none]
  refine ⟨?_, ?_⟩
  · rw [accepts_redeploy hgit]
    exact hfree
  · intro hroot
    obtain ⟨dir, hdir⟩ := Option.ne_none_iff_exists'.mp hroot
    rw [accepts_commit hgit hdir]
    exact hfree

/-- The disk once `web` is cloned. -/
def cloned : Disk := .ofDirs [["home", "marshal", "deploys", "web"]]

/-- A redeploy of `web` whose build fails. -/
def badBuild : List Action :=
  .start web :: deploys 0 cloned ++
    [.redeploy "web", .job 1 .ok, .job 1 .ok, .job 1 .ok, .job 1 (.ran cloned none), .job 1 .ok,
      .job 1 (.ran cloned (some "exit status 1")), .job 1 .ok]

theorem accepted_deployed :
    ∃ t, machine.run fresh (.start web :: deploys 0 cloned) = some t ∧
      (t.accepts (.redeploy "web") = true ↔
        failedLast "web" fresh (.start web :: deploys 0 cloned) = false) ∧
      (t.deployer.Root "web" ≠ none → (t.accepts (.commit "web") = true ↔
        failedLast "web" fresh (.start web :: deploys 0 cloned) = false)) :=
  ⟨_, rfl, @accepted_iff fresh _ (.start web :: deploys 0 cloned) "web" _ ⟨rfl, rfl⟩ rfl (by decide) rfl⟩

/-- After a failed redeploy nothing runs, and yet neither a redeploy nor a commit is accepted. -/
theorem failed_redeploy_blocks :
    ¬ ∀ s t as name src, machine.init s → machine.run s as = some t → t.Idle name →
      checkSource (t.managed.get name).join notGit = .ok src →
      t.accepts (.redeploy name) = true ∧
        (t.deployer.Root name ≠ none → t.accepts (.commit name) = true) := by
  intro h
  exact absurd (h fresh _ badBuild "web" _ ⟨rfl, rfl⟩ rfl (by decide) rfl).1 (by decide)

end Jobs
end Marshal.Deploy
