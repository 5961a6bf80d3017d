import Marshal.Deploy.Jobs
import Marshal.Lib.BusyFlag

/-! One git operation per app, where calls keep out of each other's way.

An entry in `states` keeps a second operation out until it is deleted. `Forget` deletes
it whoever holds it, and a `Start` may have asked the host about the app long before it
takes the entry. As long as neither matters (`InOrder`), every operation holds its
app alone, and a fresh deploy only removes directories of apps that nobody manages. -/
namespace Marshal.Deploy
open Config

namespace Jobs

/-! ### What a step of a job can do -/

inductive Advances (s : Jobs) (j : Job) : Jobs → Pc → Prop
  | refuse {text : String} (hpc : j.pc = .check) (hbusy : s.deployer.states.get j.name ≠ none) :
    Advances s j s (.refused text)
  | take (hpc : j.pc = .check) (hfree : s.deployer.states.get j.name = none) :
    Advances s j (s.setState j.name (mark j.kind).1 "") (mark j.kind).2
  | goOn {t : Jobs} {pc : Pc} (hactive : j.active = true) (hnext : Job.active ⟨j.kind, pc⟩ = true)
      (hwipes : Job.wipes ⟨j.kind, pc⟩ = true → j.wipes = true) (hjobs : t.jobs = s.jobs)
      (hmanaged : t.managed = s.managed) (hself : s.deployer.states.get j.name ≠ none →
        t.deployer.states.get j.name ≠ none)
      (hothers : ∀ name, name ≠ j.name →
        t.deployer.states.get name = s.deployer.states.get name) : Advances s j t pc
  | launch {app : App} (hactive : j.active = true) (hkind : j.kind = .fresh app) :
    Advances s j { s with managed := s.managed.set app.name app.source } .launched
  | finish {t : Jobs} (hactive : j.active = true) (hjobs : t.jobs = s.jobs)
      (hmanaged : t.managed = s.managed) (hothers : ∀ name, name ≠ j.name →
        t.deployer.states.get name = s.deployer.states.get name) : Advances s j t .done

theorem setState_get (s : Jobs) (name : String) (phase : DeployPhase) (detail name' : String) :
    (s.setState name phase detail).deployer.states.get name' =
      if name' = name then some ⟨phase, detail⟩ else s.deployer.states.get name' :=
  s.deployer.states.get_set name name' _

theorem clearState_get (s : Jobs) (name name' : String) :
    (s.clearState name).deployer.states.get name' =
      if name' = name then none else s.deployer.states.get name' :=
  s.deployer.states.get_del name name'

/-- A state of the job's own app is put down. -/
theorem advances_setState {s : Jobs} {j : Job} {pc : Pc} {phase : DeployPhase}
    (hactive : j.active = true) (hnext : Job.active ⟨j.kind, pc⟩ = true)
    (hwipes : Job.wipes ⟨j.kind, pc⟩ = true → j.wipes = true) :
    Advances s j (s.setState j.name phase "") pc := by
  refine .goOn hactive hnext hwipes rfl rfl ?_ ?_
  · intro _
    simp [setState_get]
  · intro name hne
    simp [setState_get, hne]

/-- The states stay as they are. -/
theorem advances_same {s t : Jobs} {j : Job} {pc : Pc} (hactive : j.active = true)
    (hnext : Job.active ⟨j.kind, pc⟩ = true)
    (hwipes : Job.wipes ⟨j.kind, pc⟩ = true → j.wipes = true) (hjobs : t.jobs = s.jobs)
    (hmanaged : t.managed = s.managed) (hstates : t.deployer.states = s.deployer.states) :
    Advances s j t pc :=
  .goOn hactive hnext hwipes hjobs hmanaged (by rw [hstates]; exact id) (by simp [hstates])

theorem advances_of_advance {s t : Jobs} {j : Job} {e : Event} {pc : Pc}
    (h : s.advance j j.pc e = some (t, pc)) : Advances s j t pc := by
  obtain ⟨kind, at_⟩ := j
  cases at_ with
  | check =>
    cases e with
    | ok =>
      simp only [advance] at h
      split at h <;> cases h
      · rename_i hbusy
        exact .refuse rfl (by simpa [Option.isSome_iff_ne_none] using hbusy)
      · rename_i hfree
        exact .take rfl (by simpa using hfree)
    | fail | ran => cases h
  | refused | done => cases e <;> cases h
  | started =>
    cases e with
    | ok =>
      cases h
      exact advances_setState rfl rfl (by cases kind <;> simp [Job.wipes])
    | fail | ran => cases h
  | credential =>
    cases e with
    | ok =>
      cases h
      cases kind <;> exact advances_same rfl rfl (by simp [Job.wipes]) rfl rfl rfl
    | fail err =>
      cases h
      exact advances_same rfl rfl (by simp [Job.wipes]) rfl rfl rfl
    | ran => cases h
  | wipe =>
    cases e with
    | ok =>
      cases h
      exact advances_same rfl rfl (by simp [Job.wipes]) rfl rfl rfl
    | fail | ran => cases h
  | fetch =>
    cases e with
    | ran disk err =>
      cases err <;> cases h <;> exact advances_same rfl rfl (by simp [Job.wipes]) rfl rfl rfl
    | ok | fail => cases h
  | fetched =>
    cases e with
    | ok =>
      cases h
      exact advances_setState rfl rfl (by simp [Job.wipes])
    | fail | ran => cases h
  | build =>
    cases e with
    | ran disk err =>
      cases err <;> cases h <;> exact advances_same rfl rfl (by simp [Job.wipes]) rfl rfl rfl
    | ok =>
      cases h
      exact advances_same rfl rfl (by simp [Job.wipes]) rfl rfl rfl
    | fail => cases h
  | launch =>
    cases e with
    | ok =>
      cases kind with
      | fresh app =>
        simp only [advance, Launch] at h
        split at h <;> cases h
        · exact advances_same rfl rfl (by simp [Job.wipes]) rfl rfl rfl
        · exact .launch rfl rfl
      | redeploy name | commit name =>
        cases h
        exact advances_same rfl rfl (by simp [Job.wipes]) rfl rfl rfl
    | fail err =>
      cases kind with
      | fresh app => cases h
      | redeploy name | commit name =>
        cases h
        exact advances_same rfl rfl (by simp [Job.wipes]) rfl rfl rfl
    | ran => cases h
  | launched =>
    cases e with
    | ok =>
      cases h
      refine .finish rfl rfl rfl ?_
      intro name hne
      rw [clearState_get, if_neg hne]
    | fail | ran => cases h
  | failing stage err =>
    cases e with
    | ok =>
      cases h
      refine .finish rfl rfl rfl ?_
      intro name hne
      rw [setState_get, if_neg hne]
    | fail | ran => cases h
  | push =>
    cases e with
    | ran disk err =>
      cases h
      exact advances_same rfl rfl (by simp [Job.wipes]) rfl rfl rfl
    | ok | fail => cases h
  | pushed err =>
    cases e with
    | ok =>
      cases h
      refine .finish rfl rfl rfl ?_
      intro name hne
      rw [clearState_get, if_neg hne]
    | fail | ran => cases h

/-! ### The invariant -/

/-- The app a job holds. -/
def holds (s : Jobs) (k : Nat) : Option String :=
  (s.jobs[k]?).bind fun j => if j.active then some j.name else none

def busy (s : Jobs) (name : String) : Prop := s.deployer.states.get name ≠ none

/-- Every active job holds its app alone, and a fresh deploy about to remove the old directory
finds the app unmanaged. -/
structure Orderly (s : Jobs) : Prop where
  exclusive : BusyFlag.Exclusive s.holds s.busy
  unmanaged : ∀ (k : Nat) (j : Job), s.jobs[k]? = some j → j.wipes = true →
    s.managed.get j.name = none

/-- A `Start` that finds its app free finds it unmanaged as well. -/
def checksBoth (s : Jobs) (k : Nat) : Bool :=
  match s.jobs[k]? with
  | some ⟨.fresh app, .check⟩ =>
    (s.deployer.states.get app.name).isSome || (s.managed.get app.name).isNone
  | _ => true

/-- The calls keep out of each other's way: nothing is forgotten while an operation of its name
is active, a `Start` that takes its app still finds it unmanaged, and the host takes in no app
that a fresh deploy is about to clone. -/
def InOrder (s : Jobs) : Action → Prop
  | .forget name => ∀ j ∈ s.jobs, j.active = true → j.name ≠ name
  | .job k _ => s.checksBoth k = true
  | .hostAdd name _ => ∀ j ∈ s.jobs, j.wipes = true → j.name ≠ name
  | _ => True

instance (s : Jobs) : (a : Action) → Decidable (InOrder s a)
  | .forget _ | .hostAdd _ _ => inferInstanceAs (Decidable (∀ j ∈ s.jobs, _ → _))
  | .job _ _ => inferInstanceAs (Decidable (_ = _))
  | .start _ | .redeploy _ | .commit _ | .hostDelete _ => isTrue trivial

theorem active_of_wipes {j : Job} (h : j.wipes = true) : j.active = true := by
  obtain ⟨kind, pc⟩ := j
  cases kind with
  | fresh app => cases pc <;> first | rfl | cases h
  | redeploy | commit => cases h

theorem holds_of_active {s : Jobs} {k : Nat} {j : Job} (hget : s.jobs[k]? = some j)
    (hactive : j.active = true) : s.holds k = some j.name := by
  simp [holds, hget, hactive]

theorem holds_some {s : Jobs} {k : Nat} {name : String} (h : s.holds k = some name) :
    ∃ j, s.jobs[k]? = some j ∧ j.active = true ∧ j.name = name := by
  obtain ⟨j, hget, hj⟩ := Option.bind_eq_some_iff.mp h
  simp only [Option.ite_none_right_eq_some, Option.some.injEq] at hj
  exact ⟨j, hget, hj.1, hj.2⟩

/-! ### Calls -/

/-- A call that has not got past the busy check is no holder. -/
theorem orderly_call {s : Jobs} (hs : Orderly s) (kind : Kind) {pc : Pc}
    (hactive : Job.active ⟨kind, pc⟩ = false) : Orderly (s.call kind pc) := by
  have hget : ∀ {k : Nat} {j : Job}, (s.call kind pc).jobs[k]? = some j → j.active = true →
      s.jobs[k]? = some j := by
    intro k j hget hj
    rcases Growing.old_or_new hget with hold | ⟨-, rfl⟩
    · exact hold
    · rw [hactive] at hj
      cases hj
  refine ⟨hs.exclusive.mono ?_ fun _ _ _ hb => hb, ?_⟩
  · intro k name hk
    obtain ⟨j, hj, hactive, rfl⟩ := holds_some hk
    exact holds_of_active (hget hj hactive) hactive
  · intro k j hj hwipes
    exact hs.unmanaged k j (hget hj (active_of_wipes hwipes)) hwipes

theorem orderly_start {s : Jobs} (hs : Orderly s) (app : App) : Orderly (s.Start app) := by
  apply orderly_call hs
  split
  · rfl
  · split <;> rfl

theorem orderly_redeploy {s : Jobs} (hs : Orderly s) (name : String) : Orderly (s.Redeploy name) := by
  apply orderly_call hs
  split <;> rfl

theorem orderly_commit {s : Jobs} (hs : Orderly s) (name : String) : Orderly (s.Commit name) := by
  apply orderly_call hs
  split
  · rfl
  · split
    · rfl
    · split <;> rfl

/-! ### Steps of jobs -/

/-- The state after a job's step. -/
def put (t : Jobs) (k : Nat) (j : Job) (pc : Pc) : Jobs :=
  { t with jobs := t.jobs.set k { j with pc := pc } }

section Put
variable {s t : Jobs} {k : Nat} {j : Job} {pc : Pc}

theorem put_self (hget : s.jobs[k]? = some j) (hjobs : t.jobs = s.jobs) :
    (t.put k j pc).jobs[k]? = some { j with pc := pc } := by
  have hlt : k < s.jobs.length := (List.getElem?_eq_some_iff.mp hget).1
  simp [put, hjobs, hlt]

theorem put_other {i : Nat} (hne : i ≠ k) (hjobs : t.jobs = s.jobs) :
    (t.put k j pc).jobs[i]? = s.jobs[i]? := by
  show (t.jobs.set k _)[i]? = _
  rw [List.getElem?_set_ne (Ne.symm hne), hjobs]

theorem holds_put_self (hget : s.jobs[k]? = some j) (hjobs : t.jobs = s.jobs) :
    (t.put k j pc).holds k = if Job.active ⟨j.kind, pc⟩ then some j.name else none := by
  simp only [holds, put_self hget hjobs, Option.bind_some]
  rfl

theorem holds_put_other {i : Nat} (hne : i ≠ k) (hjobs : t.jobs = s.jobs) :
    (t.put k j pc).holds i = s.holds i := by
  simp only [holds, put_other hne hjobs]

/-- The jobs about to wipe are the same or fewer. -/
theorem wipes_put (hget : s.jobs[k]? = some j) (hjobs : t.jobs = s.jobs)
    (hwipes : Job.wipes ⟨j.kind, pc⟩ = true → j.wipes = true) {i : Nat} {j' : Job}
    (hi : (t.put k j pc).jobs[i]? = some j') (hj' : j'.wipes = true) :
    ∃ j'', s.jobs[i]? = some j'' ∧ j''.wipes = true ∧ j''.name = j'.name := by
  by_cases hik : i = k
  · subst hik
    rw [put_self hget hjobs] at hi
    cases hi
    exact ⟨j, hget, hwipes hj', rfl⟩
  · rw [put_other hik hjobs] at hi
    exact ⟨j', hi, hj', rfl⟩

/-- What a job holds after a step, it held before, if it was active already. -/
theorem holds_of_put (hget : s.jobs[k]? = some j) (hjobs : t.jobs = s.jobs)
    (hactive : Job.active ⟨j.kind, pc⟩ = true → j.active = true) {i : Nat} {name : String}
    (hi : (t.put k j pc).holds i = some name) : s.holds i = some name := by
  by_cases hik : i = k
  · subst hik
    rw [holds_put_self hget hjobs] at hi
    simp only [Option.ite_none_right_eq_some, Option.some.injEq] at hi
    rw [← hi.2]
    exact holds_of_active hget (hactive hi.1)
  · rwa [holds_put_other hik hjobs] at hi

/-- Where the host's apps stay as they are, so does what a fresh deploy finds. -/
theorem unmanaged_put (hs : Orderly s) (hget : s.jobs[k]? = some j) (hjobs : t.jobs = s.jobs)
    (hmanaged : t.managed = s.managed) (hwipes : Job.wipes ⟨j.kind, pc⟩ = true → j.wipes = true)
    (i : Nat) (j' : Job) (hi : (t.put k j pc).jobs[i]? = some j') (hj' : j'.wipes = true) :
    (t.put k j pc).managed.get j'.name = none := by
  obtain ⟨j'', hj'', hw, hname⟩ := wipes_put hget hjobs hwipes hi hj'
  show t.managed.get _ = none
  rw [hmanaged, ← hname]
  exact hs.unmanaged i j'' hj'' hw

end Put

section Steps
variable {s t : Jobs} {k : Nat} {j : Job} {pc : Pc}

theorem orderly_refuse (hs : Orderly s) (hget : s.jobs[k]? = some j) (text : String) :
    Orderly (s.put k j (.refused text)) := by
  refine ⟨hs.exclusive.mono ?_ fun _ _ _ hb => hb, unmanaged_put hs hget rfl rfl ?_⟩
  · intro i name hi
    exact holds_of_put hget rfl (fun h => by cases h) hi
  · intro hwipes
    cases hkind : j.kind <;> rw [hkind] at hwipes <;> cases hwipes

/-- The app is taken. A `Start` has found it unmanaged. -/
theorem orderly_take {e : Event} (hs : Orderly s) (horder : InOrder s (.job k e))
    (hget : s.jobs[k]? = some j) (hpc : j.pc = .check)
    (hfree : s.deployer.states.get j.name = none) :
    Orderly ((s.setState j.name (mark j.kind).1 "").put k j (mark j.kind).2) := by
  have hactive : Job.active ⟨j.kind, (mark j.kind).2⟩ = true := by
    cases j.kind <;> rfl
  have hjobs : (s.setState j.name (mark j.kind).1 "").jobs = s.jobs := rfl
  refine ⟨?_, ?_⟩
  · apply hs.exclusive.acquire (i := k) (k := j.name) (fun hb => hb hfree)
    · rw [holds_put_self hget hjobs, if_pos hactive]
    · exact fun i hik => holds_put_other hik hjobs
    · show (s.setState _ _ _).deployer.states.get _ ≠ none
      simp [setState_get]
    · intro name hb
      show (s.setState _ _ _).deployer.states.get _ ≠ none
      rw [setState_get]
      split
      · simp
      · exact hb
  · intro i j' hi hj'
    by_cases hik : i = k
    · subst hik
      rw [put_self hget hjobs] at hi
      cases hi
      show s.managed.get j.name = none
      obtain ⟨kind, at_⟩ := j
      cases kind with
      | fresh app =>
        obtain rfl : at_ = .check := hpc
        have hname : Job.name ⟨.fresh app, .check⟩ = app.name := rfl
        rw [hname] at hfree ⊢
        simpa [InOrder, checksBoth, hget, hfree] using horder
      | redeploy | commit => cases hj'
    · rw [put_other hik hjobs] at hi
      exact hs.unmanaged i j' hi hj'

/-- A launch takes in an app that nobody else holds. -/
theorem orderly_launch {app : App} (hs : Orderly s) (hget : s.jobs[k]? = some j)
    (hactive : j.active = true) (hkind : j.kind = .fresh app) :
    Orderly (({ s with managed := s.managed.set app.name app.source } : Jobs).put k j .launched) := by
  have hname : j.name = app.name := by rw [Job.name, hkind, Kind.name]
  have hjobs : { s with managed := s.managed.set app.name app.source }.jobs = s.jobs := rfl
  refine ⟨hs.exclusive.mono ?_ fun _ _ _ hb => hb, ?_⟩
  · intro i name hi
    exact holds_of_put hget hjobs (fun _ => hactive) hi
  · intro i j' hi hj'
    by_cases hik : i = k
    · subst hik
      rw [put_self hget hjobs] at hi
      cases hi
      rw [hkind] at hj'
      cases hj'
    · rw [put_other hik hjobs] at hi
      have hne : j'.name ≠ app.name := by
        intro heq
        have hheld := holds_of_active hi (active_of_wipes hj')
        rw [heq, ← hname] at hheld
        exact hik (hs.exclusive.unique i k j.name hheld (holds_of_active hget hactive))
      show (s.managed.set app.name app.source).get j'.name = none
      rw [Table.get_set, if_neg hne]
      exact hs.unmanaged i j' hi hj'

theorem orderly_finish (hs : Orderly s) (hget : s.jobs[k]? = some j) (hactive : j.active = true)
    (hjobs : t.jobs = s.jobs) (hmanaged : t.managed = s.managed)
    (hothers : ∀ name, name ≠ j.name → t.deployer.states.get name = s.deployer.states.get name) :
    Orderly (t.put k j .done) := by
  refine ⟨?_, unmanaged_put hs hget hjobs hmanaged ?_⟩
  · apply hs.exclusive.release (holds_of_active hget hactive)
    · rw [holds_put_self hget hjobs]
      rfl
    · exact fun i hik => holds_put_other hik hjobs
    · intro name hne hb
      show t.deployer.states.get name ≠ none
      rw [hothers name hne]
      exact hb
  · intro hwipes
    cases hkind : j.kind <;> rw [hkind] at hwipes <;> cases hwipes

theorem orderly_job {e : Event} (hs : Orderly s) (horder : InOrder s (.job k e))
    (hget : s.jobs[k]? = some j) (h : Advances s j t pc) : Orderly (t.put k j pc) := by
  cases h with
  | refuse => exact orderly_refuse hs hget _
  | take hpc hfree => exact orderly_take hs horder hget hpc hfree
  | goOn hactive hnext hwipes hjobs hmanaged hself hothers =>
    refine ⟨hs.exclusive.mono ?_ ?_, unmanaged_put hs hget hjobs hmanaged hwipes⟩
    · intro i name hi
      exact holds_of_put hget hjobs (fun _ => hactive) hi
    · intro i name hi hb
      show t.deployer.states.get name ≠ none
      by_cases hname : name = j.name
      · subst hname
        exact hself hb
      · rw [hothers name hname]
        exact hb
  | launch hactive hkind => exact orderly_launch hs hget hactive hkind
  | finish hactive hjobs hmanaged hothers =>
    exact orderly_finish hs hget hactive hjobs hmanaged hothers

end Steps

/-! ### Runs -/

/-- A job's step in the run. -/
theorem job_advance {s t : Jobs} {k : Nat} {e : Event} (h : s.step (.job k e) = some t) :
    ∃ j u pc, s.jobs[k]? = some j ∧ s.advance j j.pc e = some (u, pc) ∧ t = u.put k j pc := by
  cases hget : s.jobs[k]? with
  | none => simp [step, hget] at h
  | some j =>
    cases hadv : s.advance j j.pc e with
    | none => simp [step, hget, hadv] at h
    | some r =>
      obtain ⟨u, pc⟩ := r
      simp only [step, hget, hadv, Option.bind_eq_bind, Option.bind_some, Option.pure_def,
        Option.some.injEq] at h
      exact ⟨j, u, pc, rfl, hadv, h.symm⟩

theorem job_step {s t : Jobs} {k : Nat} {e : Event} (h : s.step (.job k e) = some t) :
    ∃ j u pc, s.jobs[k]? = some j ∧ Advances s j u pc ∧ t = u.put k j pc := by
  obtain ⟨j, u, pc, hget, hadv, ht⟩ := job_advance h
  exact ⟨j, u, pc, hget, advances_of_advance hadv, ht⟩

theorem orderly_step {s t : Jobs} {a : Action} (horder : InOrder s a) (hs : Orderly s)
    (h : s.step a = some t) : Orderly t := by
  cases a with
  | start app =>
    cases h
    exact orderly_start hs app
  | redeploy name =>
    cases h
    exact orderly_redeploy hs name
  | commit name =>
    cases h
    exact orderly_commit hs name
  | job k e =>
    obtain ⟨j, u, pc, hget, hadv, rfl⟩ := job_step h
    exact orderly_job hs horder hget hadv
  | forget name =>
    cases h
    refine ⟨hs.exclusive.lower (k := name) ?_ ?_, hs.unmanaged⟩
    · intro k hk
      obtain ⟨j, hget, hactive, hname⟩ := holds_some hk
      exact horder j (List.mem_of_getElem? hget) hactive hname
    · intro name' hne hb
      show (s.deployer.states.del name).get name' ≠ none
      rw [Table.get_del, if_neg hne]
      exact hb
  | hostAdd name source =>
    cases h
    refine ⟨hs.exclusive, ?_⟩
    intro k j hget hwipes
    show (s.managed.set name source).get j.name = none
    rw [Table.get_set, if_neg (horder j (List.mem_of_getElem? hget) hwipes)]
    exact hs.unmanaged k j hget hwipes
  | hostDelete name =>
    cases h
    refine ⟨hs.exclusive, ?_⟩
    intro k j hget hwipes
    show (s.managed.del name).get j.name = none
    rw [Table.get_del, hs.unmanaged k j hget hwipes, ite_self]

theorem orderly_init {s : Jobs} (h : machine.init s) : Orderly s := by
  refine ⟨⟨?_, ?_⟩, ?_⟩ <;> simp [holds, h.1]

theorem orderly_run {s t : Jobs} {as : List Action} (hs : Orderly s) (hrun : machine.run s as = some t)
    (horder : machine.Along InOrder s as) : Orderly t :=
  machine.along_invariant (fun _ _ _ hC hI h => orderly_step hC hI h) hs hrun horder

/-- A job keeps its app, and one that has come to its end stays there. -/
theorem done_step {s t : Jobs} {a : Action} {k : Nat} {j : Job} (hget : s.jobs[k]? = some j)
    (hdone : j.pc = .done) (h : s.step a = some t) : t.jobs[k]? = some j := by
  have hcall : ∀ kind pc, (s.call kind pc).jobs[k]? = some j := by
    intro kind pc
    exact Growing.keep hget
  cases a with
  | start | redeploy | commit =>
    cases h
    exact hcall _ _
  | job i e =>
    obtain ⟨j', u, pc, hget', hadv, rfl⟩ := job_step h
    have hjobs : u.jobs = s.jobs := by
      cases hadv with
      | refuse | take | launch => rfl
      | goOn _ _ _ hjobs | finish _ hjobs => exact hjobs
    by_cases hki : k = i
    · subst hki
      obtain rfl : j = j' := Option.some.inj (hget.symm.trans hget')
      cases hadv with
      | refuse hpc | take hpc => simp [hpc] at hdone
      | goOn hactive | launch hactive | finish hactive => simp [Job.active, hdone] at hactive
    · rw [put_other hki hjobs]
      exact hget
  | forget | hostAdd | hostDelete =>
    cases h
    exact hget

/-- A job that has come to its end takes no step. -/
theorem no_step_of_done {s t : Jobs} {k : Nat} {j : Job} {e : Event} (hget : s.jobs[k]? = some j)
    (hdone : j.pc = .done) : s.step (.job k e) ≠ some t := by
  intro h
  obtain ⟨j', u, pc, hget', hadv, -⟩ := job_step h
  obtain rfl : j = j' := Option.some.inj (hget.symm.trans hget')
  cases hadv with
  | refuse hpc | take hpc => simp [hpc] at hdone
  | goOn hactive | launch hactive | finish hactive => simp [Job.active, hdone] at hactive

/-! ### The result -/

/-- At most one `runDeploy` or `mutateAndPush` is in flight for each app, and no fresh deploy is
about to wipe the directory of a managed app. -/
structure OneOperation (s : Jobs) : Prop where
  single : ∀ (k l : Nat) (j i : Job), s.jobs[k]? = some j → s.jobs[l]? = some i → j.inFlight = true →
    i.inFlight = true → j.name = i.name → k = l
  spares : ∀ (k : Nat) (j : Job), s.jobs[k]? = some j → (∃ app, j.kind = .fresh app) →
    j.pc = .wipe → s.managed.get j.name = none

/-- What was in flight when `Forget` returned adds no state of the app and does not launch it. -/
def StaysForgotten (s : Jobs) (as : List Action) : Prop :=
  ∀ before name mid k e after u v w, as = before ++ .forget name :: (mid ++ .job k e :: after) →
    machine.run s before = some u → machine.run u (.forget name :: mid) = some v →
    v.step (.job k e) = some w → ∀ j, u.jobs[k]? = some j → j.taken = true → j.name = name →
    (w.deployer.states.get name = none ∨
      w.deployer.states.get name = v.deployer.states.get name) ∧
    w.managed.get name = v.managed.get name

theorem active_of_inFlight {j : Job} (h : j.inFlight = true) : j.active = true := by
  obtain ⟨kind, pc⟩ := j
  cases pc <;> first | rfl | cases h

theorem done_of_taken {j : Job} (htaken : j.taken = true) (hactive : j.active = false) :
    j.pc = .done := by
  obtain ⟨kind, pc⟩ := j
  cases pc with
  | done => rfl
  | check | refused => cases htaken
  | started | credential | wipe | fetch | fetched | build | launch | launched | failing | push
  | pushed => cases hactive

theorem oneOperation_of_orderly {s : Jobs} (hs : Orderly s) : OneOperation s := by
  refine ⟨?_, ?_⟩
  · intro k l j i hj hi hjf hif hname
    apply hs.exclusive.unique k l j.name
    · exact holds_of_active hj (active_of_inFlight hjf)
    · rw [hname]
      exact holds_of_active hi (active_of_inFlight hif)
  · intro k j hj hkind hpc
    obtain ⟨kind, at_⟩ := j
    obtain ⟨app, rfl⟩ := hkind
    obtain rfl : at_ = .wipe := hpc
    exact hs.unmanaged k _ hj rfl

/-- A new deployer; nothing is managed. -/
def fresh : Jobs where
  deployer :=
    { deployRoot := homeDeploys
      disk := .ofDirs [["home", "marshal", "deploys"]] }

def web : App := { name := "web", source := some { repo := "https://git/web" } }

/-- A fresh deploy from the busy check to its end. -/
def deploys (k : Nat) (disk : Disk) : List Action :=
  [.job k .ok, .job k .ok, .job k .ok, .job k .ok, .job k (.ran disk none), .job k .ok, .job k .ok,
    .job k .ok, .job k .ok]

/-- The app is deleted and deployed anew while its first clone runs. -/
def twice : List Action := [.start web, .job 0 .ok, .forget "web", .start web, .job 1 .ok]

/-- The host is asked before another deploy of the app has launched it. -/
def lateCheck : List Action :=
  [.start web, .start web] ++ deploys 0 fresh.deployer.disk ++ [.job 1 .ok, .job 1 .ok, .job 1 .ok]

/-- The clone of a deleted app goes on and the app is launched. -/
def revived : List Action :=
  [.start web, .job 0 .ok, .forget "web", .job 0 .ok, .job 0 .ok, .job 0 .ok,
    .job 0 (.ran fresh.deployer.disk none), .job 0 .ok, .job 0 .ok, .job 0 .ok]

end Jobs
end Marshal.Deploy
