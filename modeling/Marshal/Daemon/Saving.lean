import Marshal.Daemon.Service
import Marshal.Lib.System
import Marshal.Lib.WriteBehind

/-! The saved list under fleet commands and deploy launches.

Every command and every launch runs in a goroutine of its own. A Start adds one app after
the other, a Delete takes apps out, a launch adds one; each saves the list afterwards if it
succeeded, in two steps: the list is read, and what was read is written. Everything else
that happens changes no app's definition. -/
namespace Marshal.Daemon
open Config WriteBehind

/-- Where a goroutine stands. -/
inductive Pc where
  /-- A Start with these specs left, that has or has not added an app. -/
  | starting (specs : List AppSpec) (added : Bool)
  | deleting (sel : String)
  | launching (app : App)
  /-- Before `mgr.Specs`. -/
  | saving
  /-- Before `store.Save` of these. -/
  | writing (apps : List App)
  | done
  deriving DecidableEq, Repr

/-- What a goroutine is started for. -/
inductive Command where
  | Start (specs : List AppSpec)
  | Delete (sel : String)
  | Launch (app : App)
  deriving DecidableEq, Repr

def Command.pc : Command → Pc
  | .Start specs => .starting specs false
  | .Delete sel => .deleting sel
  | .Launch app => .launching app

/-- The service and its goroutines. -/
structure Commands where
  svc : Service
  procs : List Pc := []
  /-- One of them has changed the managed apps. -/
  changed : Bool := false

namespace Commands

/-- Goroutine `k` comes to stand at `pc`, with the service as it leaves it. -/
def put (s : Commands) (k : Nat) (pc : Pc) (svc : Service) : Commands where
  svc := svc
  procs := s.procs.set k pc
  changed := s.changed || svc.mgr.Specs != s.svc.mgr.Specs

/-- A goroutine goes on where its operation succeeded. -/
def after (pc : Pc) : Answer → Pc
  | .ok _ => pc
  | .error _ => .done

inductive Action where
  | arrive (c : Command)
  /-- A goroutine's next step; a deletion runs to its end while the manager takes these steps. -/
  | advance (k : Nat) (more : List Manager.Action)
  /-- Another command's call, a step within it, or one of an instance. -/
  | manager (a : Manager.Action)

/-- An action that changes no app's definition. -/
def keepsSpecs : Manager.Action → Bool
  | .call (.updateEnv _ _) => false
  | a => Manager.keepsList a

def advance (s : Commands) (k : Nat) (more : List Manager.Action) : Option Commands :=
  match s.procs[k]? with
  | none | some .done => none
  | some (.starting [] _) => some (s.put k .saving s.svc)
  | some (.starting (spec :: rest) _) => if s.svc.idle then
      match appSpecToConfig spec with
      | .error _ => some (s.put k .done s.svc)
      | .ok app => some (s.put k (after (.starting rest true) (s.svc.launchApp app).2)
          (s.svc.launchApp app).1)
    else none
  | some (.deleting sel) =>
    (s.svc.fleetDelete sel more).map fun r => s.put k (after .saving r.2) r.1
  | some (.launching app) => if s.svc.idle then
      some (s.put k (after .saving (s.svc.launchApp app).2) (s.svc.launchApp app).1)
    else none
  | some .saving => some (s.put k (.writing s.svc.mgr.Specs) s.svc)
  | some (.writing apps) => some (s.put k .done { s.svc with store := s.svc.store.Save apps })

def step (s : Commands) : Action → Option Commands
  | .arrive c => some { s with procs := s.procs ++ [c.pc] }
  | .advance k more => s.advance k more
  | .manager a => if keepsSpecs a then
      (s.svc.mgr.step a).map fun m => { s with svc := { s.svc with mgr := m } }
    else none

/-- The runs from any state of the service. -/
def machine (svc : Service) : Transition.System Commands Action where
  init s := s = { svc := svc }
  step := step

/-! ### What a goroutine has still to save -/

def writer : Pc → Writer (List App)
  | .starting _ true | .saving => .pending
  | .writing apps => .holding apps
  | .starting _ false | .deleting _ | .launching _ | .done => .idle

def writers (s : Commands) (k : Nat) : Writer (List App) :=
  match s.procs[k]? with
  | some pc => writer pc
  | none => .idle

/-- What `dump.json` holds for these apps. -/
def dumpOf (apps : List App) : Option Json := some (.arr (apps.map App.MarshalJSON))

/-- `dump.json` holds the managed apps. -/
def current (s : Commands) : Prop := s.svc.store.dump = dumpOf s.svc.mgr.Specs

/-- Another goroutine has the managed apps still to save. -/
def dueBeside (s : Commands) (k : Nat) : Prop :=
  ∃ j, j ≠ k ∧ Due s.svc.mgr.Specs (s.writers j)

/-- The spec is refused, or its name is taken. -/
def refuses (m : Manager) (spec : AppSpec) : Bool :=
  match appSpecToConfig spec with
  | .error _ => true
  | .ok app => m.apps.any (·.name == app.name)

/-- No save is lost. -/
def Keeps (s : Commands) : Action → Prop
  | .advance k _ => match s.procs[k]? with
    /- A Start that has added an app fails only while its save is not needed. -/
    | some (.starting (spec :: _) true) => refuses s.svc.mgr spec = true → s.current ∨ s.dueBeside k
    /- A list that has changed since is written only while another save is to come. -/
    | some (.writing apps) => apps = s.svc.mgr.Specs ∨ s.dueBeside k
    | _ => True
  | .arrive _ | .manager _ => True

/-- Once all is over, a change is in the saved list. -/
def Saved (s : Commands) : Prop :=
  (∀ pc ∈ s.procs, pc = .done) → s.changed = true → s.svc.store.dump = dumpOf s.svc.mgr.Specs

/-! ### What changes the managed apps -/

theorem freshApp_Specs (m : Manager) (p : Nat) : (m.freshApp p).Specs = m.Specs := by
  unfold Manager.freshApp
  split
  · rfl
  · rename_i hget
    exact Manager.map_set_eq hget rfl

theorem fresh_Specs (m : Manager) (ps : List Nat) : (ps.foldl Manager.freshApp m).Specs = m.Specs := by
  induction ps generalizing m with
  | nil => rfl
  | cons p rest ih => exact (ih (m.freshApp p)).trans (freshApp_Specs m p)

theorem replaceSlot_Specs (m : Manager) (p idx : Nat) : (m.replaceSlot p idx).Specs = m.Specs := by
  unfold Manager.replaceSlot
  split
  · rfl
  · rename_i hget
    exact Manager.map_set_eq hget rfl

theorem Specs_step {m t : Manager} {a : Manager.Action} (hkeeps : keepsSpecs a = true)
    (h : m.step a = some t) : t.Specs = m.Specs := by
  cases Manager.moves_of_step h with
  | @call op hidle =>
    cases op with
    | add app => cases hkeeps
    | delete sel => cases hkeeps
    | updateEnv name env => cases hkeeps
    | stop sel | restart sel | reload sel | resetCounters sel =>
      exact congrArg (List.map (·.spec)) Manager.apps_selected
    | stopAll => rfl
  | exec hrun hexec =>
    cases hexec with
    | fresh => exact fresh_Specs m _
    | replace => exact replaceSlot_Specs m _ _
    | cancel | wait | reloadSlot | online | abort | goOn | resetCounters | describe | answer => rfl
  | worker hmove =>
    rw [hmove.eq]
    rfl
  | cancelCtx => rfl

/-- A launch that is refused leaves the apps and the file as they are. -/
theorem launchApp_refused {svc : Service} {app : App} {text : String}
    (h : (svc.launchApp app).2 = .error text) : (svc.launchApp app).1.mgr.Specs = svc.mgr.Specs ∧
      svc.mgr.apps.any (·.name == app.name) = true := by
  cases htaken : svc.mgr.apps.any (·.name == app.name) with
  | true =>
    refine ⟨?_, rfl⟩
    show (svc.mgr.Add app).Specs = _
    rw [Manager.Add_taken htaken]
    rfl
  | false =>
    have hadd : (svc.mgr.Add app).answer = .error text := h
    unfold Manager.Add at hadd
    rw [if_neg (by simp [htaken])] at hadd
    cases hadd

/-- So does a Delete that fails. -/
theorem fleetDelete_failed {svc t : Service} {sel : String} {more : List Manager.Action} {text : String}
    (h : svc.fleetDelete sel more = some (t, .error text)) :
    t.mgr.Specs = svc.mgr.Specs ∧ t.store = svc.store := by
  unfold Service.fleetDelete Service.Delete at h
  cases hcomplete : svc.mgr.complete (.delete sel) more with
  | none =>
    rw [hcomplete] at h
    cases h
  | some r =>
    obtain ⟨m, answer⟩ := r
    obtain ⟨happs, hanswer⟩ := Manager.complete_delete hcomplete
    cases answer with
    | ok snaps =>
      simp only [hcomplete] at h
      cases h
    | error text' =>
      simp only [hcomplete, Option.some.injEq, Prod.mk.injEq] at h
      obtain ⟨rfl, -⟩ := h
      refine ⟨?_, rfl⟩
      have hnone : ∀ a, svc.mgr.unlinks sel a = false := by
        intro a
        unfold Manager.removedSnaps at hanswer
        split at hanswer
        · rename_i hres
          simp [Manager.unlinks, Manager.selectedApps, hres]
        · cases hanswer
      show m.Specs = _
      unfold Manager.Specs
      rw [happs]
      simp [hnone]

/-! ### Steps -/

/-- A change is in the file, or a goroutine has it still to save. -/
def Inv (s : Commands) : Prop :=
  s.changed = true → Covered dumpOf s.svc.mgr.Specs s.svc.store.dump s.writers

section Step
variable {s : Commands} {k : Nat} {pc pc' : Pc}

theorem writers_self (hk : s.procs[k]? = some pc) : s.writers k = writer pc := by
  unfold writers
  rw [hk]

theorem writers_put_self (hk : s.procs[k]? = some pc) (svc : Service) :
    (s.put k pc' svc).writers k = writer pc' := by
  refine writers_self ?_
  exact List.getElem?_set_self (List.getElem?_eq_some_iff.mp hk).1

theorem writers_put_other {j : Nat} (hj : j ≠ k) (svc : Service) :
    (s.put k pc' svc).writers j = s.writers j := by
  unfold writers put
  rw [List.getElem?_set_ne hj.symm]

/-- The goroutine has its save still to do. -/
theorem inv_due (hk : s.procs[k]? = some pc) {svc : Service}
    (hdue : Due svc.mgr.Specs (writer pc')) : (s.put k pc' svc).Inv := by
  intro _
  refine @covered_of_due _ _ _ _ _ _ _ k ?_
  rw [writers_put_self hk]
  exact hdue

/-- The goroutine ends with nothing changed, where its save is not needed. -/
theorem inv_drop {svc : Service} (hspecs : svc.mgr.Specs = s.svc.mgr.Specs)
    (hstore : svc.store = s.svc.store) (hneed : s.changed = true → s.current ∨ s.dueBeside k) :
    (s.put k pc' svc).Inv := by
  intro hchanged
  have hbefore : s.changed = true := by
    simpa [put, hspecs] using hchanged
  have hcovered : Covered dumpOf s.svc.mgr.Specs s.svc.store.dump (s.put k pc' svc).writers :=
    covered_drop (hneed hbefore) fun j hj => writers_put_other hj svc
  show Covered dumpOf svc.mgr.Specs svc.store.dump _
  rw [hspecs, hstore]
  exact hcovered

/-- Without a save to do, the goroutine is not what the invariant rests on. -/
theorem needless (h : s.Inv) (hk : s.procs[k]? = some pc) (hidle : writer pc = .idle)
    (hchanged : s.changed = true) : s.current ∨ s.dueBeside k := by
  rcases h hchanged with hcurrent | ⟨j, hdue⟩
  · exact .inl hcurrent
  · refine .inr ⟨j, ?_, hdue⟩
    rintro rfl
    rw [writers_self hk, hidle] at hdue
    exact hdue

theorem inv_launch (hk : s.procs[k]? = some pc) {app : App}
    (hdue : ∀ specs : List App, Due specs (writer pc'))
    (hneed : s.svc.mgr.apps.any (·.name == app.name) = true → s.changed = true →
      s.current ∨ s.dueBeside k) :
    (s.put k (after pc' (s.svc.launchApp app).2) (s.svc.launchApp app).1).Inv := by
  cases hanswer : (s.svc.launchApp app).2 with
  | ok snaps => exact inv_due hk (hdue _)
  | error text =>
    obtain ⟨hspecs, htaken⟩ := launchApp_refused hanswer
    exact inv_drop hspecs rfl (hneed htaken)

theorem inv_advance {t : Commands} {more : List Manager.Action} (h : s.Inv)
    (hkeeps : s.Keeps (.advance k more)) (hstep : s.advance k more = some t) : t.Inv := by
  unfold advance at hstep
  unfold Keeps at hkeeps
  cases hk : s.procs[k]? with
  | none => simp [hk] at hstep
  | some pc =>
    simp only [hk] at hstep hkeeps
    cases pc with
    | starting specs added =>
      cases specs with
      | nil =>
        cases hstep
        exact inv_due hk trivial
      | cons spec rest =>
        simp only [Option.ite_none_right_eq_some] at hstep
        obtain ⟨-, hstep⟩ := hstep
        have hneed : refuses s.svc.mgr spec = true → s.changed = true → s.current ∨ s.dueBeside k := by
          intro hrefuses hchanged
          cases added with
          | true => exact hkeeps hrefuses
          | false => exact needless h hk rfl hchanged
        unfold refuses at hneed
        cases hspec : appSpecToConfig spec with
        | error text =>
          rw [hspec] at hneed
          simp only [hspec, Option.some.injEq] at hstep
          subst hstep
          exact inv_drop rfl rfl (hneed rfl)
        | ok app =>
          rw [hspec] at hneed
          simp only [hspec, Option.some.injEq] at hstep
          subst hstep
          exact inv_launch hk (fun _ => trivial) hneed
    | deleting sel =>
      obtain ⟨r, hdelete, rfl⟩ := Option.map_eq_some_iff.mp hstep
      obtain ⟨svc, answer⟩ := r
      cases answer with
      | ok snaps => exact inv_due hk trivial
      | error text =>
        obtain ⟨hspecs, hstore⟩ := fleetDelete_failed hdelete
        exact inv_drop hspecs hstore (needless h hk rfl)
    | launching app =>
      simp only [Option.ite_none_right_eq_some, Option.some.injEq] at hstep
      obtain ⟨-, rfl⟩ := hstep
      exact inv_launch hk (fun _ => trivial) fun _ => needless h hk rfl
    | saving =>
      cases hstep
      exact inv_due hk rfl
    | writing apps =>
      cases hstep
      intro _
      exact covered_write hkeeps fun j hj => writers_put_other hj _
    | done => cases hstep

theorem inv_step {t : Commands} {a : Action} (h : s.Inv) (hkeeps : s.Keeps a)
    (hstep : s.step a = some t) : t.Inv := by
  cases a with
  | arrive c =>
    cases hstep
    intro hchanged
    refine (h hchanged).mono fun j hdue => ?_
    unfold writers at hdue ⊢
    cases hj : s.procs[j]? with
    | none =>
      rw [hj] at hdue
      exact hdue.elim
    | some pc =>
      rw [hj] at hdue
      rw [List.getElem?_append_left (List.getElem?_eq_some_iff.mp hj).1, hj]
      exact hdue
  | advance k more => exact inv_advance h hkeeps hstep
  | manager a =>
    simp only [step, Option.ite_none_right_eq_some] at hstep
    obtain ⟨hkeeps, hstep⟩ := hstep
    obtain ⟨m, hm, rfl⟩ := Option.map_eq_some_iff.mp hstep
    intro hchanged
    show Covered dumpOf m.Specs s.svc.store.dump s.writers
    rw [Specs_step hkeeps hm]
    exact h hchanged

end Step

/-! ### A goroutine alone -/

/-- The command as one operation of the service. -/
def operation (more : List Manager.Action) : Command → Service.Action
  | .Start specs => .fleetStart specs true
  | .Delete sel => .fleetDelete sel more true
  | .Launch app => .Launch app true

/-- The only goroutine comes to its end and leaves this service. -/
def Ends (first : Service) (s : Commands) (svc : Service) : Prop :=
  ∃ as t, (machine first).run s as = some t ∧ t.procs = [.done] ∧ t.svc = svc

section Alone
variable {first svc : Service}

theorem Ends.advance {s t : Commands} (more : List Manager.Action) (h : t.Ends first svc)
    (hstep : s.advance 0 more = some t) : s.Ends first svc := by
  obtain ⟨as, u, hrun, hdone⟩ := h
  exact ⟨.advance 0 more :: as, u, (machine first).run_cons.mpr ⟨t, hstep, hrun⟩, hdone⟩

theorem ends_done {changed : Bool} : Ends first ⟨svc, [.done], changed⟩ svc := ⟨[], _, rfl, rfl, rfl⟩

theorem ends_after {changed : Bool} (answer : Answer) :
    Ends first ⟨svc, [after .saving answer], changed⟩ (Service.persist true (svc, answer)) := by
  cases answer with
  | ok snaps => exact Ends.advance [] (Ends.advance [] ends_done rfl) rfl
  | error text => exact ends_done

theorem persist_map (svc : Service) (wrote : Bool) (answer : Answer)
    (f : List InstanceSnapshot → List InstanceSnapshot) :
    Service.persist wrote (svc, answer.map f) = Service.persist wrote (svc, answer) := by
  cases answer <;> rfl

theorem ends_starting {specs : List AppSpec} {added changed : Bool} (hidle : svc.idle = true) :
    Ends first ⟨svc, [.starting specs added], changed⟩ (Service.persist true (svc.doStart specs)) := by
  induction specs generalizing svc added changed with
  | nil => exact Ends.advance [] (ends_after (.ok [])) rfl
  | cons spec rest ih =>
    let s : Commands := ⟨svc, [.starting (spec :: rest) added], changed⟩
    unfold Service.doStart
    cases hspec : appSpecToConfig spec with
    | error text =>
      have hstep : s.advance 0 [] = some (s.put 0 .done svc) := by
        simp only [s, Commands.advance, List.getElem?_cons_zero, hidle, hspec, if_true]
      exact Ends.advance [] ends_done hstep
    | ok app =>
      have hstep : s.advance 0 [] = some (s.put 0 (after (.starting rest true) (svc.launchApp app).2)
          (svc.launchApp app).1) := by
        simp only [s, Commands.advance, List.getElem?_cons_zero, hidle, hspec, if_true]
      refine Ends.advance [] ?_ hstep
      simp only
      cases hanswer : (svc.launchApp app).2 with
      | error text =>
        simp only
        exact ends_done
      | ok snaps =>
        simp only [persist_map]
        refine ih ?_
        show ((svc.mgr.Add app).running == none) = true
        rw [Manager.Add_running]
        rfl

/-- A goroutine that runs alone does what the operation does: the steps of its command are those
of the operation, with a save that succeeds. -/
theorem alone {t : Service} {c : Command} {more : List Manager.Action}
    (h : svc.step (operation more c) = some t) : Ends first ⟨svc, [c.pc], false⟩ t := by
  let s : Commands := ⟨svc, [c.pc], false⟩
  cases c with
  | Start specs =>
    simp only [operation, Service.step, Option.ite_none_right_eq_some, Option.some.injEq] at h
    obtain ⟨hidle, rfl⟩ := h
    exact ends_starting hidle
  | Delete sel =>
    obtain ⟨r, hdelete, rfl⟩ := Option.map_eq_some_iff.mp h
    have hstep : s.advance 0 more = some (s.put 0 (after .saving r.2) r.1) := by
      simp only [s, Commands.advance, Command.pc, List.getElem?_cons_zero, hdelete, Option.map_some]
    exact Ends.advance more (ends_after r.2) hstep
  | Launch app =>
    simp only [operation, Service.step, Option.ite_none_right_eq_some, Option.some.injEq] at h
    obtain ⟨hidle, rfl⟩ := h
    have hstep : s.advance 0 [] = some (s.put 0 (after .saving (svc.launchApp app).2)
        (svc.launchApp app).1) := by
      simp only [s, Commands.advance, Command.pc, List.getElem?_cons_zero, hidle, if_true]
    exact Ends.advance [] (ends_after (svc.launchApp app).2) hstep

end Alone

/-! ### Runs -/

/-- A service without apps, and without a saved list. -/
def empty : Service := { deployer := { deployRoot := Deploy.homeDeploys, disk := .ofDirs [] } }

/-- A launch adds an app between the Start's reading of the list and its writing; it writes last. -/
def startAndLaunch : List Action :=
  [.arrive (.Start [{ name := "web", cmd := "./web" }]),
    .arrive (.Launch { name := "db", cmd := "./db" }), .advance 0 [], .advance 0 [], .advance 0 [],
    .advance 1 [], .advance 0 [], .advance 1 [], .advance 1 []]

end Commands
end Marshal.Daemon
