import Marshal.Daemon.Convert
import Marshal.Daemon.Deletion
import Marshal.Daemon.Reload
import Marshal.Logs

/-! The daemon's service.

Beside the manager it keeps the memory guard's limits, the log registry's policies, the
saved list and the deployer. An app comes in through `launchApp`, which sets its policy
and its limit before it is added, through `Resurrect`, which only adds it, or when the
daemon starts, where all three tables are filled from the saved list. `Delete` takes apps
out; a fleet command and a deploy's launch save the list where they succeed.

The operations come one after the other; in between, and while a deletion waits, the
manager and its instances take steps. -/
namespace Marshal.Daemon
open Config Supervisor

/-- What an operation answers. -/
abbrev Answer := Except String (List InstanceSnapshot)

namespace Manager

/-- What the operation that ended last answered. -/
def answer (m : Manager) : Answer :=
  match m.results with
  | (_, .ok snaps) :: _ => .ok snaps
  | (_, .error text) :: _ => .error text
  | (_, .panic) :: _ => .error "panic"
  | [] => .error ""

/-- A step within an operation, or of an instance. -/
def inside : Action → Bool
  | .call _ => false
  | _ => true

/-- The operation runs to its end while these steps are taken. -/
def complete (m : Manager) (op : Op) (more : List Action) : Option (Manager × Answer) :=
  match machine.run m (.call op :: more) with
  | some t => if more.all inside ∧ t.running = none then some (t, t.answer) else none
  | none => none

/-- `Add` one after the other, and the answers of those that were added. -/
def addAll (m : Manager) : List App → Manager × List InstanceSnapshot
  | [] => (m, [])
  | app :: rest =>
    let t := m.call (.add app)
    ((t.addAll rest).1, (match t.answer with
      | .ok snaps => snaps
      | .error _ => []) ++ (t.addAll rest).2)

end Manager

/-- The default with the app's own fields over it. -/
def logPolicy (app : App) (policy : Logs.Policy) : Logs.Policy :=
  match app.logs with
  | none => policy
  | some logs =>
    { maxSizeMB := logs.maxSizeMB.getD policy.maxSizeMB
      maxBackups := logs.maxBackups.getD policy.maxBackups
      maxAgeDays := logs.maxAgeDays.getD policy.maxAgeDays
      compress := logs.compress.getD policy.compress }

structure Service where
  mgr : Manager := {}
  guard : Memguard.Guard := {}
  logs : Logs.Policies := {}
  store : Store := {}
  deployer : Deploy.Deployer
  logPolicyDefault : Logs.Policy := Logs.DefaultPolicy

namespace Service

/-! ### Operations -/

/-- The apps of the saved list, none where it cannot be read. -/
def savedApps (store : Store) : List App :=
  match store.Load with
  | .ok apps => apps
  | .error _ => []

/-- `Run`, up to where it serves. -/
def start (store : Store) (deployer : Deploy.Deployer) (policy : Logs.Policy) : Service where
  mgr := (Manager.addAll {} (savedApps store)).1
  guard := (savedApps store).foldl (fun g app => g.SetLimit app.name app.maxMemoryRestart) {}
  logs := (savedApps store).foldl (fun r app => r.SetPolicy app.name (logPolicy app policy))
    (Logs.Policies.SetDefaultPolicy {} policy)
  store := store
  deployer := deployer
  logPolicyDefault := policy

def launchApp (s : Service) (app : App) : Service × Answer :=
  let s := { s with logs := s.logs.SetPolicy app.name (logPolicy app s.logPolicyDefault) }
  let s := { s with guard := s.guard.SetLimit app.name app.maxMemoryRestart }
  let s := { s with mgr := s.mgr.call (.add app) }
  (s, s.mgr.answer)

/-- One spec after the other, up to the first that fails. -/
def doStart (s : Service) : List AppSpec → Service × Answer
  | [] => (s, .ok [])
  | spec :: rest => match appSpecToConfig spec with
    | .error text => (s, .error text)
    | .ok app => match (s.launchApp app).2 with
      | .error text => ((s.launchApp app).1, .error text)
      | .ok snaps => (((s.launchApp app).1.doStart rest).1,
          ((s.launchApp app).1.doStart rest).2.map (snaps ++ ·))

/-- `store.Save` of the managed apps. A write that fails leaves the file as it is. -/
def Save (s : Service) (wrote : Bool) : Service :=
  if wrote then { s with store := s.store.Save s.mgr.Specs } else s

/-- The list is saved where the operation succeeded. -/
def persist (wrote : Bool) (r : Service × Answer) : Service :=
  match r.2 with
  | .ok _ => r.1.Save wrote
  | .error _ => r.1

/-- The limits of the apps in an answer are removed, each once. -/
def unguard (g : Memguard.Guard) (snaps : List InstanceSnapshot) : Memguard.Guard :=
  (snaps.map (·.name)).eraseDups.foldl Memguard.Guard.Remove g

def Delete (s : Service) (sel : String) (more : List Manager.Action) : Option (Service × Answer) :=
  match s.mgr.complete (.delete sel) more with
  | none => none
  | some (m, .error text) => some ({ s with mgr := m }, .error text)
  | some (m, .ok snaps) => some ({ s with mgr := m, guard := unguard s.guard snaps }, .ok snaps)

/-- The fleet's command, before it saves: a selector that matches no app is no error if it had a
deployment's state. -/
def fleetDelete (s : Service) (sel : String) (more : List Manager.Action) :
    Option (Service × Answer) :=
  match s.Delete sel more with
  | none => none
  | some (t, answer) =>
    let t := { t with deployer := (s.deployer.Forget sel).1 }
    match answer with
    | .ok snaps => some (t, .ok snaps)
    | .error text => some (t, if (s.deployer.Forget sel).2 then .ok [] else .error text)

/-- Apps that are there already are skipped. -/
def Resurrect (s : Service) : Service × Answer :=
  match s.store.Load with
  | .error _ => (s, .error "load dump: %v")
  | .ok apps => ({ s with mgr := (s.mgr.addAll apps).1 }, .ok (s.mgr.addAll apps).2)

/-! ### Steps -/

inductive Action where
  | Start (specs : List AppSpec)
  | fleetStart (specs : List AppSpec) (wrote : Bool)
  /-- The deployer's launch. -/
  | Launch (app : App) (wrote : Bool)
  | Resurrect
  | Delete (sel : String) (more : List Manager.Action)
  | fleetDelete (sel : String) (more : List Manager.Action) (wrote : Bool)
  | Save (wrote : Bool)
  /-- Any other operation of the manager, a step within it, or one of an instance. -/
  | manager (a : Manager.Action)
  /-- What else the deployer does. -/
  | deployer (d : Deploy.Deployer)

/-- The operations wait for one another. -/
def idle (s : Service) : Bool := s.mgr.running == none

def step (s : Service) : Action → Option Service
  | .Start specs => if s.idle then some (s.doStart specs).1 else none
  | .fleetStart specs wrote => if s.idle then some (persist wrote (s.doStart specs)) else none
  | .Launch app wrote => if s.idle then some (persist wrote (s.launchApp app)) else none
  | .Resurrect => if s.idle then some s.Resurrect.1 else none
  | .Delete sel more => (s.Delete sel more).map (·.1)
  | .fleetDelete sel more wrote => (s.fleetDelete sel more).map (persist wrote)
  | .Save wrote => some (s.Save wrote)
  | .manager a =>
    if Manager.keepsList a then (s.mgr.step a).map fun m => { s with mgr := m } else none
  | .deployer d => some { s with deployer := d }

/-- The runs of the daemon over this saved list. -/
def machine (store : Store) (deployer : Deploy.Deployer) (policy : Logs.Policy) :
    Transition.System Service Action where
  init s := s = start store deployer policy
  step := step

/-! ### What the operations leave alone -/

@[simp] theorem Save_mgr (s : Service) (wrote : Bool) : (s.Save wrote).mgr = s.mgr := by
  unfold Save
  split <;> rfl

end Service

namespace Manager

/-- A deletion that has answered. -/
theorem complete_delete {m t : Manager} {sel : String} {more : List Action} {a : Answer}
    (h : m.complete (.delete sel) more = some (t, a)) :
    t.apps = m.apps.filter (fun b => !m.unlinks sel b) ∧ a = m.removedSnaps sel := by
  unfold complete at h
  split at h
  · rename_i u hrun
    simp only [Option.ite_none_right_eq_some, Option.some.injEq, Prod.mk.injEq] at h
    obtain ⟨⟨hinside, hidle⟩, rfl, rfl⟩ := h
    have hmore : ∀ b ∈ more, ∀ op, b ≠ .call op := by
      intro b hb op hcall
      have := List.all_eq_true.mp hinside b hb
      rw [hcall] at this
      cases this
    obtain ⟨happs, hresults⟩ := delete_returns hrun hmore hidle
    refine ⟨happs, ?_⟩
    unfold answer deleteOutcome at *
    rw [hresults]
    cases m.removedSnaps sel <;> rfl
  · cases h

end Manager
end Marshal.Daemon
