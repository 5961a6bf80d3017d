import Marshal.Daemon.Steps
import Marshal.Deploy.Deployer
import Marshal.Memguard

/-! The daemon's server and the fleet's Delete command.

The server brings the manager, the deployer and the memory guard together. An app's
name is validated when its definition comes in, so apps and deployments have valid
names only; a Delete command's target is any string. -/
namespace Marshal.Daemon
open Config FilePath

structure Server where
  mgr : Manager
  deployer : Deploy.Deployer
  guard : Memguard.Guard := {}
  appNames : ∀ a ∈ mgr.apps, validAppName a.name = true
  stateNames : ∀ name, deployer.states.get name ≠ none → validAppName name = true

/-- A deployer starts with no deployments. -/
theorem fresh_names (deployRoot : CleanPath) (disk : Deploy.Disk) (name : String) :
    ({ deployRoot, disk : Deploy.Deployer }).states.get name ≠ none → validAppName name = true := by
  simp

namespace Manager

/-- The apps that `Delete` selects. -/
def selectedApps (m : Manager) (sel : String) : List ManagedApp :=
  match resolve m.apps sel with
  | .error _ => []
  | .ok ps => ps.filterMap fun p => m.apps[p]?

/-- `Delete` takes the apps out that share an id with a selected one. -/
def unlinks (m : Manager) (sel : String) (a : ManagedApp) : Bool :=
  (m.selectedApps sel).any (·.id == a.id)

/-- What `Delete` answers with. -/
def removedSnaps (m : Manager) (sel : String) : Except String (List InstanceSnapshot) :=
  match resolve m.apps sel with
  | .error text => .error text
  | .ok _ => .ok ((m.selectedApps sel).flatMap m.snapshotApp)

theorem Delete_apps (m : Manager) (sel : String) :
    (m.call (.delete sel)).apps = m.apps.filter fun a => !m.unlinks sel a := by
  show (m.Delete sel).apps = _
  cases hres : resolve m.apps sel with
  | error text => simp [Delete, unlinks, selectedApps, hres]
  | ok ps => simp only [Delete, unlinks, selectedApps, hres]

theorem Add_names {m : Manager} {app : App} (h : validAppName app.name = true)
    (hm : ∀ a ∈ m.apps, validAppName a.name = true) :
    ∀ a ∈ (m.call (.add app)).apps, validAppName a.name = true := by
  show ∀ a ∈ (m.Add app).apps, _
  cases hname : m.apps.any (·.name == app.name) with
  | true =>
    rw [Add_taken hname]
    exact hm
  | false =>
    rw [(Add_new hname).1]
    intro a ha
    rcases List.mem_append.mp ha with ha | ha
    · exact hm a ha
    · rw [List.mem_singleton.mp ha]
      exact h

theorem Delete_names {m : Manager} (sel : String)
    (hm : ∀ a ∈ m.apps, validAppName a.name = true) :
    ∀ a ∈ (m.call (.delete sel)).apps, validAppName a.name = true := by
  intro a ha
  rw [Delete_apps] at ha
  exact hm a (List.mem_of_mem_filter ha)

end Manager

namespace Server

/-- The manager's part of an accepted definition and its memory limit. -/
def launchApp (s : Server) (app : App) (h : validAppName app.name = true) : Server :=
  { s with
    mgr := s.mgr.call (.add app)
    guard := s.guard.SetLimit app.name app.maxMemoryRestart
    appNames := Manager.Add_names h s.appNames }

theorem forget_names {s : Server} (sel : String) :
    ∀ name, (s.deployer.Forget sel).1.states.get name ≠ none → validAppName name = true := by
  intro name hname
  apply s.stateNames name
  intro hnone
  apply hname
  show (s.deployer.states.del sel).get name = none
  rw [Table.get_del, hnone, ite_self]

/-- The limits that go: those of the apps in the answer, unless the command fails. -/
def unguarded (s : Server) (sel : String) : List String :=
  match s.mgr.removedSnaps sel with
  | .error _ => []
  | .ok snaps => (snaps.map (·.name)).eraseDups

/-- The Delete command: the manager's part, the deployer's under the same string, then the guard's
for the apps the manager has named. A selector that matches no app is no error if it had a
deployment's state. -/
def deleteCommand (s : Server) (sel : String) : Server × Except String (List InstanceSnapshot) :=
  let answer := match s.mgr.removedSnaps sel with
    | .error text => if (s.deployer.Forget sel).2 then .ok [] else .error text
    | .ok snaps => .ok snaps
  ({ mgr := s.mgr.call (.delete sel)
     deployer := (s.deployer.Forget sel).1
     guard := (s.unguarded sel).foldl Memguard.Guard.Remove s.guard
     appNames := Manager.Delete_names sel s.appNames
     stateNames := forget_names sel }, answer)

end Server
end Marshal.Daemon
