import Marshal.Daemon.Command
import Marshal.Proto

/-! What the daemon reports to its server.

A snapshot has one entry for every instance of the manager and one for every deploy
that is under way or has failed. The samplers' and the event store's latest values
are read by label. -/
namespace Marshal.Daemon
open Config Proto Supervisor

/-- The resource use of one instance. -/
structure Sample where
  cpu : ℚ := 0
  mem : Nat := 0
  threads : Int := 0
  fds : Int := -1

/-- The restarts of one instance in the event store. -/
structure Rollup where
  count24h : Int := 0
  lastMs : Int := 0

def stateText : State → String
  | .starting => "starting"
  | .online => "online"
  | .stopping => "stopping"
  | .stopped => "stopped"
  | .restarting => "restarting"
  | .errored => "errored"

def int32 (n : Int) : Int := n.bmod (2 ^ 32)

/-- `time.Since` of a start time in milliseconds, 0 while not online. -/
def uptimeMs (s : InstanceSnapshot) (now : Int) : Int :=
  if s.state = .online ∧ s.startedAt ≠ 0 then (now - s.startedAt) / 1000000 else 0

def snapshotToProc (s : InstanceSnapshot) (sm : Sample) (rs : Rollup) (now : Int) : ProcInfo where
  id := int32 s.id
  name := s.name
  instanceId := int32 s.instanceID
  state := stateText s.state
  pid := int32 s.pid
  uptimeMs := uptimeMs s now
  restarts := int32 s.restarts
  cpu := sm.cpu
  mem := sm.mem
  source := s.source
  detail := ""
  credential := s.credential
  threads := sm.threads
  openFds := sm.fds
  exitCode := s.exitCode
  exitReason := s.exitReason
  restarts24h := rs.count24h
  lastRestartUnix := if 0 < rs.lastMs then rs.lastMs / 1000 else 0

def phaseText : Deploy.DeployPhase → String
  | .cloning => "cloning"
  | .building => "building"
  | .failed => "failed"
  | .committing => "committing"

/-- The entry of a deploy, which is no instance. -/
def deployProc (name : String) (st : Deploy.DeployState) : ProcInfo where
  id := 0
  name := name
  instanceId := 0
  state := phaseText st.phase
  pid := 0
  uptimeMs := 0
  restarts := 0
  cpu := 0
  mem := 0
  source := "git"
  detail := st.detail
  credential := ""
  threads := 0
  openFds := 0
  exitCode := 0
  exitReason := ""
  restarts24h := 0
  lastRestartUnix := 0

/-- `Deployer.Snapshots`: every deploy but a commit. -/
def deploySnapshots (d : Deploy.Deployer) : List ProcInfo :=
  (d.states.toList.filter fun entry => entry.2.phase != .committing).map fun entry =>
    deployProc entry.1 entry.2

def Manager.list (m : Manager) : List InstanceSnapshot := m.apps.flatMap m.snapshotApp

namespace Server

def fleetSnapshot (s : Server) (metrics : String → Option Sample) (rollups : String → Rollup)
    (now : Int) : List ProcInfo :=
  (s.mgr.list.map fun sn => snapshotToProc sn ((metrics sn.label).getD {}) (rollups sn.label) now) ++
    deploySnapshots s.deployer

/-- Every entry bears the name of an app or of a deploy, which are valid. -/
theorem fleetSnapshot_named (s : Server) (metrics : String → Option Sample)
    (rollups : String → Rollup) (now : Int) :
    ∀ p ∈ s.fleetSnapshot metrics rollups now, validAppName p.name = true := by
  intro p hp
  rcases List.mem_append.mp hp with hp | hp
  · obtain ⟨sn, hsn, rfl⟩ := List.mem_map.mp hp
    obtain ⟨a, ha, hsn⟩ := List.mem_flatMap.mp hsn
    obtain ⟨h, -, hsnap⟩ := List.mem_filterMap.mp hsn
    obtain ⟨w, -, rfl⟩ := Option.map_eq_some_iff.mp hsnap
    exact s.appNames a ha
  · obtain ⟨entry, hentry, rfl⟩ := List.mem_map.mp hp
    have hget := (s.deployer.states.mem_toList _ _).mp (List.mem_of_mem_filter hentry)
    exact s.stateNames entry.1 (by rw [show s.deployer.states.get entry.1 = _ from hget]; simp)

end Server
end Marshal.Daemon
