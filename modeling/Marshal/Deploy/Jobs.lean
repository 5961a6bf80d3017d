import Marshal.Config
import Marshal.Deploy.Deployer
import Marshal.Lib.Growing
import Marshal.Lib.System

/-! The deployer's calls and goroutines.

`Start`, `Redeploy` and `Commit` first ask the host about the app and then, under the
lock, take the app's entry in `states` as a busy flag. The first two go on in a
goroutine (`runDeploy`), a commit in the call itself. Each is a `Job`, whose program
counter names the points between which other goroutines can run. What git and the
build commands do to the disk, and whether they fail, is left to the run. -/
namespace Marshal.Deploy
open Config FilePath

inductive Kind where
  | fresh (app : App)
  | redeploy (name : String)
  | commit (name : String)
  deriving DecidableEq, Repr

def Kind.name : Kind → String
  | .fresh app => app.name
  | .redeploy name | .commit name => name

inductive Pc where
  /-- The host has been asked; the busy check is next. -/
  | check
  | refused (text : String)
  /-- `runDeploy`, before the first `setState`. -/
  | started
  /-- `fetch`, before the credential is written out. -/
  | credential
  /-- A fresh deploy, before the old directory is removed. -/
  | wipe
  /-- `git` runs. -/
  | fetch
  | fetched
  /-- The build command runs. -/
  | build
  /-- Before `Launch` or `Restart`. -/
  | launch
  | launched
  /-- An error, before it is put down as the state. -/
  | failing (stage err : String)
  /-- `mutateAndPush` runs. -/
  | push
  /-- `mutateAndPush` has returned, the deferred `clearState` is next. -/
  | pushed (err : Option String)
  | done
  deriving DecidableEq, Repr

structure Job where
  kind : Kind
  pc : Pc
  deriving DecidableEq, Repr

def Job.name (j : Job) : String := j.kind.name

/-- The deployer, what the host manages, with the apps' sources, and every call so far. -/
structure Jobs where
  deployer : Deployer
  managed : Table String (Option GitSource) := ∅
  jobs : List Job := []

/-- What a job meets in its next step: success, an error, or a command that has run. -/
inductive Event where
  | ok
  | fail (err : String)
  | ran (disk : Disk) (err : Option String)

inductive Action where
  | start (app : App)
  | redeploy (name : String)
  | commit (name : String)
  | job (k : Nat) (event : Event)
  | forget (name : String)
  /-- The host takes an app in or out by other ways. -/
  | hostAdd (name : String) (source : Option GitSource)
  | hostDelete (name : String)

namespace Jobs

def alreadyExists : String := "app %q already exists"
def notGit : String := "app %q is not git-sourced"

/-! ### The calls, up to the busy check -/

def call (s : Jobs) (kind : Kind) (pc : Pc) : Jobs := { s with jobs := s.jobs ++ [⟨kind, pc⟩] }

/-- A source that is there, names a repository and is valid. -/
def checkSource (source : Option GitSource) (missing : String) : Except String GitSource :=
  match source with
  | none => .error missing
  | some src => if src.repo = "" then .error missing else src.Validate.map fun _ => src

def Start (s : Jobs) (app : App) : Jobs :=
  s.call (.fresh app) <| match checkSource app.source "git source requires a repo" with
    | .error text => .refused text
    | .ok _ => if (s.managed.get app.name).isSome then .refused alreadyExists else .check

def Redeploy (s : Jobs) (name : String) : Jobs :=
  s.call (.redeploy name) <| match checkSource (s.managed.get name).join notGit with
    | .error text => .refused text
    | .ok _ => .check

def Commit (s : Jobs) (name : String) : Jobs :=
  s.call (.commit name) <| match (s.managed.get name).join with
    | none => .refused notGit
    | some src =>
      if src.repo = "" then .refused notGit
      else match s.deployer.Root name with
        | none => .refused Deployer.notDeployment
        | some _ => .check

/-! ### The steps of a job -/

/-- What a call answers when the app is busy. -/
def busyText : Kind → String
  | .fresh _ => alreadyExists
  | .redeploy _ => "app %q is already deploying"
  | .commit _ => "app %q is deploying"

/-- What a call puts down when it is not, and where it goes on. -/
def mark : Kind → DeployPhase × Pc
  | .fresh _ => (.cloning, .started)
  | .redeploy _ => (.building, .started)
  | .commit _ => (.committing, .push)

def summarize (stage err : String) : String := stage ++ " failed: " ++ err

def setState (s : Jobs) (name : String) (phase : DeployPhase) (detail : String) : Jobs :=
  { s with deployer := s.deployer.setState name phase detail }

def clearState (s : Jobs) (name : String) : Jobs :=
  { s with deployer := s.deployer.clearState name }

def onDisk (s : Jobs) (disk : Disk) : Jobs := { s with deployer := { s.deployer with disk := disk } }

/-- The host launches a new app, unless one of its name is there. -/
def Launch (s : Jobs) (app : App) : Jobs × Pc :=
  if (s.managed.get app.name).isSome then (s, .failing "launch" alreadyExists)
  else ({ s with managed := s.managed.set app.name app.source }, .launched)

/-- A step of a job, and where it stands then. -/
def advance (s : Jobs) (j : Job) : Pc → Event → Option (Jobs × Pc)
  | .check, .ok =>
    if (s.deployer.states.get j.name).isSome then some (s, .refused (busyText j.kind))
    else some (s.setState j.name (mark j.kind).1 "", (mark j.kind).2)
  | .started, .ok => some (s.setState j.name .cloning "", .credential)
  | .credential, .ok => some (s, match j.kind with
    | .fresh _ => .wipe
    | _ => .fetch)
  | .credential, .fail err => some (s, .failing "clone" err)
  | .wipe, .ok => some (s.onDisk (s.deployer.disk.RemoveAll (s.deployer.dir j.name)), .fetch)
  | .fetch, .ran disk none => some (s.onDisk disk, .fetched)
  | .fetch, .ran disk (some err) => some (s.onDisk disk, .failing "clone" err)
  | .fetched, .ok => some (s.setState j.name .building "", .build)
  | .build, .ok => some (s, .launch)
  | .build, .ran disk none => some (s.onDisk disk, .launch)
  | .build, .ran disk (some err) => some (s.onDisk disk, .failing "build" err)
  | .launch, .ok => some (match j.kind with
    | .fresh app => s.Launch app
    | _ => (s, .launched))
  | .launch, .fail err => match j.kind with
    | .fresh _ => none
    | _ => some (s, .failing "restart" err)
  | .launched, .ok => some (s.clearState j.name, .done)
  | .failing stage err, .ok => some (s.setState j.name .failed (summarize stage err), .done)
  | .push, .ran disk err => some (s.onDisk disk, .pushed err)
  | .pushed _, .ok => some (s.clearState j.name, .done)
  | _, _ => none

def step (s : Jobs) : Action → Option Jobs
  | .start app => some (s.Start app)
  | .redeploy name => some (s.Redeploy name)
  | .commit name => some (s.Commit name)
  | .job k event => do
    let j ← s.jobs[k]?
    let (t, pc) ← s.advance j j.pc event
    pure { t with jobs := t.jobs.set k { j with pc := pc } }
  | .forget name => some { s with deployer := (s.deployer.Forget name).1 }
  | .hostAdd name source => some { s with managed := s.managed.set name source }
  | .hostDelete name => some { s with managed := s.managed.del name }

/-- The runs of a new deployer over any disk and any host. -/
def machine : Transition.System Jobs Action where
  init s := s.jobs = [] ∧ s.deployer.states = ∅
  step := step

end Jobs

namespace Job

/-- The job has taken the busy flag and has not come to its end. -/
def active (j : Job) : Bool :=
  match j.pc with
  | .check | .refused _ | .done => false
  | _ => true

/-- `runDeploy` or `mutateAndPush` is in flight. -/
def inFlight (j : Job) : Bool :=
  match j.pc with
  | .check | .refused _ | .pushed _ | .done => false
  | _ => true

/-- The job has got past the busy check. -/
def taken (j : Job) : Bool :=
  match j.pc with
  | .check | .refused _ => false
  | _ => true

/-- A fresh deploy that has not removed the old directory yet. -/
def wipes (j : Job) : Bool :=
  match j.kind, j.pc with
  | .fresh _, .started | .fresh _, .credential | .fresh _, .wipe => true
  | _, _ => false

end Job
end Marshal.Deploy
