import Marshal.Daemon.Tables

/-! The registry's log sinks beside the manager.

A sink is created when its label is first asked for, with the policy that is registered
then for the label's app, and is kept until an instance of the label is deleted. The
manager asks for the label of every instance it starts, a deploy or redeploy for its app's
first label before it clones. A launch registers the app's policy and then has the app
added; where the manager is busy, anything may happen in between. -/
namespace Marshal.Daemon
open Config

namespace Manager

/-- The labels of the instances that a step started. -/
def startedLabels (m t : Manager) : List String :=
  (t.workers.drop m.workers.length).map fun w => label w.app w.idx

/-- The labels in the answer of a deletion that a step ended. -/
def removedLabels (m t : Manager) : List String :=
  if t.results.length = m.results.length then []
  else match t.results with
    | (.delete _, .ok snaps) :: _ => snaps.map (·.label)
    | _ => []

end Manager

structure LogService where
  mgr : Manager := {}
  logs : Logs.Policies
  /-- The policy that each sink was created with, by label. -/
  sinks : Table String Logs.Policy := ∅
  /-- The labels of started instances whose writers are still to be asked for. -/
  starting : List String := []
  logPolicyDefault : Logs.Policy

namespace LogService

/-! ### Steps -/

/-- The label's sink, created where there is none. -/
def For (s : LogService) (label : String) : LogService :=
  { s with sinks := s.sinks.fill s.logs.policyFor label }

def Remove (s : LogService) (labels : List String) : LogService :=
  { s with sinks := labels.foldl Table.del s.sinks }

inductive Action where
  /-- A policy is registered for a launch, or for a saved app when the daemon starts. -/
  | SetPolicy (app : App)
  /-- The output of a deploy or redeploy is set up. -/
  | Writers (name : String)
  /-- The writers of the next started instance are asked for. -/
  | startInstance
  /-- A step of the manager or of an instance. -/
  | manager (a : Manager.Action)

/-- An operation goes on, and lets another one in, when all it started have their writers. -/
def ready (s : LogService) : Manager.Action → Bool
  | .call _ | .exec => s.starting.isEmpty
  | .worker _ _ | .cancelCtx => true

/-- What is left when the manager went over to `m`. The sinks of a deletion are removed at its
end. -/
def follow (s : LogService) (m : Manager) : LogService :=
  { s.Remove (s.mgr.removedLabels m) with
    mgr := m
    starting := s.starting ++ s.mgr.startedLabels m }

def step (s : LogService) : Action → Option LogService
  | .SetPolicy app =>
    some { s with logs := s.logs.SetPolicy app.name (logPolicy app s.logPolicyDefault) }
  | .Writers name => some (s.For (Manager.label name 0))
  | .startInstance => match s.starting with
    | [] => none
    | label :: rest => some { s.For label with starting := rest }
  | .manager a => if s.ready a then (s.mgr.step a).map s.follow else none

def start (policy : Logs.Policy) : LogService where
  logs := Logs.Policies.SetDefaultPolicy {} policy
  logPolicyDefault := policy

/-- The runs of the daemon with this default policy. -/
def machine (policy : Logs.Policy) : Transition.System LogService Action where
  init s := s = start policy
  step := step

/-! ### The sinks' policies -/

/-- Every sink of an instance of a managed app was created with the app's effective policy. -/
def Effective (s : LogService) : Prop :=
  ∀ a ∈ s.mgr.apps, ∀ h ∈ a.insts, ∀ p ∈ s.sinks.get h.label, p = logPolicy a.spec s.logPolicyDefault

instance (s : LogService) : Decidable s.Effective := by
  unfold Effective
  infer_instance

/-- What is registered for an app, or else the default. -/
def registered (s : LogService) (name : String) : Logs.Policy :=
  (s.logs.policies.get name).getD s.logs.default

/-- If the label is a managed app's and has no sink, the app's effective policy is registered. -/
def Registered (s : LogService) (label : String) : Prop :=
  ∀ app ∈ s.mgr.Specs, ∀ idx < app.instances.toNat, label = Manager.label app.name idx →
    s.sinks.get label = none → s.registered app.name = logPolicy app s.logPolicyDefault

instance (s : LogService) (label : String) : Decidable (s.Registered label) := by
  unfold Registered
  infer_instance

/-- Where a managed app is to get a sink, its effective policy is registered, and where an app is
taken in, no sink with another policy is left under its labels. -/
def Prepared (s : LogService) : Action → Prop
  | .Writers name => s.Registered (Manager.label name 0)
  | .startInstance => ∀ label ∈ s.starting.head?, s.Registered label
  | .manager (.call (.add app)) => (∀ a ∈ s.mgr.apps, a.name ≠ app.name) →
    ∀ idx < app.instances.toNat, ∀ p ∈ s.sinks.get (Manager.label app.name idx),
      p = logPolicy app s.logPolicyDefault
  | _ => True

instance (s : LogService) : (a : Action) → Decidable (s.Prepared a)
  | .Writers name => inferInstanceAs (Decidable (s.Registered (Manager.label name 0)))
  | .startInstance => inferInstanceAs (Decidable (∀ label ∈ s.starting.head?, s.Registered label))
  | .manager (.call (.add _)) => inferInstanceAs (Decidable (_ → _))
  | .manager (.call (.stop _)) | .manager (.call (.restart _)) | .manager (.call (.reload _))
  | .manager (.call (.updateEnv _ _)) | .manager (.call (.resetCounters _))
  | .manager (.call (.delete _)) | .manager (.call .stopAll) | .manager .exec
  | .manager (.worker _ _) | .manager .cancelCtx | .SetPolicy _ => isTrue trivial

end LogService
end Marshal.Daemon
