import Marshal.Daemon.Manager

/-! The daemon's `Run`.

Stored apps are added, then the RPC server serves until the context is cancelled or
`Kill` is called; the RPCs under way end, a last `StopAll` stops every instance, and
the process exits. Beside it goroutines call the manager: the handlers of RPCs and of
fleet commands, the restarts of the memory guard, and deployments. `Run` waits for
the RPC handlers only; the other loops look at the server's context between two
rounds, and what they have started looks at no context at all. -/
namespace Marshal.Daemon
open Config Supervisor

inductive Caller where
  | rpc
  | guard
  | fleet
  | deployer
  deriving DecidableEq, Repr

/-- A goroutine and the manager operations it has still to call. -/
structure Flight where
  caller : Caller
  todo : List Op
  live : Bool := true
  deriving DecidableEq, Repr

/-- Where `Run` stands. -/
inductive Phase where
  /-- Before `gs.Serve`, with the stored apps still to be added. -/
  | restoring (apps : List App)
  | serving
  /-- `gs.Serve` has returned and the server's context is cancelled. -/
  | served
  /-- The final `StopAll` holds `opMu`. -/
  | stopping
  /-- The final `StopAll` has released `opMu`; the stores are closed. -/
  | stopped
  | exited
  deriving DecidableEq, Repr

/-- The daemon process. -/
structure Marshald where
  mgr : Manager := {}
  phase : Phase
  /-- `Kill` was called. -/
  killed : Bool := false
  /-- New RPCs are accepted. -/
  accepts : Bool := false
  /-- The loops that run under the server's context. -/
  samplerRuns : Bool := false
  fleetRuns : Bool := false
  flights : List Flight := []
  /-- The goroutine that took `opMu` last. -/
  holder : Option Nat := none
  deriving DecidableEq, Repr

namespace Marshald

/-- `Run` with these stored apps. -/
def start (apps : List App) : Marshald := { phase := .restoring apps }

/-- The server's context is cancelled. -/
def serveDone (d : Marshald) : Bool :=
  d.mgr.ctxDone || match d.phase with
    | .restoring _ | .serving => false
    | .served | .stopping | .stopped | .exited => true

/-- A call to one operation by a selector. -/
def selects : Op → Bool
  | .stop _ | .restart _ | .reload _ | .resetCounters _ | .delete _ => true
  | .add _ | .updateEnv _ _ | .stopAll => false

def adds : Op → Bool
  | .add _ => true
  | _ => false

def updates : Op → Bool
  | .updateEnv _ _ => true
  | _ => false

/-- What a goroutine of this kind calls: apps are added and environments updated one after the
other, everything else is one call. -/
def calls : Caller → List Op → Bool
  | .rpc, ops => ops.all adds || ops.all updates || (ops.length == 1 && ops.all selects)
  | .fleet, ops => ops.all adds || (ops.length == 1 && ops.all selects)
  | .guard, [.restart _] => true
  | .deployer, [.restart _] => true
  | .deployer, [.add _] => true
  | _, _ => false

/-- Who starts a goroutine of this kind is still there. A deployment is started by a fleet
command. -/
def admits (d : Marshald) : Caller → Bool
  | .rpc => d.accepts
  | .guard => d.samplerRuns
  | .fleet => d.fleetRuns
  | .deployer => d.flights.any fun f => f.caller == .fleet && f.live

/-- The goroutine waits for its operation to end. -/
def busy (d : Marshald) (k : Nat) : Bool := d.mgr.running.isSome && d.holder == some k

inductive Action where
  /-- The next stored app is added. -/
  | restore
  | serve
  /-- A goroutine that will call these operations is started. -/
  | arrive (caller : Caller) (ops : List Op)
  /-- It takes `opMu` for the next of them. -/
  | call (k : Nat)
  /-- It ends, also before it has called all of them. -/
  | leave (k : Nat)
  /-- A step within the manager. -/
  | manager (a : Manager.Action)
  | kill
  /-- The watcher stops the RPC server. -/
  | gracefulStop
  /-- `gs.Serve` returns because it was stopped: every RPC has ended. -/
  | serveEnds
  /-- `gs.Serve` returns on its own. -/
  | serveFails
  | samplerEnds
  | fleetEnds
  /-- The final `StopAll` takes `opMu`. -/
  | stopAll
  | exit
  deriving DecidableEq, Repr

/-- What the manager does in a step. -/
def managerAction (d : Marshald) : Action → Option Manager.Action
  | .restore => match d.phase with
    | .restoring (app :: _) => some (.call (.add app))
    | _ => none
  | .call k => match d.flights[k]? with
    | some ⟨_, op :: _, true⟩ => some (.call op)
    | _ => none
  | .manager (.call _) => none
  | .manager a => some a
  | .stopAll => some (.call .stopAll)
  | _ => none

/-- Where `Run` stands after a step; the final `StopAll` returns when it releases `opMu`. -/
def nextPhase (d : Marshald) (m : Manager) : Action → Option Phase
  | .restore => match d.phase with
    | .restoring (_ :: rest) => some (.restoring rest)
    | _ => none
  | .serve => if d.phase = .restoring [] then some .serving else none
  | .arrive caller ops => if d.admits caller ∧ calls caller ops then some d.phase else none
  | .call _ | .kill => some d.phase
  | .manager _ => some (if d.phase = .stopping ∧ m.running = none then .stopped else d.phase)
  | .leave k => if d.busy k then none else some d.phase
  | .gracefulStop =>
    if d.accepts ∧ (d.killed ∨ d.serveDone) then some d.phase else none
  | .serveEnds =>
    if d.phase = .serving ∧ d.accepts = false ∧
      d.flights.all (fun f => f.caller != .rpc || !f.live) then some .served else none
  | .serveFails => if d.phase = .serving then some .served else none
  | .samplerEnds | .fleetEnds => if d.serveDone then some d.phase else none
  | .stopAll => if d.phase = .served then some .stopping else none
  | .exit => if d.phase = .stopped then some .exited else none

/-- The other fields after a step. -/
def update (d : Marshald) : Action → Marshald
  | .serve => { d with accepts := true, samplerRuns := true, fleetRuns := true }
  | .arrive caller ops => { d with flights := d.flights ++ [⟨caller, ops, true⟩] }
  | .call k => { d with
    flights := d.flights.modify k fun f => { f with todo := f.todo.tail }
    holder := some k }
  | .leave k => { d with flights := d.flights.modify k fun f => { f with live := false } }
  | .kill => { d with killed := true }
  | .gracefulStop => { d with accepts := false }
  | .samplerEnds => { d with samplerRuns := false }
  | .fleetEnds => { d with fleetRuns := false }
  | .stopAll => { d with holder := none }
  | .restore | .manager _ | .serveEnds | .serveFails | .exit => d

/-- These steps are steps of the manager as well. -/
def inManager : Action → Bool
  | .restore | .call _ | .manager _ | .stopAll => true
  | _ => false

/-- Nothing of the daemon goes on after the exit. -/
def step (d : Marshald) (a : Action) : Option Marshald :=
  if d.phase = .exited then none else do
    let m ← if inManager a then (d.managerAction a).bind d.mgr.step else some d.mgr
    let phase ← d.nextPhase m a
    pure { d.update a with mgr := m, phase := phase }

/-- The runs of the daemon over these stored apps. -/
def machine (apps : List App) : Transition.System Marshald Action where
  init d := d = start apps
  step := step

end Marshald
end Marshal.Daemon
