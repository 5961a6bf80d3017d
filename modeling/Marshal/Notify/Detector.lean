import Marshal.Config
import Marshal.Lib.System
import Marshal.Notify.Model
import Marshal.Server.Registry

/-! The detector of fleet trouble.

At every tick it compares the fleet's snapshot with the one before and emits the
alerts that the differences imply, then the recoveries of the processes that are
under alert. Both go by the names of agent and process, which all instances of an
app share, and with them the entry of its deploy. -/
namespace Marshal.Notify
open Config Proto Server

/-- A snapshot of the fleet: no two agents of one name, and app names as they are validated. -/
structure FleetSnapshot where
  agents : List AgentState
  distinct : (agents.map (·.agentName)).Nodup
  named : ∀ a ∈ agents, ∀ p ∈ a.procs, validAppName p.name = true

/-- The snapshot the registry lists. -/
def FleetSnapshot.ofRegistry (r : Registry) (now : Int)
    (h : ∀ name e, r.agents.get name = some e → ∀ p ∈ e.procs, validAppName p.name = true) :
    FleetSnapshot where
  agents := r.list now
  distinct := by
    rw [Registry.list, List.map_map]
    exact r.agents.nodup_keys
  named := by
    intro a ha
    obtain ⟨entry, hentry, rfl⟩ := List.mem_map.mp ha
    exact h entry.1 entry.2 ((r.agents.mem_toList _ _).mp hentry)

/-! ### Differences -/

/-- The value a map built from a list in order has at a key: the last of it. -/
def lastWith {α : Type*} (key : α → String) (l : List α) (k : String) : Option α :=
  l.reverse.find? (key · == k)

def restarting : String := "restarting"
def errored : String := "errored"
def failed : String := "failed"
def online : String := "online"
def stopped : String := "stopped"

/-- The event of one entry's state, if it is not the one before. -/
def procEvent (agentName prevState : String) (p : ProcInfo) (now : Int) : Option Event :=
  if p.state = prevState then none
  else if p.state = restarting then
    some { type := .crash, agent := agentName, process := p.name, time := now,
           detail := "crashed (restart #" ++ toString p.restarts ++ ")" }
  else if p.state = errored then
    some { type := .restartLoop, agent := agentName, process := p.name, time := now,
           detail := "gave up after " ++ toString p.restarts ++ " restarts" }
  else if p.state = failed then
    some { type := .deployFail, agent := agentName, process := p.name, time := now,
           detail := if p.detail = "" then "deploy failed" else p.detail }
  else none

def connection (pa a : AgentState) (now : Int) : List Event :=
  if pa.connected && !a.connected then
    [{ type := .agentDown, agent := a.agentName, detail := "agent stopped reporting", time := now }]
  else if !pa.connected && a.connected then
    [{ type := .agentUp, agent := a.agentName, detail := "agent reconnected", time := now }]
  else []

/-- The events of one agent's entries. An entry whose name is new gives none. -/
def procEvents (pa a : AgentState) (now : Int) : List Event :=
  a.procs.filterMap fun p =>
    (lastWith (·.name) pa.procs p.name).bind fun pp => procEvent a.agentName pp.state p now

def diff (prev next : List AgentState) (now : Int) : List Event :=
  next.flatMap fun a => match lastWith (·.agentName) prev a.agentName with
    | none => []
    | some pa => connection pa a now ++ procEvents pa a now

/-! ### Recoveries -/

def procKey (agent process : String) : String := agent ++ "\x00" ++ process

def recoveryDetail : EventType → String
  | .crash => "recovered after crash"
  | .restartLoop => "recovered after restart loop"
  | .deployFail => "deploy recovered"
  | _ => "recovered"

/-- The alert types by the keys of the processes under alert. -/
abbrev Alerting := Table String EventType

/-- This tick's alerts are recorded. -/
def record (alerting : Alerting) (alerts : List Event) : Alerting :=
  alerts.foldl (fun t e => if e.process ≠ "" then t.set (procKey e.agent e.process) e.type else t)
    alerting

/-- The entries of all agents, in order. -/
def entries (next : List AgentState) : List (String × ProcInfo) :=
  next.flatMap fun a => a.procs.map fun p => (a.agentName, p)

def recovery (agent : String) (p : ProcInfo) (cause : EventType) (now : Int) : Event :=
  { type := .recovered, agent := agent, process := p.name, detail := recoveryDetail cause, time := now }

/-- An online entry of a process under alert is its recovery, a stopped one ends the alert. -/
def sweepEntry (now : Int) (acc : Alerting × List Event) (entry : String × ProcInfo) :
    Alerting × List Event :=
  match acc.1.get (procKey entry.1 entry.2.name) with
  | none => acc
  | some cause =>
    if entry.2.state = online then
      (acc.1.del (procKey entry.1 entry.2.name),
        acc.2 ++ [recovery entry.1 entry.2 cause now])
    else if entry.2.state = stopped then (acc.1.del (procKey entry.1 entry.2.name), acc.2)
    else acc

/-- Keys of which the snapshot has no entry are dropped. -/
def prune (alerting : Alerting) (present : List String) : Alerting :=
  alerting.discard fun key _ => key ∉ present

def recoveries (alerting : Alerting) (alerts : List Event) (next : List AgentState) (now : Int) :
    Alerting × List Event :=
  let (alerting, out) := (entries next).foldl (sweepEntry now) (record alerting alerts, [])
  (prune alerting ((entries next).map fun entry => procKey entry.1 entry.2.name), out)

/-! ### Ticks -/

structure Detector where
  prev : List AgentState := []
  alerting : Alerting := ∅
  /-- What was emitted, in order. -/
  emitted : List Event := []

structure Tick where
  next : FleetSnapshot
  now : Int

namespace Detector

def alerts (d : Detector) (t : Tick) : List Event := diff d.prev t.next.agents t.now

def recovered (d : Detector) (t : Tick) : List Event :=
  (recoveries d.alerting (d.alerts t) t.next.agents t.now).2

/-- One turn of the loop in `Run`. -/
def tick (d : Detector) (t : Tick) : Detector where
  prev := t.next.agents
  alerting := (recoveries d.alerting (d.alerts t) t.next.agents t.now).1
  emitted := d.emitted ++ (d.alerts t ++ d.recovered t)

/-- The runs of a new detector over any snapshots. -/
def machine : Transition.System Detector Tick where
  init d := d = {}
  step d t := some (d.tick t)

end Detector
end Marshal.Notify
