import Marshal.Daemon.Selector
import Marshal.Supervisor.Lifecycle

/-! The manager and its operations.

An operation holds `opMu` from its call to its answer, so at most one is under way;
what it has still to do is a list of instructions, each of them one section under
the data lock, one wait, or one call to an instance. Between two instructions the
instance goroutines take steps of their own. The instances ever started stay in
`workers`, also when no app holds them any more. -/
namespace Marshal.Daemon
open Config Supervisor

/-- What `proc.Start` is given. -/
structure ProcSpec where
  cmd : String
  args : List String
  cwd : String
  env : List (String × String)
  instanceID : Nat
  deriving DecidableEq, Repr

/-- One instance goroutine and the slot, app name and index, it was started for. -/
structure Worker where
  app : String
  idx : Nat
  spec : ProcSpec
  inst : Instance
  /-- How often an operation cancelled it or reset its counters. -/
  calls : Nat := 0
  deriving DecidableEq, Repr

structure InstanceSnapshot where
  id : Int
  name : String
  instanceID : Nat
  label : String
  source : String
  credential : String
  state : State
  pid : Int
  restarts : Nat
  startedAt : Int
  exitCode : Int
  exitReason : String
  deriving DecidableEq, Repr

inductive Op where
  | add (app : App)
  | stop (sel : String)
  | restart (sel : String)
  | reload (sel : String)
  | updateEnv (name : String) (env : List (String × String))
  | resetCounters (sel : String)
  | delete (sel : String)
  | stopAll
  deriving DecidableEq, Repr

/-- How an operation ends; `panic` is an index out of range. -/
inductive Outcome where
  | ok (snaps : List InstanceSnapshot)
  | error (text : String)
  | panic
  deriving DecidableEq, Repr

inductive Instr where
  /-- `in.cancel()` -/
  | cancel (w : Nat)
  /-- `<-in.done` -/
  | wait (w : Nat)
  /-- Every instance of these apps is started anew. -/
  | fresh (ps : List Nat)
  /-- A turn of the reload loop: the slot's instance is looked up. -/
  | reloadSlot (p idx : Nat)
  /-- Its replacement is started. -/
  | replace (p idx : Nat)
  /-- `waitInstanceOnline`: the instance is online, or the time is up. -/
  | online (w : Nat)
  | checkCtx
  | resetCounters (w : Nat)
  | describe (sel : String)
  | answer (snaps : List InstanceSnapshot)
  deriving DecidableEq, Repr

structure Running where
  op : Op
  todo : List Instr
  deriving DecidableEq, Repr

structure Manager where
  apps : List ManagedApp := []
  nextID : Int := 0
  workers : List Worker := []
  /-- The base context is cancelled. -/
  ctxDone : Bool := false
  /-- The operation that holds `opMu`. -/
  running : Option Running := none
  /-- The operations that are over, the newest first. -/
  results : List (Op × Outcome) := []
  deriving DecidableEq, Repr

namespace Manager

/-! ### Instances -/

/-- `time.Second`, in nanoseconds. -/
def second : Int := 1000000000

def policyFor (app : App) : Policy where
  mode := app.restart
  minUptime := second
  maxRestarts := app.maxRestarts
  baseBackoff := second / 10
  maxBackoff := 15 * second
  killTimeout := app.killTimeout

/-- `name#idx` -/
def label (name : String) (idx : Nat) : String := name ++ "#" ++ toString idx

/-- The goroutine `startInstance` starts; its context is cancelled from the start if the
base context is. -/
def worker (app : App) (idx : Nat) (ctxDone : Bool) : Worker where
  app := app.name
  idx := idx
  spec := ⟨app.cmd, app.args, app.cwd, app.env, idx⟩
  inst := { NewInstance (policyFor app) with done := ctxDone }

/-- The loop that starts all instances of an app: its new goroutines and the handles on
them, when `base` instances were started before. -/
def startInstances (base : Nat) (ctxDone : Bool) (app : App) : List Worker × List ManagedInstance :=
  ((List.range app.instances.toNat).map fun idx => worker app idx ctxDone,
    (List.range app.instances.toNat).map fun idx => ⟨idx, label app.name idx, base + idx⟩)

def snapshot (app : ManagedApp) (h : ManagedInstance) (i : Instance) : InstanceSnapshot where
  id := app.id
  name := app.name
  instanceID := h.instanceID
  label := h.label
  source := if app.spec.source.isSome then "git" else "command"
  credential := match app.spec.source with
    | some source => source.credential
    | none => ""
  state := i.state
  pid := i.pid
  restarts := i.restarts
  startedAt := i.startedAt
  exitCode := i.exitCode
  exitReason := i.exitReason

def snapshotApp (m : Manager) (app : ManagedApp) : List InstanceSnapshot :=
  app.insts.filterMap fun h => (m.workers[h.inst]?).map fun w => snapshot app h w.inst

/-! ### The parts of an operation -/

/-- `opMu` is released with an answer. -/
def finish (m : Manager) (op : Op) (outcome : Outcome) : Manager :=
  { m with running := none, results := (op, outcome) :: m.results }

/-- Every context first, then every wait. -/
def stopInstances (insts : List ManagedInstance) : List Instr :=
  insts.map (fun h => .cancel h.inst) ++ insts.map (fun h => .wait h.inst)

def Describe (m : Manager) (sel : String) : Outcome :=
  match resolve m.apps sel with
  | .error text => .error text
  | .ok ps => .ok (ps.flatMap fun p => match m.apps[p]? with
    | some a => m.snapshotApp a
    | none => [])

def Specs (m : Manager) : List App := m.apps.map (·.spec)

/-- The 64-bit successor. -/
def succ64 (n : Int) : Int := (n + 1).bmod (2 ^ 64)

/-- The id `Add` gives: the stored one if it is positive and free, else a fresh one. -/
def assignID (m : Manager) (app : App) : Int :=
  if app.id ≤ 0 || idTaken m.apps app.id then succ64 (maxAppID m.apps) else app.id

def alreadyExists : String := "app %q already exists"

def Add (m : Manager) (app : App) : Manager :=
  if m.apps.any (·.name == app.name) then m.finish (.add app) (.error alreadyExists)
  else
    let id := m.assignID app
    let spec := { app with id := id }
    let (started, insts) := startInstances m.workers.length m.ctxDone spec
    let ma : ManagedApp := ⟨id, app.name, spec, insts⟩
    let m := { m with
      apps := m.apps ++ [ma]
      nextID := if id > m.nextID then id else m.nextID
      workers := m.workers ++ started }
    m.finish (.add app) (.ok (m.snapshotApp ma))

/-- The apps at `ps` are selected, or the operation answers with an error. -/
def selected (m : Manager) (op : Op) (sel : String) (todo : List Nat → List Instr) : Manager :=
  match resolve m.apps sel with
  | .error text => m.finish op (.error text)
  | .ok ps => { m with running := some ⟨op, todo ps⟩ }

/-- The turns of the reload loop. -/
def reloadSlots (m : Manager) (ps : List Nat) : List Instr :=
  ps.flatMap fun p => match m.apps[p]? with
    | some a => (List.range a.spec.instances.toNat).map fun idx => .reloadSlot p idx
    | none => []

def UpdateEnv (m : Manager) (name : String) (env : List (String × String)) : Manager :=
  match resolve m.apps name with
  | .error text => m.finish (.updateEnv name env) (.error text)
  | .ok [] => m.finish (.updateEnv name env) .panic
  | .ok (p :: _) =>
    let m := { m with apps := m.apps.modify p fun a => { a with spec := { a.spec with env := env } } }
    { m with running := some ⟨.updateEnv name env,
      stopInstances (collectInstances m.apps [p]) ++ [.fresh [p], .describe name]⟩ }

/-- The apps are unlinked by their ids, then their instances are stopped. -/
def Delete (m : Manager) (sel : String) : Manager :=
  match resolve m.apps sel with
  | .error text => m.finish (.delete sel) (.error text)
  | .ok ps =>
    let apps := ps.filterMap fun p => m.apps[p]?
    { m with
      apps := m.apps.filter fun a => !apps.any (·.id == a.id)
      running := some ⟨.delete sel, stopInstances (collectInstances m.apps ps) ++
        [.answer (apps.flatMap m.snapshotApp)]⟩ }

/-- The first critical section of an operation. -/
def call (m : Manager) (op : Op) : Manager :=
  match op with
  | .add app => m.Add app
  | .stop sel => m.selected op sel fun ps =>
    stopInstances (collectInstances m.apps ps) ++ [.describe sel]
  | .restart sel => m.selected op sel fun ps =>
    stopInstances (collectInstances m.apps ps) ++ [.fresh ps, .describe sel]
  | .reload sel => m.selected op sel fun ps => m.reloadSlots ps ++ [.describe sel]
  | .updateEnv name env => m.UpdateEnv name env
  | .resetCounters sel => m.selected op sel fun ps =>
    (collectInstances m.apps ps).map (fun h => .resetCounters h.inst) ++ [.describe sel]
  | .delete sel => m.Delete sel
  | .stopAll =>
    { m with running := some ⟨op, stopInstances (collectInstances m.apps
      (List.range m.apps.length)) ++ [.answer []]⟩ }

/-! ### Instructions -/

/-- An operation's call to an instance. -/
def touch (m : Manager) (w : Nat) (f : Instance → Instance) : Manager :=
  { m with workers := m.workers.modify w fun x => { x with inst := f x.inst, calls := x.calls + 1 } }

/-- One app's instances are started anew. -/
def freshApp (m : Manager) (p : Nat) : Manager :=
  match m.apps[p]? with
  | none => m
  | some a =>
    let (started, insts) := startInstances m.workers.length m.ctxDone a.spec
    { m with
      apps := m.apps.set p { a with insts := insts }
      workers := m.workers ++ started }

/-- The slot's new instance replaces the old one, or is appended. -/
def replaceSlot (m : Manager) (p idx : Nat) : Manager :=
  match m.apps[p]? with
  | none => m
  | some a =>
    let h : ManagedInstance := ⟨idx, label a.spec.name idx, m.workers.length⟩
    { m with
      apps := m.apps.set p { a with
        insts := if idx < a.insts.length then a.insts.set idx h else a.insts ++ [h] }
      workers := m.workers ++ [worker a.spec idx m.ctxDone] }

def canceled : String := "context canceled"

/-- The instances in a slot, to be stopped before the replacement. -/
def slot (m : Manager) (p idx : Nat) : List ManagedInstance :=
  match m.apps[p]? with
  | none => []
  | some a => (a.insts[idx]?).toList

def proceed (m : Manager) (op : Op) (todo : List Instr) : Manager :=
  { m with running := some ⟨op, todo⟩ }

/-- The instance goroutine is over. -/
def isDone (m : Manager) (w : Nat) : Bool :=
  match m.workers[w]? with
  | some x => x.inst.pc == .returned
  | none => false

/-- The next instruction of the operation; `none` while it waits. -/
def execute (m : Manager) (op : Op) : List Instr → Option Manager
  | [] => none
  | .cancel w :: rest => some ((m.touch w fun i => { i with done := true }).proceed op rest)
  | .wait w :: rest => if m.isDone w then some (m.proceed op rest) else none
  | .fresh ps :: rest => some ((ps.foldl freshApp m).proceed op rest)
  | .reloadSlot p idx :: rest =>
    some (m.proceed op (stopInstances (m.slot p idx) ++ .replace p idx :: rest))
  | .replace p idx :: rest =>
    some ((m.replaceSlot p idx).proceed op (.online m.workers.length :: .checkCtx :: rest))
  | .online _ :: rest => some (m.proceed op rest)
  | .checkCtx :: rest =>
    if m.ctxDone then some (m.finish op (.error canceled)) else some (m.proceed op rest)
  | .resetCounters w :: rest => some ((m.touch w Instance.ResetCounters).proceed op rest)
  | .describe sel :: _ => some (m.finish op (m.Describe sel))
  | .answer snaps :: _ => some (m.finish op (.ok snaps))

/-! ### Steps -/

inductive Action where
  /-- A caller takes `opMu`. -/
  | call (op : Op)
  /-- The operation under way executes its next instruction. -/
  | exec
  /-- A step of an instance goroutine or of its child. A cancelled base context reaches the
  instances one by one. -/
  | worker (w : Nat) (a : Instance.Action)
  | cancelCtx
  deriving DecidableEq, Repr

/-- The steps an instance takes on its own: its counters are reset by an operation only, and
it is cancelled by one or through the base context. -/
def ownStep (m : Manager) : Instance.Action → Bool
  | .cancel => m.ctxDone
  | .resetCounters => false
  | _ => true

def step (m : Manager) : Action → Option Manager
  | .call op =>
    match m.running with
    | none => some (m.call op)
    | some _ => none
  | .exec =>
    match m.running with
    | none => none
    | some r => m.execute r.op r.todo
  | .worker w a =>
    if m.ownStep a then do
      let x ← m.workers[w]?
      let i ← x.inst.step a
      pure { m with workers := m.workers.set w { x with inst := i } }
    else none
  | .cancelCtx => some { m with ctxDone := true }

/-- The runs of the manager from `New`. -/
def machine : Transition.System Manager Action where
  init m := m = {}
  step := step

end Manager
end Marshal.Daemon
