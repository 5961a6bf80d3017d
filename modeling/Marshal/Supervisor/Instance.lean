import Marshal.Config
import Marshal.Lib.System

/-! One supervised process.

`Run` starts the child, waits for it to exit or for its context to end, and asks
`handleExit` whether to start it again. The program counter `Pc` names each point
where other goroutines can look or act: between them a step is one section under
the mutex, one receive of a `select`, or one call into the operating system.
Clock readings, pids and exit errors are the environment's, so they are carried
by the actions. -/
namespace Marshal.Supervisor
open Config

inductive State where
  | starting
  | online
  | stopping
  | stopped
  | restarting
  | errored
  deriving DecidableEq, Repr

/-- The resolved restart policy; durations are nanoseconds. -/
structure Policy where
  mode : RestartMode
  minUptime : Int
  maxRestarts : Int
  baseBackoff : Int
  maxBackoff : Int
  killTimeout : Int
  deriving DecidableEq, Repr

/-! ### Backoff -/

/-- A 64-bit product wraps. -/
def duration (d : Int) : Int := d.bmod (2 ^ 64)

/-- The doubling loop, `attempt` times; it returns the cap as soon as it is reached. -/
def backoffLoop (d cap : Int) : Nat → Int
  | 0 => if d > cap then cap else d
  | attempt + 1 =>
    if duration (d * 2) ≥ cap then cap else backoffLoop (duration (d * 2)) cap attempt

/-- `base * 2^attempt`, capped. -/
def Backoff (attempt : Nat) (base cap : Int) : Int := backoffLoop base cap attempt

/-! ### How a child ends -/

/-- The error of `Wait` or of the start: an exit error with its code and text, or another. -/
inductive WaitError where
  | exit (code : Int) (text : String)
  | other (text : String)
  deriving DecidableEq, Repr

/-- The code and the reason recorded for an exit; no error is a clean exit. -/
def deriveExit : Option WaitError → Int × String
  | none => (0, "exit status 0")
  | some (.exit code text) => (code, text)
  | some (.other text) => (-1, text)

/-- The child as the goroutine that waits for it sees it: it runs, or its result is in the
`exited` channel. -/
inductive Child where
  | none
  | running
  | exited (waitErr : Option WaitError)
  deriving DecidableEq, Repr

/-! ### The instance -/

/-- Where the goroutine of `Run` stands. -/
inductive Pc where
  /-- The top of the loop. -/
  | start
  /-- The child is started, `set(StateOnline, …)` is next. -/
  | started (started pid : Int)
  /-- The select on the context and the child. -/
  | watch (started : Int)
  /-- `stop`, before the signal. -/
  | stop
  /-- SIGTERM is sent; the child or the kill timeout is awaited. -/
  | term
  /-- The child is killed and awaited. -/
  | kill
  /-- `stop` has returned. -/
  | halted
  /-- `handleExit`, before the exit is recorded. -/
  | exit (started : Int) (waitErr : Option WaitError)
  /-- The context and the restart mode are looked at. -/
  | decide (started : Int) (failed : Bool)
  /-- The stability accounting. -/
  | account (started : Int)
  /-- The restart hook is called. -/
  | hook (unstable : Nat)
  /-- The counter is compared with the limit. -/
  | limit (unstable : Nat)
  /-- The select on the context and the backoff timer. -/
  | backoff (delay : Int)
  | returned
  deriving DecidableEq, Repr

structure Instance where
  policy : Policy
  state : State := .starting
  pid : Int := 0
  restarts : Nat := 0
  unstable : Nat := 0
  startedAt : Int := 0
  exitCode : Int := 0
  exitReason : String := ""
  pc : Pc := .start
  child : Child := .none
  /-- The context is cancelled. -/
  done : Bool := false
  /-- How often the restart hook was called. -/
  callbacks : Nat := 0
  /-- How many children were started. -/
  children : Nat := 0
  /-- Every start attempt, the newest first, with its uptime once that is measured. -/
  attempts : List (Option Int) := []
  deriving DecidableEq, Repr

def NewInstance (policy : Policy) : Instance := { policy := policy }

namespace Instance

/-- A negative pid leaves the stored one, and so does an unset start time. -/
def set (i : Instance) (state : State) (pid : Int) (startedAt : Option Int) : Instance :=
  { i with
    state := state
    pid := if pid ≥ 0 then pid else i.pid
    startedAt := startedAt.getD i.startedAt }

def recordExit (i : Instance) (waitErr : Option WaitError) : Instance :=
  { i with exitCode := (deriveExit waitErr).1, exitReason := (deriveExit waitErr).2 }

def ResetCounters (i : Instance) : Instance := { i with restarts := 0, unstable := 0 }

/-- The answer of the restart mode. -/
def restart (mode : RestartMode) (failed : Bool) : Bool :=
  match mode with
  | .always => true
  | .onFailure => failed
  | .no => false
  | .other _ => false

/-- The first half of `handleExit`: a cancelled context or a mode that says no ends `Run`. -/
def decide (i : Instance) (started : Int) (failed : Bool) : Instance :=
  if i.done then
    { i.set .stopped 0 none with pc := .returned }
  else if restart i.policy.mode failed then
    { i with pc := .account started }
  else if failed then
    { i.set .errored 0 none with pc := .returned }
  else
    { i.set .stopped 0 none with pc := .returned }

/-- The counters under the lock; the attempt's uptime is the one measured here. -/
def account (i : Instance) (uptime : Int) : Instance :=
  let unstable := if uptime < i.policy.minUptime then i.unstable + 1 else 0
  { i with
    restarts := i.restarts + 1
    unstable := unstable
    pc := .hook unstable
    attempts := some uptime :: i.attempts.tail }

/-- The second half of `handleExit`: give up past the limit, else wait for the backoff. -/
def limit (i : Instance) (unstable : Nat) : Instance :=
  if (unstable : Int) > i.policy.maxRestarts then
    { i.set .errored 0 none with pc := .returned }
  else
    { i.set .restarting 0 none with
      pc := .backoff (Backoff unstable i.policy.baseBackoff i.policy.maxBackoff) }

/-! ### Steps -/

inductive Action where
  /-- `proc.Start` succeeds. -/
  | spawn (now pid : Int)
  /-- `proc.Start` fails. -/
  | spawnFail (now : Int) (err : WaitError)
  /-- The child ends. -/
  | childExit (waitErr : Option WaitError)
  /-- A select takes its `ctx.Done` case. -/
  | ctxDone
  /-- A receive from `exited`. -/
  | reap
  /-- The kill timeout or the backoff is over. -/
  | timer
  /-- The uptime is measured. -/
  | measure (now : Int)
  /-- Any other step of the goroutine. -/
  | next
  /-- The context is cancelled. -/
  | cancel
  | resetCounters
  deriving DecidableEq, Repr

/-- A receive from the `exited` channel. -/
def reap (i : Instance) : Option Instance :=
  match i.pc, i.child with
  | .watch started, .exited waitErr =>
    some { i with child := .none, pc := .exit started waitErr }
  | .term, .exited waitErr => some { i.recordExit waitErr with child := .none, pc := .halted }
  | .kill, .exited waitErr => some { i.recordExit waitErr with child := .none, pc := .halted }
  | _, _ => none

/-- The steps of the goroutine that depend on nothing outside it. -/
def next (i : Instance) : Option Instance :=
  match i.pc with
  | .started started pid =>
    some { i.set .online pid (some started) with pc := .watch started }
  | .stop => some { i.set .stopping 0 none with pc := .term }
  | .halted => some { i.set .stopped 0 none with pc := .returned }
  | .exit started waitErr =>
    some { i.recordExit waitErr with pc := .decide started waitErr.isSome }
  | .decide started failed => some (i.decide started failed)
  | .hook unstable => some { i with callbacks := i.callbacks + 1, pc := .limit unstable }
  | .limit unstable => some (i.limit unstable)
  | _ => none

def step (i : Instance) : Action → Option Instance
  | .spawn now pid =>
    if i.pc = .start ∧ 0 < pid then
      some { i with
        pc := .started now pid
        child := .running
        children := i.children + 1
        attempts := none :: i.attempts }
    else none
  | .spawnFail now err =>
    if i.pc = .start then
      some { i with pc := .exit now (some err), attempts := none :: i.attempts }
    else none
  | .childExit waitErr =>
    if i.child = .running then some { i with child := .exited waitErr } else none
  | .ctxDone =>
    match i.done, i.pc with
    | true, .watch _ => some { i with pc := .stop }
    | true, .backoff _ => some { i.set .stopped 0 none with pc := .returned }
    | _, _ => none
  | .reap => i.reap
  | .timer =>
    match i.pc with
    | .term => some { i with pc := .kill }
    | .backoff _ => some { i with pc := .start }
    | _ => none
  | .measure now =>
    match i.pc with
    | .account started => some (i.account (now - started))
    | _ => none
  | .next => i.next
  | .cancel => some { i with done := true }
  | .resetCounters => some i.ResetCounters

/-- The runs of one instance under a policy, from `NewInstance`. -/
def machine (policy : Policy) : Transition.System Instance Action where
  init i := i = NewInstance policy
  step := step

end Instance

end Marshal.Supervisor
