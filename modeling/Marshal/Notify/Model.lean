import Mathlib.Algebra.Group.Int.Defs
import Mathlib.Algebra.Group.Nat.Defs
import Marshal.Lib.Table

/-! Alerts and their settings.

Times and durations are nanoseconds. A number of seconds that comes from the settings
becomes a duration in 64-bit arithmetic. -/
namespace Marshal.Notify

inductive EventType where
  | crash
  | restartLoop
  | agentDown
  | agentUp
  | deployFail
  | recovered
  deriving DecidableEq, Repr

def EventType.text : EventType → String
  | .crash => "crash"
  | .restartLoop => "restart_loop"
  | .agentDown => "agent_down"
  | .agentUp => "agent_up"
  | .deployFail => "deploy_fail"
  | .recovered => "recovered"

/-- One detected condition; `process` is empty for an agent's own. -/
structure Event where
  type : EventType
  agent : String
  process : String := ""
  detail : String := ""
  time : Int
  /-- Positive for an alert that was merged with its recovery. -/
  resolvedIn : Int := 0
  deriving DecidableEq, Repr

structure Settings where
  cooldownSeconds : Int := 0
  suppressRecovery : Bool := false
  cooldownOverrides : Table EventType Int := ∅
  /-- The default where it is absent; 0 turns the coalescer off. -/
  coalesceWindowSeconds : Option Int := none

/-- `time.Duration(secs) * time.Second` -/
def seconds (secs : Int) : Int := (secs * 1000000000).bmod (2 ^ 64)

theorem seconds_lt (secs : Int) : seconds secs < 2 ^ 63 := by
  have hlt := @Int.bmod_lt (secs * 1000000000) (2 ^ 64) (by decide)
  unfold seconds
  omega

namespace Settings

/-- The override of the type, else the global cooldown. -/
def cooldownFor (s : Settings) (t : EventType) : Int :=
  seconds ((s.cooldownOverrides.get t).getD s.cooldownSeconds)

def defaultCoalesceWindowSeconds : Int := 10

def coalesceWindow (s : Settings) : Int :=
  seconds (s.coalesceWindowSeconds.getD defaultCoalesceWindowSeconds)

end Settings
end Marshal.Notify
