import Mathlib.Data.Rat.Defs

/-! Messages between an agent and the central server.

Field names are the protobuf ones. A `double` is a rational: nothing here computes
with one, and a stored one is finite. The payload of a control command and of its
result passes through the server and the fleet client unread, so it is a type
parameter (`Op`, `Res`). -/
namespace Marshal.Proto

structure ProcInfo where
  id : Int
  name : String
  instanceId : Int
  state : String
  pid : Int
  uptimeMs : Int
  restarts : Int
  cpu : ℚ
  mem : Int
  source : String
  detail : String
  credential : String
  threads : Int
  openFds : Int
  exitCode : Int
  exitReason : String
  restarts24h : Int
  lastRestartUnix : Int
deriving DecidableEq

structure HostMetrics where
  cpuPercent : ℚ
  load1 : ℚ
  load5 : ℚ
  load15 : ℚ
  memTotal : Nat
  memUsed : Nat
  memUsedPct : ℚ
  netRxBps : ℚ
  netTxBps : ℚ
deriving DecidableEq

structure Hello where
  agentName : String
  marshalVersion : String := ""
  hostname : String := ""
  os : String := ""
  arch : String := ""
  hostBootUnix : Int := 0
deriving DecidableEq

structure HelloAck where
  lastMetricTsMs : Int := 0
  lastLogTsMs : Int := 0
  /-- The minted per-agent token, on enrollment only. -/
  agentToken : String := ""
deriving DecidableEq

/-- One stored metric row on the wire. -/
structure MetricSample where
  tsMs : Int
  label : String
  cpu : ℚ
  mem : Int64
deriving DecidableEq

/-- One captured log line on the wire. -/
structure LogShipLine where
  tsMs : Int
  label : String
  stderr : Bool
  text : String
deriving DecidableEq

structure Command (Op : Type) where
  requestId : Nat
  op : Op
deriving DecidableEq

structure CommandResult (Res : Type) where
  requestId : Nat
  result : Res
deriving DecidableEq

/-- Agent to server. -/
inductive AgentMessage (Res : Type) where
  | hello (h : Hello)
  | snapshot (procs : List ProcInfo) (host : Option HostMetrics)
  | metrics (samples : List MetricSample)
  | logs (lines : List LogShipLine)
  | result (r : CommandResult Res)
deriving DecidableEq

/-- Server to agent. -/
inductive ServerMessage (Op : Type) where
  | helloAck (ack : HelloAck)
  | command (c : Command Op)
deriving DecidableEq

/-- `msg.GetCommand()`, `none` for any other message. -/
def ServerMessage.command? {Op : Type} : ServerMessage Op → Option (Command Op)
  | .helloAck _ => none
  | .command c => some c

/-- `msg.GetHelloAck()`, `none` for any other message. -/
def ServerMessage.helloAck? {Op : Type} : ServerMessage Op → Option HelloAck
  | .helloAck ack => some ack
  | .command _ => none

/-- gRPC status codes the server answers with. -/
inductive Code where
  | invalidArgument
  | notFound
  | alreadyExists
  | permissionDenied
  | resourceExhausted
  | internal
  | unavailable
  | unauthenticated
deriving DecidableEq

/-- A status error; `text` is the format string, without its arguments. -/
structure Status where
  code : Code
  text : String
deriving DecidableEq

end Marshal.Proto
