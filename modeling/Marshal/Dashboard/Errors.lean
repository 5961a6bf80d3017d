import Marshal.Ackstore
import Marshal.Errsig.Seen
import Marshal.Server.Isolation

/-! The errors page: which error signatures the agents' logs hold, and which of them are
acknowledged.

A request reads the agents' stderr lines of the window one agent after the other, up to a
limit, and aggregates them. A signature is acknowledged if its acknowledgement is not older
than the signature's last line, in whole seconds. -/
namespace Marshal.Dashboard.Errors
open Errsig Server

/-! ### The page -/

def errSparkBuckets : Int := 24

/-- The most lines of one request. -/
def errMaxScan : Nat := 200000

def dayMs : Int := 24 * 60 * 60 * 1000

def retentionMs : Int := 7 * dayMs

/-- The range token's canonical form and the length of the window. -/
def rangeMs (tok : String) : String × Int :=
  if tok = "7d" then ("7d", 7 * dayMs)
  else if tok = "all" then ("all", retentionMs)
  else ("24h", dayMs)

/-- Acknowledged, and not seen again since. -/
def acknowledged (acked : Bool) (ackedAtMs lastUnix : Int) : Bool :=
  acked && decide (lastUnix * 1000 ≤ ackedAtMs)

structure ErrSigView extends Sig where
  acknowledged : Bool

structure ErrClusterView extends Cluster where
  unacknowledged : Nat

structure ErrorsView where
  range : String
  since : Int
  now : Int
  cluster : ErrClusterView
  signatures : List ErrSigView
  truncated : Bool

structure Query where
  range : String
  agent : String

structure Handler where
  /-- `none` disables acknowledgement. -/
  acks : Option Ackstore.Acks
  logsHist : DataDir

variable (lib : Library)

def Handler.ackedAt (h : Handler) (id : String) : Int × Bool :=
  match h.acks with
  | none => (0, false)
  | some acks => match acks.get id with
    | none => (0, false)
    | some atMs => (atMs, true)

/-- The agent of the query, or all that are listed. -/
def Query.agents (q : Query) (listed : List String) : List String :=
  if q.agent ≠ "" then [q.agent] else listed

def tagged (agent : String) (ln : LogStore.StoredLine) : Line := ⟨ln.tsMs, ln.label, ln.text, agent⟩

/-- Appends an agent's rows up to the limit, and says whether it is reached. -/
def appendRows (agent : String) (lines : List Line) : List LogStore.StoredLine → List Line × Bool
  | [] => (lines, false)
  | ln :: rest =>
    let lines := lines ++ [tagged agent ln]
    if errMaxScan ≤ lines.length then (lines, true) else appendRows agent lines rest

/-- The agents' lines in turn; `none` if a read fails. What the disk does is given for each agent. -/
def scan (since : Int) (disk : String → Opening × ReadFault) (d : DataDir) (lines : List Line) :
    List String → DataDir × Option (List Line × Bool)
  | [] => (d, some (lines, false))
  | ag :: rest => match d.stderrSince ag since (disk ag).1 (disk ag).2 with
    | (d, none) => (d, none)
    | (d, some rows) => match appendRows ag lines rows with
      | (lines, true) => (d, some (lines, true))
      | (lines, false) => scan since disk d lines rest

def Handler.sigView (h : Handler) (s : Sig) : ErrSigView :=
  let (at_, ok) := h.ackedAt s.id
  { s with acknowledged := acknowledged ok at_ s.lastUnix }

def Handler.view (h : Handler) (range : String) (since now : Int) (lines : List Line) (truncated : Bool) :
    ErrorsView :=
  let res := Aggregate lib lines since now errSparkBuckets
  let signatures := res.signatures.map h.sigView
  { range := range, since := since, now := now, truncated := truncated
    cluster := { res.cluster with unacknowledged := (signatures.filter fun s => !s.acknowledged).length }
    signatures := signatures }

/-- `GET /api/errors`; `none` is 500, "internal error". -/
def Handler.errors (h : Handler) (q : Query) (listed : List String) (now : Int)
    (disk : String → Opening × ReadFault) : Handler × Option ErrorsView :=
  let (rng, window) := rangeMs q.range
  let since := now - window
  match scan since disk h.logsHist [] (q.agents listed) with
  | (d, none) => ({ h with logsHist := d }, none)
  | (d, some (lines, truncated)) => ({ h with logsHist := d }, some (h.view lib rng since now lines truncated))

/-- A status and the text of its error. -/
structure Answer where
  status : Nat
  message : String
  deriving DecidableEq

structure AckRequest where
  id : String
  ack : Bool

/-- `POST /api/errors/ack` at `nowMs`; `none` is a body that does not decode. The map is changed
before it is saved. -/
def Handler.ackError (h : Handler) (body : Option AckRequest) (nowMs : Int) (saves : Bool) : Handler × Answer :=
  match h.acks, body with
  | none, _ => (h, ⟨503, "acknowledgement unavailable"⟩)
  | some _, none => (h, ⟨400, "bad request"⟩)
  | some acks, some req =>
    if req.id = "" then (h, ⟨400, "bad request"⟩)
    else
      let op : Ackstore.Op := if req.ack then .Ack req.id nowMs else .Unack req.id
      ({ h with acks := some (op.apply acks).1 },
        if saves then ⟨200, "ok"⟩ else ⟨500, "internal error"⟩)

end Marshal.Dashboard.Errors
