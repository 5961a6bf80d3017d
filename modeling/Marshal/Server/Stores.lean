import Marshal.Lib.Table
import Marshal.Proto
import Marshal.MetricStore
import Marshal.LogStore

/-! The server's per-agent stores.

Metric and log databases lie side by side in one directory per agent, named by
`sanitizeAgent`, and are opened on first use. The two families of stores differ in
what a database holds, so `Stores` is one definition over it. What the disk
decides — whether a directory can be made, a database opened, a statement run — is
an argument. -/
namespace Marshal.Server
open Proto

/-! ### Agent names and directories -/

def sanitizeChar (c : Char) : Char := if c = '/' ∨ c = '\\' ∨ c = '.' then '_' else c

/-- An agent name as a single path segment. -/
def sanitizeAgent (name : String) : String :=
  if name = "" then "_" else String.ofList (name.toList.map sanitizeChar)

/-- What opening a store meets. -/
inductive Opening where
  | ok
  | mkdirFails
  | openFails
deriving DecidableEq

/-- The databases of one family and the keys whose handle is open. -/
structure Stores (σ : Type) where
  files : Table String σ := ∅
  m : List String := []

namespace Stores
variable {σ : Type}

/-- What the agent's database holds; a database just created holds `empty`. -/
def content (s : Stores σ) (empty : σ) (agent : String) : σ :=
  (s.files.get (sanitizeAgent agent)).getD empty

/-- The agent's store, opened (and its directory made) on first use; `none` is an error. -/
def get (s : Stores σ) (dirs : List String) (empty : σ) (agent : String) (o : Opening) :
    List String × Stores σ × Option σ :=
  let key := sanitizeAgent agent
  if key ∈ s.m then (dirs, s, some (s.content empty agent))
  else match o with
    | .mkdirFails => (dirs, s, none)
    | .openFails => (key :: dirs, s, none)
    | .ok =>
      let st := s.content empty agent
      (key :: dirs, ⟨s.files.set key st, key :: s.m⟩, some st)

/-- Write the agent's database. -/
def put (s : Stores σ) (agent : String) (st : σ) : Stores σ :=
  { s with files := s.files.set (sanitizeAgent agent) st }

/-- Prune every open store. -/
def pruneAll (prune : σ → σ) (s : Stores σ) : Stores σ :=
  { s with files := s.m.foldl (fun files key => match files.get key with
      | none => files
      | some st => files.set key (prune st)) s.files }

end Stores

/-- The data directory with the handles of the running server. -/
structure DataDir where
  /-- The agent directories that exist. -/
  dirs : List String := []
  metrics : Stores MetricStore.Store := {}
  logs : Stores LogStore.Store := {}

namespace DataDir

/-- `has`: whether the agent's directory exists; the two families share it. -/
def has (d : DataDir) (agent : String) : Bool := sanitizeAgent agent ∈ d.dirs

def getMetrics (d : DataDir) (agent : String) (o : Opening) :
    DataDir × Option MetricStore.Store :=
  match d.metrics.get d.dirs {} agent o with
  | (dirs, metrics, st) => ({ d with dirs := dirs, metrics := metrics }, st)

def getLogs (d : DataDir) (agent : String) (o : Opening) : DataDir × Option LogStore.Store :=
  match d.logs.get d.dirs {} agent o with
  | (dirs, logs, st) => ({ d with dirs := dirs, logs := logs }, st)

/-! ### Watermarks, read on `Hello` -/

/-- `ack.LastMetricTsMs`: 0 when the store does not open or `MaxTs` fails. -/
def lastMetricTs (d : DataDir) (agent : String) (o : Opening) (reads : Bool) : DataDir × Int :=
  match d.getMetrics agent o with
  | (d, none) => (d, 0)
  | (d, some st) => (d, if reads then MetricStore.maxTs st else 0)

/-- `ack.LastLogTsMs`. -/
def lastLogTs (d : DataDir) (agent : String) (o : Opening) (reads : Bool) : DataDir × Int :=
  match d.getLogs agent o with
  | (d, none) => (d, 0)
  | (d, some st) => (d, if reads then LogStore.maxTs st else 0)

end DataDir

/-! ### Ingest -/

/-- One sample as it is stored. -/
def sampleOf (sm : MetricSample) : MetricStore.Sample := ⟨sm.label, sm.cpu, sm.mem.toUInt64⟩

/-- A flattened batch grouped by timestamp, oldest first. -/
def groupByTs (samples : List MetricSample) : List (Int × List MetricStore.Sample) :=
  let order := ((samples.map MetricSample.tsMs).eraseDups).mergeSort (fun a b => decide (a ≤ b))
  order.map fun ts => (ts, (samples.filter fun sm => sm.tsMs = ts).map sampleOf)

/-- The groups in turn, each one transaction; only the first `appended` succeed, and
the first failure ends the batch. -/
def appendGroups (st : MetricStore.Store) (groups : List (Int × List MetricStore.Sample))
    (appended : Nat) : MetricStore.Store :=
  (groups.take appended).foldl (fun st g => MetricStore.append st g.1 g.2) st

/-- A flattened log batch, oldest first, stable on equal timestamps. -/
def sortLines (lines : List LogShipLine) : List LogStore.Line :=
  (lines.map fun l => ⟨l.tsMs, l.label, l.stderr, l.text⟩).mergeSort fun a b => decide (a.tsMs ≤ b.tsMs)

namespace DataDir

def storeBatch (d : DataDir) (agent : String) (samples : List MetricSample) (o : Opening)
    (appended : Nat) : DataDir :=
  match d.getMetrics agent o with
  | (d, none) => d
  | (d, some st) =>
    { d with metrics := d.metrics.put agent (appendGroups st (groupByTs samples) appended) }

def storeLogBatch (d : DataDir) (agent : String) (lines : List LogShipLine) (o : Opening)
    (appends : Bool) : DataDir :=
  match d.getLogs agent o with
  | (d, none) => d
  | (d, some st) =>
    if appends then { d with logs := d.logs.put agent (LogStore.append st (sortLines lines)) } else d

/-- The retention sweep over the open stores of both families. -/
def pruneAll (d : DataDir) (beforeMs : Int) : DataDir :=
  { d with
    metrics := d.metrics.pruneAll (MetricStore.prune · beforeMs)
    logs := d.logs.pruneAll (LogStore.prune · beforeMs) }

end DataDir

end Marshal.Server
