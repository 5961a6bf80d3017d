import Marshal.Server.Stores

/-! What operators and the dashboard read back: metric history, log history, log
following, error counts. Every read goes through the agent's directory; an agent
without one is not found. -/
namespace Marshal.Server
open Proto

/-- Which statement of a read fails. -/
inductive ReadFault where
  | none
  | labels
  | rows
deriving DecidableEq

/-- The selector names a label exactly, or an app whose instances are labels. -/
def selects (sel label : String) : Bool :=
  label == sel || (sel ++ "#").toList.isPrefixOf label.toList

/-! ### Metric history -/

structure MetricsHistoryRequest where
  agentName : String
  selector : String
  sinceMs : Int
  bucketMs : Int

def defaultHistoryMs : Int := 60 * 60 * 1000

/-- `stores.History` on an open store, at the time `nowMs`. -/
def historyOf (st : MetricStore.Store) (selector : String) (sinceMs bucketMs nowMs : Int)
    (fault : ReadFault) : Except Status (List MetricStore.Bucket) :=
  match fault with
  | .labels => .error ⟨.internal, "history: %v"⟩
  | .rows => .error ⟨.internal, "history: %v"⟩
  | .none =>
    let matched := (MetricStore.labels st).filter (selects selector)
    let bucketMs := MetricStore.autoBucketMs sinceMs bucketMs
    match matched.mapM fun l => MetricStore.query st ⟨l, nowMs - sinceMs, bucketMs⟩ with
    | .error _ => .error ⟨.internal, "history: %v"⟩
    | .ok series => .ok (MetricStore.mergeBuckets series)

def DataDir.fleetMetricsHistory (d : DataDir) (req : MetricsHistoryRequest) (nowMs : Int)
    (o : Opening) (fault : ReadFault) : DataDir × Except Status (List MetricStore.Bucket) :=
  if d.has req.agentName then
    let sinceMs := if req.sinceMs ≤ 0 then defaultHistoryMs else req.sinceMs
    match d.getMetrics req.agentName o with
    | (d, none) => (d, .error ⟨.internal, "history: %v"⟩)
    | (d, some st) => (d, historyOf st req.selector sinceMs req.bucketMs nowMs fault)
  else (d, .error ⟨.notFound, "no metric history for agent %q"⟩)

/-! ### Log history -/

structure LogsHistoryRequest where
  agentName : String
  selector : String
  lines : Int
  stream : LogStore.StreamFilter
  grep : String

/-- A log line as it is answered. -/
structure LogLine where
  name : String
  instanceId : Int
  stderr : Bool
  line : String
deriving DecidableEq

/-- `strconv.Atoi` with its error dropped: 0 unless the text is an optional sign and
digits, and the nearest 64-bit integer where the number has none. -/
def atoi (s : List Char) : Int :=
  let (neg, digits) := match s with
    | '-' :: rest => (true, rest)
    | '+' :: rest => (false, rest)
    | rest => (false, rest)
  if digits.isEmpty || !digits.all Char.isDigit then 0
  else
    let n : Int := digits.foldl (fun acc c => acc * 10 + (c.toNat - 48)) 0
    if neg then max (-n) (-2 ^ 63) else min n (2 ^ 63 - 1)

/-- `name#idx` in its parts, split at the last `#`; the index is a 32-bit integer. -/
def splitLabel (label : String) : String × Int :=
  if '#' ∈ label.toList then
    let rev := label.toList.reverse
    let idx := (rev.takeWhile (· ≠ '#')).reverse
    let name := ((rev.dropWhile (· ≠ '#')).drop 1).reverse
    (String.ofList name, (atoi idx).bmod (2 ^ 32))
  else (label, 0)

def defaultLogLines : Int := 15

/-- The answer of `FleetLogsHistory` from an open store. -/
def logsHistoryOf (st : LogStore.Store) (req : LogsHistoryRequest) (fault : ReadFault) :
    Except Status (List LogLine) :=
  match fault with
  | .labels => .error ⟨.internal, "labels: %v"⟩
  | .rows => .error ⟨.internal, "tail: %v"⟩
  | .none =>
    let matched := (LogStore.labels st).filter (selects req.selector)
    let limit := if req.lines ≤ 0 then defaultLogLines else req.lines
    let series := matched.map fun l => LogStore.tail st l limit req.stream req.grep
    .ok ((LogStore.mergeTail series limit).map fun ln =>
      ⟨(splitLabel ln.label).1, (splitLabel ln.label).2, ln.stderr, ln.text⟩)

def DataDir.fleetLogsHistory (d : DataDir) (req : LogsHistoryRequest) (o : Opening)
    (fault : ReadFault) : DataDir × Except Status (List LogLine) :=
  if d.has req.agentName then
    match d.getLogs req.agentName o with
    | (d, none) => (d, .error ⟨.internal, "open log store: %v"⟩)
    | (d, some st) => (d, logsHistoryOf st req fault)
  else (d, .error ⟨.notFound, "no log history for agent %q"⟩)

/-! ### Log following and error counts

These answer the dashboard, which passes an error on as it is; `none` is one. -/

structure SinceRequest where
  agent : String
  selector : String
  afterRowID : Int
  limit : Int
  filter : LogStore.StreamFilter
  text : String

/-- `logStores.Since` on an open store. -/
def sinceOf (st : LogStore.Store) (req : SinceRequest) : List LogStore.StoredLine × Int :=
  LogStore.since st ((LogStore.labels st).filter (selects req.selector)) req.afterRowID req.limit
    req.filter req.text

/-- A read of an agent's log store; an unknown agent answers `unknown`. -/
def DataDir.readLogs {β : Type} (d : DataDir) (agent : String) (o : Opening) (fault : ReadFault)
    (unknown : β) (read : LogStore.Store → β) : DataDir × Option β :=
  if d.has agent then
    match d.getLogs agent o with
    | (d, none) => (d, none)
    | (d, some st) => (d, if fault = .none then some (read st) else none)
  else (d, some unknown)

def DataDir.logsSince (d : DataDir) (req : SinceRequest) (o : Opening) (fault : ReadFault) :
    DataDir × Option (List LogStore.StoredLine × Int) :=
  d.readLogs req.agent o fault ([], 0) fun st => sinceOf st req

def DataDir.errorCounts (d : DataDir) (agent : String) (sinceMs : Int) (o : Opening)
    (fault : ReadFault) : DataDir × Option (List (String × Nat)) :=
  d.readLogs agent o fault [] fun st => LogStore.errorCounts st (LogStore.labels st) sinceMs

def DataDir.stderrSince (d : DataDir) (agent : String) (sinceMs : Int) (o : Opening)
    (fault : ReadFault) : DataDir × Option (List LogStore.StoredLine) :=
  d.readLogs agent o fault [] fun st => LogStore.stderrSince st (LogStore.labels st) sinceMs

end Marshal.Server
