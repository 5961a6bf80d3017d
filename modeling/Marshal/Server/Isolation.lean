import Marshal.Lib.Noninterference
import Marshal.Server.History

/-! Isolation between agents.

Everything the server keeps for an agent lies in the cell its sanitized name
selects: the directory, the two databases and whether their handles are open.
`cell` is that view of the data directory. Every operation reads and writes one
cell (the retention sweep: each cell on its own), so two agents are isolated
exactly when their cells differ: `isolated_iff`. -/
namespace Marshal.Server
open Proto

/-! ### Cells -/

structure Cell where
  dir : Bool
  metricsOpen : Bool
  metricsFile : Option MetricStore.Store
  logsOpen : Bool
  logsFile : Option LogStore.Store

def DataDir.cell (d : DataDir) (key : String) : Cell where
  dir := key ∈ d.dirs
  metricsOpen := key ∈ d.metrics.m
  metricsFile := d.metrics.files.get key
  logsOpen := key ∈ d.logs.m
  logsFile := d.logs.files.get key

namespace Cell

/-- Opening the metric store in one cell. -/
def openMetrics (c : Cell) (o : Opening) : Cell :=
  if c.metricsOpen then c
  else match o with
    | .mkdirFails => c
    | .openFails => { c with dir := true }
    | .ok => { c with dir := true, metricsOpen := true, metricsFile := some (c.metricsFile.getD {}) }

def metricStore (c : Cell) (o : Opening) : Option MetricStore.Store :=
  if c.metricsOpen || o = .ok then some (c.metricsFile.getD {}) else none

def openLogs (c : Cell) (o : Opening) : Cell :=
  if c.logsOpen then c
  else match o with
    | .mkdirFails => c
    | .openFails => { c with dir := true }
    | .ok => { c with dir := true, logsOpen := true, logsFile := some (c.logsFile.getD {}) }

def logStore (c : Cell) (o : Opening) : Option LogStore.Store :=
  if c.logsOpen || o = .ok then some (c.logsFile.getD {}) else none

/-- The retention sweep in one cell: open stores only. -/
def prune (c : Cell) (beforeMs : Int) : Cell :=
  { c with
    metricsFile := if c.metricsOpen then c.metricsFile.map (MetricStore.prune · beforeMs) else c.metricsFile
    logsFile := if c.logsOpen then c.logsFile.map (LogStore.prune · beforeMs) else c.logsFile }

end Cell

/-! ### Each access is an access to one cell -/

theorem has_eq (d : DataDir) (agent : String) : d.has agent = (d.cell (sanitizeAgent agent)).dir := rfl

theorem getMetrics_store (d : DataDir) (agent : String) (o : Opening) :
    (d.getMetrics agent o).2 = (d.cell (sanitizeAgent agent)).metricStore o := by
  by_cases hm : sanitizeAgent agent ∈ d.metrics.m
  · simp [DataDir.getMetrics, Stores.get, Stores.content, DataDir.cell, Cell.metricStore, hm]
  · cases o <;>
      simp [DataDir.getMetrics, Stores.get, Stores.content, DataDir.cell, Cell.metricStore, hm]

theorem getMetrics_cell (d : DataDir) (agent key : String) (o : Opening) :
    (d.getMetrics agent o).1.cell key =
      if key = sanitizeAgent agent then (d.cell key).openMetrics o else d.cell key := by
  by_cases hm : sanitizeAgent agent ∈ d.metrics.m
  · by_cases hk : key = sanitizeAgent agent
    · subst hk
      simp [DataDir.getMetrics, Stores.get, DataDir.cell, Cell.openMetrics, hm]
    · simp [DataDir.getMetrics, Stores.get, hm, hk]
  · by_cases hk : key = sanitizeAgent agent
    · subst hk
      cases o <;>
        simp [DataDir.getMetrics, Stores.get, Stores.content, DataDir.cell, Cell.openMetrics, hm]
    · cases o <;>
        simp [DataDir.getMetrics, Stores.get, Stores.content, DataDir.cell, Table.get_set, hm, hk]

theorem getLogs_store (d : DataDir) (agent : String) (o : Opening) :
    (d.getLogs agent o).2 = (d.cell (sanitizeAgent agent)).logStore o := by
  by_cases hm : sanitizeAgent agent ∈ d.logs.m
  · simp [DataDir.getLogs, Stores.get, Stores.content, DataDir.cell, Cell.logStore, hm]
  · cases o <;> simp [DataDir.getLogs, Stores.get, Stores.content, DataDir.cell, Cell.logStore, hm]

theorem getLogs_cell (d : DataDir) (agent key : String) (o : Opening) :
    (d.getLogs agent o).1.cell key =
      if key = sanitizeAgent agent then (d.cell key).openLogs o else d.cell key := by
  by_cases hm : sanitizeAgent agent ∈ d.logs.m
  · by_cases hk : key = sanitizeAgent agent
    · subst hk
      simp [DataDir.getLogs, Stores.get, DataDir.cell, Cell.openLogs, hm]
    · simp [DataDir.getLogs, Stores.get, hm, hk]
  · by_cases hk : key = sanitizeAgent agent
    · subst hk
      cases o <;> simp [DataDir.getLogs, Stores.get, Stores.content, DataDir.cell, Cell.openLogs, hm]
    · cases o <;>
        simp [DataDir.getLogs, Stores.get, Stores.content, DataDir.cell, Table.get_set, hm, hk]

theorem putMetrics_cell (d : DataDir) (agent key : String) (st : MetricStore.Store) :
    ({ d with metrics := d.metrics.put agent st } : DataDir).cell key =
      if key = sanitizeAgent agent then { d.cell key with metricsFile := some st } else d.cell key := by
  by_cases hk : key = sanitizeAgent agent
  · subst hk
    simp [DataDir.cell, Stores.put]
    rfl
  · simp [DataDir.cell, Stores.put, Table.get_set, hk]
    rfl

theorem putLogs_cell (d : DataDir) (agent key : String) (st : LogStore.Store) :
    ({ d with logs := d.logs.put agent st } : DataDir).cell key =
      if key = sanitizeAgent agent then { d.cell key with logsFile := some st } else d.cell key := by
  by_cases hk : key = sanitizeAgent agent
  · subst hk
    simp [DataDir.cell, Stores.put]
    rfl
  · simp [DataDir.cell, Stores.put, Table.get_set, hk]
    rfl

/-- The sweep visits each open database; visiting one twice changes nothing more. -/
theorem pruneAll_files {σ : Type} (prune : σ → σ) (hidem : ∀ x, prune (prune x) = prune x)
    (s : Stores σ) (key : String) :
    (s.pruneAll prune).files.get key =
      if key ∈ s.m then (s.files.get key).map prune else s.files.get key := by
  obtain ⟨files, m⟩ := s
  simp only [Stores.pruneAll]
  induction m generalizing files with
  | nil => simp
  | cons k rest ih =>
    rw [List.foldl_cons, ih]
    cases hfile : files.get k with
    | none =>
      by_cases hk : key = k
      · subst hk
        simp [hfile]
      · simp [hk]
    | some st =>
      by_cases hk : key = k
      · subst hk
        simp [hfile, hidem]
      · simp [Table.get_set, hk]

theorem pruneAll_cell (d : DataDir) (beforeMs : Int) (key : String) :
    (d.pruneAll beforeMs).cell key = (d.cell key).prune beforeMs := by
  have hmetrics := pruneAll_files (MetricStore.prune · beforeMs)
    (fun x => by simp [MetricStore.prune, List.filter_filter]) d.metrics key
  have hlogs := pruneAll_files (LogStore.prune · beforeMs)
    (fun x => by simp [LogStore.prune, List.filter_filter]) d.logs key
  have hm : (d.metrics.pruneAll (MetricStore.prune · beforeMs)).m = d.metrics.m := rfl
  have hl : (d.logs.pruneAll (LogStore.prune · beforeMs)).m = d.logs.m := rfl
  simp [DataDir.pruneAll, DataDir.cell, Cell.prune, hmetrics, hlogs, hm, hl]
  rfl

/-! ### Operations -/

/-- What is done with the data directory, for one agent or for all. -/
inductive StoreOp where
  | metricsAppend (agent : String) (samples : List MetricSample) (o : Opening) (appended : Nat)
  | logsAppend (agent : String) (lines : List LogShipLine) (o : Opening) (appends : Bool)
  | metricsWatermark (agent : String) (o : Opening) (reads : Bool)
  | logsWatermark (agent : String) (o : Opening) (reads : Bool)
  | metricsHistory (req : MetricsHistoryRequest) (nowMs : Int) (o : Opening) (fault : ReadFault)
  | logsHistory (req : LogsHistoryRequest) (o : Opening) (fault : ReadFault)
  | logsSince (req : SinceRequest) (o : Opening) (fault : ReadFault)
  | errorCounts (agent : String) (sinceMs : Int) (o : Opening) (fault : ReadFault)
  | stderrSince (agent : String) (sinceMs : Int) (o : Opening) (fault : ReadFault)
  | pruneAll (beforeMs : Int)

/-- The agent an operation is done for; the sweep is done for all of them. -/
def StoreOp.agent : StoreOp → Option String
  | .metricsAppend agent .. | .logsAppend agent .. => some agent
  | .metricsWatermark agent .. | .logsWatermark agent .. => some agent
  | .metricsHistory req .. => some req.agentName
  | .logsHistory req .. => some req.agentName
  | .logsSince req .. => some req.agent
  | .errorCounts agent .. | .stderrSince agent .. => some agent
  | .pruneAll _ => none

inductive StoreReply where
  | done
  | watermark (ts : Int)
  | buckets (r : Except Status (List MetricStore.Bucket))
  | lines (r : Except Status (List LogLine))
  | since (r : Option (List LogStore.StoredLine × Int))
  | counts (r : Option (List (String × Nat)))
  | stored (r : Option (List LogStore.StoredLine))

def DataDir.exec (d : DataDir) : StoreOp → DataDir × StoreReply
  | .metricsAppend agent samples o appended => (d.storeBatch agent samples o appended, .done)
  | .logsAppend agent lines o appends => (d.storeLogBatch agent lines o appends, .done)
  | .metricsWatermark agent o reads =>
    let r := d.lastMetricTs agent o reads
    (r.1, .watermark r.2)
  | .logsWatermark agent o reads =>
    let r := d.lastLogTs agent o reads
    (r.1, .watermark r.2)
  | .metricsHistory req nowMs o fault =>
    let r := d.fleetMetricsHistory req nowMs o fault
    (r.1, .buckets r.2)
  | .logsHistory req o fault =>
    let r := d.fleetLogsHistory req o fault
    (r.1, .lines r.2)
  | .logsSince req o fault =>
    let r := d.logsSince req o fault
    (r.1, .since r.2)
  | .errorCounts agent sinceMs o fault =>
    let r := d.errorCounts agent sinceMs o fault
    (r.1, .counts r.2)
  | .stderrSince agent sinceMs o fault =>
    let r := d.stderrSince agent sinceMs o fault
    (r.1, .stored r.2)
  | .pruneAll beforeMs => (d.pruneAll beforeMs, .done)

/-! ### An operation works in the cell of its agent -/

/-- `f` reads and writes the agent's cell only. -/
structure AtCell {β : Type} (agent : String) (f : DataDir → DataDir × β) : Prop where
  other : ∀ d key, key ≠ sanitizeAgent agent → (f d).1.cell key = d.cell key
  own : ∀ d e, d.cell (sanitizeAgent agent) = e.cell (sanitizeAgent agent) →
    (f d).1.cell (sanitizeAgent agent) = (f e).1.cell (sanitizeAgent agent)
  answer : ∀ d e, d.cell (sanitizeAgent agent) = e.cell (sanitizeAgent agent) → (f d).2 = (f e).2

namespace AtCell
variable {β γ : Type} {agent : String}

theorem pure (b : β) : AtCell agent (fun d => (d, b)) :=
  ⟨fun _ _ _ => rfl, fun _ _ h => h, fun _ _ _ => rfl⟩

/-- One access after another, the second chosen by the first one's answer. -/
theorem bind {f : DataDir → DataDir × β} {g : β → DataDir → DataDir × γ} (hf : AtCell agent f)
    (hg : ∀ x, AtCell agent (g x)) : AtCell agent (fun d => g (f d).2 (f d).1) where
  other := fun d key hk => ((hg _).other _ key hk).trans (hf.other d key hk)
  own := fun d e h => by
    simp only [hf.answer d e h]
    exact (hg _).own _ _ (hf.own d e h)
  answer := fun d e h => by
    simp only [hf.answer d e h]
    exact (hg _).answer _ _ (hf.own d e h)

/-- An access made only where the agent's directory exists. -/
theorem whereHas {f : DataDir → DataDir × β} (hf : AtCell agent f) (b : β) :
    AtCell agent (fun d => if d.has agent then f d else (d, b)) where
  other := fun d key hk => by
    split
    · exact hf.other d key hk
    · rfl
  own := fun d e h => by
    have hhas : d.has agent = e.has agent := by rw [has_eq, has_eq, h]
    rw [hhas]
    split
    · exact hf.own d e h
    · exact h
  answer := fun d e h => by
    have hhas : d.has agent = e.has agent := by rw [has_eq, has_eq, h]
    rw [hhas]
    split
    · exact hf.answer d e h
    · rfl

theorem getMetrics (agent : String) (o : Opening) : AtCell agent (fun d => d.getMetrics agent o) where
  other := fun d key hk => by rw [getMetrics_cell, if_neg hk]
  own := fun d e h => by rw [getMetrics_cell, getMetrics_cell, h]
  answer := fun d e h => by rw [getMetrics_store, getMetrics_store, h]

theorem getLogs (agent : String) (o : Opening) : AtCell agent (fun d => d.getLogs agent o) where
  other := fun d key hk => by rw [getLogs_cell, if_neg hk]
  own := fun d e h => by rw [getLogs_cell, getLogs_cell, h]
  answer := fun d e h => by rw [getLogs_store, getLogs_store, h]

theorem putMetrics (st : MetricStore.Store) (b : β) :
    AtCell agent (fun d => ({ d with metrics := d.metrics.put agent st }, b)) where
  other := fun d key hk => by rw [putMetrics_cell, if_neg hk]
  own := fun d e h => by rw [putMetrics_cell, putMetrics_cell, h]
  answer := fun _ _ _ => rfl

theorem putLogs (st : LogStore.Store) (b : β) :
    AtCell agent (fun d => ({ d with logs := d.logs.put agent st }, b)) where
  other := fun d key hk => by rw [putLogs_cell, if_neg hk]
  own := fun d e h => by rw [putLogs_cell, putLogs_cell, h]
  answer := fun _ _ _ => rfl

/-- Open a store with `open_`, then go on with it, or answer `b` where it does not open. -/
theorem opening {σ : Type} {open_ : DataDir → DataDir × Option σ} (ho : AtCell agent open_) (b : β)
    (use : σ → DataDir → DataDir × β) (hu : ∀ st, AtCell agent (use st)) :
    AtCell agent (fun d => match open_ d with
      | (d, none) => (d, b)
      | (d, some st) => use st d) := by
  have hafter : ∀ st : Option σ, AtCell agent fun d => st.elim (d, b) (use · d) := by
    intro st
    cases st with
    | none => exact pure b
    | some st => exact hu st
  have heq : (fun d => match open_ d with
      | (d, none) => (d, b)
      | (d, some st) => use st d) = fun d => (open_ d).2.elim ((open_ d).1, b) (use · (open_ d).1) := by
    funext d
    rcases open_ d with ⟨_, _ | _⟩ <;> rfl
  rw [heq]
  exact ho.bind hafter

/-- Renaming the answer keeps an access local. -/
theorem map {f : DataDir → DataDir × β} (hf : AtCell agent f) (g : β → γ) :
    AtCell agent (fun d => ((f d).1, g (f d).2)) :=
  hf.bind (g := fun x d => (d, g x)) fun _ => pure _

end AtCell

/-! ### Every operation for an agent is local to its cell -/

theorem atCell_lastMetricTs (agent : String) (o : Opening) (reads : Bool) :
    AtCell agent (fun d => d.lastMetricTs agent o reads) := by
  have hopen := (AtCell.getMetrics agent o).opening 0
    (fun st d => (d, if reads then MetricStore.maxTs st else 0)) fun _ => .pure _
  convert hopen using 2 with d
  simp only [DataDir.lastMetricTs]
  rcases d.getMetrics agent o with ⟨_, _ | _⟩ <;> rfl

theorem atCell_lastLogTs (agent : String) (o : Opening) (reads : Bool) :
    AtCell agent (fun d => d.lastLogTs agent o reads) := by
  have hopen := (AtCell.getLogs agent o).opening 0
    (fun st d => (d, if reads then LogStore.maxTs st else 0)) fun _ => .pure _
  convert hopen using 2 with d
  simp only [DataDir.lastLogTs]
  rcases d.getLogs agent o with ⟨_, _ | _⟩ <;> rfl

theorem atCell_storeBatch (agent : String) (samples : List MetricSample) (o : Opening)
    (appended : Nat) (b : StoreReply) :
    AtCell agent (fun d => (d.storeBatch agent samples o appended, b)) := by
  have hopen := (AtCell.getMetrics agent o).opening b _ fun st =>
    AtCell.putMetrics (appendGroups st (groupByTs samples) appended) b
  convert hopen using 2 with d
  simp only [DataDir.storeBatch]
  rcases d.getMetrics agent o with ⟨_, _ | _⟩ <;> rfl

theorem atCell_storeLogBatch (agent : String) (lines : List LogShipLine) (o : Opening)
    (appends : Bool) (b : StoreReply) :
    AtCell agent (fun d => (d.storeLogBatch agent lines o appends, b)) := by
  cases appends with
  | false =>
    have hopen := (AtCell.getLogs agent o).opening b (fun _ d => (d, b)) fun _ => .pure b
    convert hopen using 2 with d
    simp only [DataDir.storeLogBatch]
    rcases d.getLogs agent o with ⟨_, _ | _⟩ <;> rfl
  | true =>
    have hopen := (AtCell.getLogs agent o).opening b _ fun st =>
      AtCell.putLogs (LogStore.append st (sortLines lines)) b
    convert hopen using 2 with d
    simp only [DataDir.storeLogBatch]
    rcases d.getLogs agent o with ⟨_, _ | _⟩ <;> rfl

theorem atCell_fleetMetricsHistory (req : MetricsHistoryRequest) (nowMs : Int) (o : Opening)
    (fault : ReadFault) :
    AtCell req.agentName (fun d => d.fleetMetricsHistory req nowMs o fault) := by
  have hopen := (AtCell.getMetrics req.agentName o).opening (.error ⟨.internal, "history: %v"⟩)
    (fun st d => (d, historyOf st req.selector
      (if req.sinceMs ≤ 0 then defaultHistoryMs else req.sinceMs) req.bucketMs nowMs fault))
    fun _ => .pure _
  convert hopen.whereHas (.error ⟨.notFound, "no metric history for agent %q"⟩) using 2 with d
  simp only [DataDir.fleetMetricsHistory]
  rcases d.getMetrics req.agentName o with ⟨_, _ | _⟩ <;> rfl

theorem atCell_fleetLogsHistory (req : LogsHistoryRequest) (o : Opening) (fault : ReadFault) :
    AtCell req.agentName (fun d => d.fleetLogsHistory req o fault) := by
  have hopen := (AtCell.getLogs req.agentName o).opening (.error ⟨.internal, "open log store: %v"⟩)
    (fun st d => (d, logsHistoryOf st req fault)) fun _ => .pure _
  convert hopen.whereHas (.error ⟨.notFound, "no log history for agent %q"⟩) using 2 with d
  simp only [DataDir.fleetLogsHistory]
  rcases d.getLogs req.agentName o with ⟨_, _ | _⟩ <;> rfl

theorem atCell_readLogs {β : Type} (agent : String) (o : Opening) (fault : ReadFault) (unknown : β)
    (read : LogStore.Store → β) :
    AtCell agent (fun d => d.readLogs agent o fault unknown read) := by
  have hopen := (AtCell.getLogs agent o).opening none
    (fun st d => (d, if fault = .none then some (read st) else none)) fun _ => .pure _
  convert hopen.whereHas (some unknown) using 2 with d
  simp only [DataDir.readLogs]
  rcases d.getLogs agent o with ⟨_, _ | _⟩ <;> rfl

theorem atCell_exec (op : StoreOp) (agent : String) (ha : op.agent = some agent) :
    AtCell agent (fun d => d.exec op) := by
  cases op with
  | pruneAll beforeMs => simp [StoreOp.agent] at ha
  | metricsAppend a samples o appended =>
    obtain rfl : a = agent := by simpa [StoreOp.agent] using ha
    exact atCell_storeBatch a samples o appended .done
  | logsAppend a lines o appends =>
    obtain rfl : a = agent := by simpa [StoreOp.agent] using ha
    exact atCell_storeLogBatch a lines o appends .done
  | metricsWatermark a o reads =>
    obtain rfl : a = agent := by simpa [StoreOp.agent] using ha
    exact (atCell_lastMetricTs a o reads).map StoreReply.watermark
  | logsWatermark a o reads =>
    obtain rfl : a = agent := by simpa [StoreOp.agent] using ha
    exact (atCell_lastLogTs a o reads).map StoreReply.watermark
  | metricsHistory req nowMs o fault =>
    obtain rfl : req.agentName = agent := by simpa [StoreOp.agent] using ha
    exact (atCell_fleetMetricsHistory req nowMs o fault).map StoreReply.buckets
  | logsHistory req o fault =>
    obtain rfl : req.agentName = agent := by simpa [StoreOp.agent] using ha
    exact (atCell_fleetLogsHistory req o fault).map StoreReply.lines
  | logsSince req o fault =>
    obtain rfl : req.agent = agent := by simpa [StoreOp.agent] using ha
    exact (atCell_readLogs req.agent o fault ([], 0) fun st => sinceOf st req).map StoreReply.since
  | errorCounts a sinceMs o fault =>
    obtain rfl : a = agent := by simpa [StoreOp.agent] using ha
    exact (atCell_readLogs a o fault [] _).map StoreReply.counts
  | stderrSince a sinceMs o fault =>
    obtain rfl : a = agent := by simpa [StoreOp.agent] using ha
    exact (atCell_readLogs a o fault [] _).map StoreReply.stored

/-! ### Isolation -/

/-- What is read for `a`, in order. -/
def repliesFor (a : String) (d : DataDir) (ops : List StoreOp) : List StoreReply :=
  Noninterference.outputs DataDir.exec (fun op => op.agent == some a) d ops

/-- Whatever is done for `b`, and whether or not, what is read for `a` is the same. -/
def Isolated (a b : String) : Prop :=
  ∀ (d : DataDir) (ops ops' : List StoreOp),
    (ops.filter fun op => op.agent != some b) = (ops'.filter fun op => op.agent != some b) →
      repliesFor a d ops = repliesFor a d ops'

/-- With different cells, the cell of `a` is a view that operations for `b` do not touch. -/
theorem cell_unwinding (a b : String) (h : sanitizeAgent a ≠ sanitizeAgent b) :
    Noninterference.Unwinding DataDir.exec (fun op => op.agent == some a)
      (fun op => op.agent != some b) (fun d => d.cell (sanitizeAgent a)) where
  observed_visible := by
    intro op ha
    rw [beq_iff_eq] at ha
    rw [bne_iff_ne, ha]
    rintro ⟨⟩
    exact h rfl
  invisible := by
    intro d op hb
    have hb : op.agent = some b := by simpa using hb
    exact (atCell_exec op b hb).other d _ h
  next := by
    intro d e op _ hcell
    cases ha : op.agent with
    | none =>
      cases op with
      | pruneAll beforeMs =>
        show (d.pruneAll beforeMs).cell _ = (e.pruneAll beforeMs).cell _
        rw [pruneAll_cell, pruneAll_cell, hcell]
      | _ => simp [StoreOp.agent] at ha
    | some c =>
      by_cases hc : sanitizeAgent a = sanitizeAgent c
      · rw [hc] at hcell ⊢
        exact (atCell_exec op c ha).own d e hcell
      · rw [(atCell_exec op c ha).other d _ hc, (atCell_exec op c ha).other e _ hc, hcell]
  answer := by
    intro d e op ha hcell
    exact (atCell_exec op a (by simpa using ha)).answer d e hcell

/-- In a shared cell, a sample stored for `b` is the watermark read for `a`. -/
theorem lastMetricTs_shared (a b : String) (h : sanitizeAgent a = sanitizeAgent b) :
    ((DataDir.storeBatch {} b [⟨1, "", 0, 0⟩] .ok 1).lastMetricTs a .ok true).2 = 1 := by
  have hgroups : groupByTs [⟨1, "", 0, 0⟩] = [(1, [sampleOf ⟨1, "", 0, 0⟩])] := by
    simp [groupByTs, List.eraseDups_cons]
  simp only [DataDir.storeBatch, DataDir.getMetrics, Stores.get, hgroups]
  simp [DataDir.lastMetricTs, DataDir.getMetrics, Stores.get, Stores.content, Stores.put, h, appendGroups]
  rfl

theorem shared_cell_leaks (a b : String) (h : sanitizeAgent a = sanitizeAgent b) :
    ¬ Isolated a b := by
  intro hiso
  by_cases hab : a = b
  · subst hab
    have hleak := hiso {} [.metricsWatermark a .ok true] [] (by simp [StoreOp.agent])
    simp [repliesFor, Noninterference.outputs, StoreOp.agent] at hleak
  · have hleak := hiso {} [.metricsAppend b [⟨1, "", 0, 0⟩] .ok 1, .metricsWatermark a .ok true]
      [.metricsWatermark a .ok true] (by simp [StoreOp.agent, hab])
    have hba : b ≠ a := fun hba => hab hba.symm
    have hempty : (DataDir.lastMetricTs {} a .ok true).2 = 0 := rfl
    simp [repliesFor, Noninterference.outputs, StoreOp.agent, hba, DataDir.exec,
      lastMetricTs_shared a b h, hempty] at hleak

/-- **Isolation.** Agents are isolated exactly when their names stay different as
path segments, whatever is stored, read and swept for them and in whatever order. -/
theorem isolated_iff (a b : String) : Isolated a b ↔ sanitizeAgent a ≠ sanitizeAgent b := by
  constructor
  · intro hiso h
    exact shared_cell_leaks a b h hiso
  · intro h d ops ops' hops
    exact (cell_unwinding a b h).outputs_congr d ops ops' hops

/-- Two accepted names, one directory. -/
theorem dot_and_underscore_share : "web.1" ≠ "web_1" ∧ ¬ Isolated "web.1" "web_1" :=
  ⟨by decide, shared_cell_leaks _ _ (by decide)⟩

end Marshal.Server
