import Marshal.Lib.Grouping
import Marshal.Server.Stores

/-! What a batch adds to an agent's metric rows, and what the watermark reads. -/
namespace Marshal.Server
open Proto

/-! ### Rows of a batch -/

/-- The row a sample is stored as. -/
def rowOf (sm : MetricSample) : MetricStore.Row := ⟨sm.tsMs, sm.label, sm.cpu, sm.mem⟩

/-- The rows a batch adds when its first `appended` groups succeed. -/
def ingested (samples : List MetricSample) (appended : Nat) : List MetricStore.Row :=
  (((Grouping.keys MetricSample.tsMs samples).take appended).flatMap
    (Grouping.pick MetricSample.tsMs samples)).map rowOf

theorem rows_appendGroups (st : MetricStore.Store) (samples : List MetricSample) (appended : Nat) :
    (appendGroups st (groupByTs samples) appended).rows = st.rows ++ ingested samples appended := by
  have hgroups : ∀ (ks : List Int) (st : MetricStore.Store),
      ((ks.map fun ts => (ts, (samples.filter fun sm => sm.tsMs = ts).map sampleOf)).foldl
        (fun st g => MetricStore.append st g.1 g.2) st).rows =
        st.rows ++ (ks.flatMap (Grouping.pick MetricSample.tsMs samples)).map rowOf := by
    intro ks
    induction ks with
    | nil => simp
    | cons k rest ih =>
      intro st
      rw [List.map_cons, List.foldl_cons, ih, MetricStore.rows_append, List.append_assoc,
        List.flatMap_cons, List.map_append]
      congr 2
      -- every sample of the group carries its timestamp
      rw [List.map_map]
      refine List.map_congr_left fun sm hsm => ?_
      obtain ⟨-, hts⟩ := List.mem_filter.mp hsm
      simp only [decide_eq_true_eq] at hts
      simp [rowOf, sampleOf, hts]
  rw [appendGroups, groupByTs, ← List.map_take]
  exact hgroups _ st

/-- The rows added are rows of the batch. -/
theorem ingested_sub {samples : List MetricSample} {appended : Nat} {r : MetricStore.Row}
    (h : r ∈ ingested samples appended) : r ∈ samples.map rowOf := by
  obtain ⟨sm, hsm, rfl⟩ := List.mem_map.mp h
  exact List.mem_map_of_mem (Grouping.mem_flatMap_take.mp hsm).1

/-- With a row, everything in the batch that is no newer is added. -/
theorem ingested_oldest {samples : List MetricSample} {appended : Nat} {r q : MetricStore.Row}
    (hr : r ∈ ingested samples appended) (hq : q ∈ samples.map rowOf) (hqr : q.ts ≤ r.ts) :
    q ∈ ingested samples appended := by
  obtain ⟨sm, hsm, rfl⟩ := List.mem_map.mp hr
  obtain ⟨sm', hsm', rfl⟩ := List.mem_map.mp hq
  exact List.mem_map_of_mem (Grouping.mem_flatMap_take_of_le hsm hsm' hqr)

/-- When every group succeeds, the whole batch is added. -/
theorem ingested_all {samples : List MetricSample} {appended : Nat}
    (h : (groupByTs samples).length ≤ appended) : (ingested samples appended).Perm (samples.map rowOf) := by
  have htake : (Grouping.keys MetricSample.tsMs samples).take appended =
      Grouping.keys MetricSample.tsMs samples :=
    List.take_of_length_le (by simpa [groupByTs, Grouping.keys] using h)
  rw [ingested, htake]
  exact (Grouping.flatMap_keys_perm samples).map rowOf

theorem ingested_sorted (samples : List MetricSample) (appended : Nat) :
    (ingested samples appended).Pairwise fun r q => r.ts ≤ q.ts :=
  List.pairwise_map.mpr (Grouping.flatMap_take_sorted samples appended)

theorem ingested_ne_nil {samples : List MetricSample} {appended : Nat} (hsamples : samples ≠ [])
    (happended : 0 < appended) : ingested samples appended ≠ [] := by
  simpa [ingested] using Grouping.flatMap_take_ne_nil hsamples happended

/-! ### The agent's rows -/

namespace DataDir

/-- The metric rows stored for the agent. -/
def metricRows (d : DataDir) (agent : String) : List MetricStore.Row := (d.metrics.content {} agent).rows

/-- Whether the agent's metric store is open, or opens. -/
def opensMetrics (d : DataDir) (agent : String) (o : Opening) : Bool :=
  decide (sanitizeAgent agent ∈ d.metrics.m) || o == .ok

theorem getMetrics_spec (d : DataDir) (agent : String) (o : Opening) :
    (d.getMetrics agent o).1.metricRows agent = d.metricRows agent ∧
      (d.getMetrics agent o).2 =
        if d.opensMetrics agent o then some (d.metrics.content {} agent) else none := by
  unfold getMetrics Stores.get opensMetrics
  by_cases hopen : sanitizeAgent agent ∈ d.metrics.m
  · simp [hopen, metricRows]
  · cases o <;> simp [hopen, metricRows, Stores.content]

/-- Reading the watermark changes no row; it reads the largest timestamp, or 0. -/
theorem lastMetricTs_spec (d : DataDir) (agent : String) (o : Opening) (reads : Bool) :
    (d.lastMetricTs agent o reads).1.metricRows agent = d.metricRows agent ∧
      (d.lastMetricTs agent o reads).2 =
        if d.opensMetrics agent o && reads then MetricStore.maxTs ⟨d.metricRows agent⟩ else 0 := by
  obtain ⟨hrows, hstore⟩ := d.getMetrics_spec agent o
  unfold lastMetricTs
  rcases hget : d.getMetrics agent o with ⟨d', _ | st⟩
  · rw [hget] at hrows hstore
    refine ⟨hrows, ?_⟩
    cases hopens : d.opensMetrics agent o with
    | true => simp [hopens] at hstore
    | false => rfl
  · rw [hget] at hrows hstore
    refine ⟨hrows, ?_⟩
    cases hopens : d.opensMetrics agent o with
    | true =>
      obtain rfl : st = d.metrics.content {} agent := by simpa [hopens] using hstore
      cases reads <;> rfl
    | false => simp [hopens] at hstore

/-- A batch is added, as far as it succeeds, to a store that opens. -/
theorem storeBatch_rows (d : DataDir) (agent : String) (samples : List MetricSample) (o : Opening)
    (appended : Nat) : (d.storeBatch agent samples o appended).metricRows agent =
      d.metricRows agent ++ if d.opensMetrics agent o then ingested samples appended else [] := by
  obtain ⟨hrows, hstore⟩ := d.getMetrics_spec agent o
  unfold storeBatch
  rcases hget : d.getMetrics agent o with ⟨d', _ | st⟩
  · rw [hget] at hrows hstore
    cases hopens : d.opensMetrics agent o with
    | true => simp [hopens] at hstore
    | false => simpa using hrows
  · rw [hget] at hstore
    cases hopens : d.opensMetrics agent o with
    | true =>
      obtain rfl : st = d.metrics.content {} agent := by simpa [hopens] using hstore
      rw [if_pos rfl]
      simp only [metricRows, Stores.content, Stores.put, Table.get_set_self, Option.getD_some]
      exact rows_appendGroups _ samples appended
    | false => simp [hopens] at hstore

/-! ### The agent's lines -/

/-- The log lines stored for the agent, in the order they were appended. -/
def logLines (d : DataDir) (agent : String) : List LogStore.Line :=
  (d.logs.content {} agent).rows.map LogStore.StoredLine.line

/-- A batch is appended whole, oldest first, to a store that opens. -/
theorem storeLogBatch_lines (d : DataDir) (agent : String) (lines : List LogShipLine) :
    (d.storeLogBatch agent lines .ok true).logLines agent = d.logLines agent ++ sortLines lines := by
  unfold storeLogBatch getLogs Stores.get
  by_cases hopen : sanitizeAgent agent ∈ d.logs.m
  · simp [hopen, logLines, Stores.content, Stores.put]
  · simp [hopen, logLines, Stores.content, Stores.put]

end DataDir

end Marshal.Server
