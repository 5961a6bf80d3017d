import Marshal.Lib.Grouping
import Marshal.Lib.Tail
import Marshal.Server.Isolation
import Mathlib.Data.List.Perm.Basic
import Mathlib.Data.Prod.Lex
import Mathlib.Data.String.Basic

/-! The merged log history is the tail of all matching lines.

A request for history is answered from the tails of the selected labels, which are sorted together and
cut once more. By timestamp, label and rowid nothing is lost by cutting early
(`fleetLogsHistory_tail`), however the lines are spread over labels and times. -/
namespace Marshal.LogStore

/-- The order by timestamp, then label, then rowid. -/
def StoredLine.le (a b : StoredLine) : Bool :=
  decide (a.tsMs < b.tsMs ∨ a.tsMs = b.tsMs ∧ (a.label < b.label ∨ a.label = b.label ∧ a.rowID ≤ b.rowID))

/-- What it compares. -/
def StoredLine.key (r : StoredLine) : Int ×ₗ String ×ₗ Nat := toLex (r.tsMs, toLex (r.label, r.rowID))

theorem le_iff_key (a b : StoredLine) : a.le b = true ↔ a.key ≤ b.key := by
  simp only [StoredLine.le, decide_eq_true_eq, StoredLine.key, Prod.Lex.toLex_le_toLex]

theorem key_lt_iff (a b : StoredLine) : a.key < b.key ↔
    a.tsMs < b.tsMs ∨ a.tsMs = b.tsMs ∧ (a.label < b.label ∨ a.label = b.label ∧ a.rowID < b.rowID) := by
  simp only [StoredLine.key, Prod.Lex.toLex_lt_toLex]

/-! ### Rows in rowid order -/

/-- Rows are kept in the order of their ids. -/
def Store.Ascending (s : Store) : Prop := s.rows.Pairwise fun a b => a.rowID < b.rowID

theorem ascending_append {s : Store} (h : s.Ascending) (lines : List Line) : (append s lines).Ascending := by
  unfold Store.Ascending
  rw [rows_append, List.pairwise_append]
  refine ⟨h, numbered_ascending _ _, fun a ha b hb => ?_⟩
  exact lt_of_lt_of_le (rowID_lt_next ha) (le_of_numbered hb)

theorem ascending_prune {s : Store} (h : s.Ascending) (beforeMs : Int) : (prune s beforeMs).Ascending :=
  h.filter _

/-! ### The tail of one label -/

/-- The matching lines of one label, in time order. -/
def ofLabel (s : Store) (label : String) (filter : StreamFilter) (text : String) : List StoredLine :=
  (s.rows.filter fun r => r.label = label && matching filter text r).mergeSort
    fun a b => decide (a.tsMs ≤ b.tsMs)

theorem tail_eq_rtake (s : Store) (label : String) {limit : Int} (hlimit : 0 < limit)
    (filter : StreamFilter) (text : String) :
    tail s label limit filter text = (ofLabel s label filter text).rtake limit.toNat := by
  simp only [tail, limited, if_pos hlimit, ofLabel, List.rtake_eq_reverse_take_reverse]

/-- Lines listed by label, then by rowid, that are sorted by their timestamps are sorted by their keys. -/
theorem sortByTs_ascending {lines : List StoredLine}
    (h : lines.Pairwise fun a b => a.tsMs = b.tsMs → a.key < b.key) :
    (lines.mergeSort fun a b => decide (a.tsMs ≤ b.tsMs)).Pairwise fun a b => a.key < b.key := by
  have hstable := Tail.pairwise_mergeSort_stable (fun a b : StoredLine => decide (a.tsMs ≤ b.tsMs))
    (fun a b c hab hbc => by simp only [decide_eq_true_eq] at *; omega)
    (fun a b => by simp only [Bool.or_eq_true, decide_eq_true_eq]; omega) h
  refine hstable.imp fun {a b} hab => ?_
  obtain ⟨hle, hequal⟩ := hab
  rw [decide_eq_true_eq] at hle
  rcases Int.lt_or_eq_of_le hle with hlt | heq
  · exact (key_lt_iff a b).mpr (.inl hlt)
  · exact hequal (decide_eq_true (Int.le_of_eq heq.symm)) heq

theorem ofLabel_ascending {s : Store} (hs : s.Ascending) (label : String) (filter : StreamFilter)
    (text : String) : (ofLabel s label filter text).Pairwise fun a b => a.key < b.key := by
  refine sortByTs_ascending ?_
  have hrows := hs.filter fun r => r.label = label && matching filter text r
  refine hrows.imp_of_mem fun {a b} ha hb hlt hts => ?_
  have ha := (List.mem_filter.mp ha).2
  have hb := (List.mem_filter.mp hb).2
  simp only [Bool.and_eq_true, decide_eq_true_eq] at ha hb
  exact (key_lt_iff a b).mpr (.inr ⟨hts, .inr ⟨ha.1.trans hb.1.symm, hlt⟩⟩)

end Marshal.LogStore

namespace Marshal.Server
open LogStore

/-- All lines of the selected labels that match, by timestamp, label and rowid. -/
def matchingLines (st : LogStore.Store) (req : LogsHistoryRequest) : List StoredLine :=
  (st.rows.filter fun r => selects req.selector r.label && matching req.stream req.grep r).mergeSort
    StoredLine.le

/-- A stored line as it is answered. -/
def answered (r : StoredLine) : LogLine :=
  ⟨(splitLabel r.label).1, (splitLabel r.label).2, r.stderr, r.text⟩

variable {st : LogStore.Store}

theorem matchingLines_ascending (hst : st.Ascending) (req : LogsHistoryRequest) :
    (matchingLines st req).Pairwise fun a b => a.key < b.key := by
  have hle : (matchingLines st req).Pairwise fun a b => a.le b = true := by
    refine List.pairwise_mergeSort (fun a b c hab hbc => ?_) (fun a b => ?_) _
    · rw [le_iff_key] at *
      exact hab.trans hbc
    · rw [Bool.or_eq_true, le_iff_key, le_iff_key]
      exact le_total a.key b.key
  have hne : (matchingLines st req).Pairwise fun a b => a.rowID ≠ b.rowID :=
    (List.mergeSort_perm _ _).symm.pairwise ((hst.filter _).imp fun h => Nat.ne_of_lt h) fun h => h.symm
  refine (hle.and hne).imp fun {a b} h => lt_of_le_of_ne ((le_iff_key a b).mp h.1) fun hkey => h.2 ?_
  exact congrArg (fun k : Int ×ₗ String ×ₗ Nat => (ofLex (ofLex k).2).2) hkey

/-- The labels a request selects. -/
def selected (st : LogStore.Store) (req : LogsHistoryRequest) : List String :=
  (labels st).filter (selects req.selector)

/-- The selected labels' lines are the lines that are asked for. -/
theorem matchingLines_perm (st : LogStore.Store) (req : LogsHistoryRequest) :
    (matchingLines st req).Perm
      ((selected st req).map fun l => ofLabel st l req.stream req.grep).flatten := by
  have hlabels : labels st = Grouping.keys StoredLine.label st.rows := rfl
  have hnodup : (selected st req).Nodup := by
    rw [selected, hlabels]
    exact ((Grouping.keys_sorted st.rows).imp ne_of_lt).filter _
  let found := st.rows.filter fun r => selects req.selector r.label && matching req.stream req.grep r
  have hmem : ∀ r ∈ found, r.label ∈ selected st req := by
    intro r hr
    obtain ⟨hrow, hfound⟩ := List.mem_filter.mp hr
    rw [Bool.and_eq_true] at hfound
    rw [selected, hlabels]
    exact List.mem_filter.mpr ⟨Grouping.mem_keys.mpr ⟨r, hrow, rfl⟩, hfound.1⟩
  have hpick : ∀ l ∈ selected st req,
      (Grouping.pick StoredLine.label found l).Perm (ofLabel st l req.stream req.grep) := by
    intro l hl
    have hsel := (List.mem_filter.mp hl).2
    have heq : Grouping.pick StoredLine.label found l =
        st.rows.filter fun r => r.label = l && matching req.stream req.grep r := by
      unfold Grouping.pick
      rw [List.filter_filter]
      refine List.filter_congr fun r _ => ?_
      by_cases hlabel : r.label = l
      · subst hlabel
        simp [hsel]
      · simp [hlabel]
    rw [heq]
    exact (List.mergeSort_perm _ _).symm
  refine (List.mergeSort_perm found _).trans ((Grouping.flatMap_pick_perm hnodup hmem).symm.trans ?_)
  rw [← List.flatMap_def]
  exact List.Perm.flatMap_left _ hpick

/-- The tails laid end to end: labels ascend, and within one label the keys do. -/
theorem tails_ordered (hst : st.Ascending) (req : LogsHistoryRequest) (n : Nat) :
    ((selected st req).map fun l => (ofLabel st l req.stream req.grep).rtake n).flatten.Pairwise
      fun a b => a.tsMs = b.tsMs → a.key < b.key := by
  rw [List.pairwise_flatten]
  constructor
  · intro part hpart
    obtain ⟨l, -, rfl⟩ := List.mem_map.mp hpart
    refine ((ofLabel_ascending hst l req.stream req.grep).sublist (List.drop_sublist _ _)).imp ?_
    intro a b hab _
    exact hab
  · have hlabels : (selected st req).Pairwise (· < ·) :=
      (Grouping.keys_sorted st.rows).filter _
    rw [List.pairwise_map]
    refine hlabels.imp fun {l l'} hlt a ha b hb hts => ?_
    have hlabel : ∀ {l : String} {r : StoredLine}, r ∈ (ofLabel st l req.stream req.grep).rtake n →
        r.label = l := by
      intro l r hr
      have hmem := List.mem_mergeSort.mp (List.mem_of_mem_drop hr)
      simpa using (Bool.and_eq_true_iff.mp (List.mem_filter.mp hmem).2).1
    exact (key_lt_iff a b).mpr (.inr ⟨hts, .inl (by rwa [hlabel ha, hlabel hb])⟩)

/-- Cutting each label's lines first and the merged ones then leaves the tail of all. -/
theorem mergeTail_tails (hst : st.Ascending) (req : LogsHistoryRequest) {limit : Int} (hlimit : 0 < limit) :
    mergeTail ((selected st req).map fun l => tail st l limit req.stream req.grep) limit =
      (matchingLines st req).rtake limit.toNat := by
  simp only [mergeTail, if_pos hlimit, tail_eq_rtake st _ hlimit]
  have hmap : (selected st req).map (fun l => (ofLabel st l req.stream req.grep).rtake limit.toNat) =
      ((selected st req).map fun l => ofLabel st l req.stream req.grep).map (List.rtake · limit.toNat) := by
    rw [List.map_map]
    rfl
  refine Tail.rtake_of_parts ((selected st req).map fun l => ofLabel st l req.stream req.grep)
    (fun a b (hab : a.key < b.key) => lt_asymm hab) ?_ (matchingLines_perm st req) ?_ (matchingLines_ascending hst req)
    (sortByTs_ascending (tails_ordered hst req limit.toNat))
  · intro part hpart
    obtain ⟨l, -, rfl⟩ := List.mem_map.mp hpart
    exact ofLabel_ascending hst l req.stream req.grep
  · rw [← hmap]
    exact List.mergeSort_perm _ _

/-! ### Every store of the server -/

namespace DataDir

/-- All log databases keep their rows in the order of the ids. -/
def Ascending (d : DataDir) : Prop := ∀ key st, (d.cell key).logsFile = some st → st.Ascending

variable {d : DataDir}

theorem ascending_empty : ({} : DataDir).Ascending := by
  intro key st h
  cases h

theorem Ascending.getMetrics (hd : d.Ascending) (agent : String) (o : Opening) :
    (d.getMetrics agent o).1.Ascending := by
  intro key st h
  rw [getMetrics_cell] at h
  have hlogs : ∀ c : Cell, (c.openMetrics o).logsFile = c.logsFile := by
    intro c
    unfold Cell.openMetrics
    split
    · rfl
    · cases o <;> rfl
  split at h
  · exact hd key st (hlogs (d.cell key) ▸ h)
  · exact hd key st h

theorem Ascending.getLogs (hd : d.Ascending) (agent : String) (o : Opening) :
    (d.getLogs agent o).1.Ascending := by
  intro key st h
  rw [getLogs_cell] at h
  split at h
  · unfold Cell.openLogs at h
    split at h
    · exact hd key st h
    · cases o with
      | ok =>
        cases hfile : (d.cell key).logsFile with
        | none =>
          simp only [hfile, Option.getD_none, Option.some.injEq] at h
          subst h
          exact List.Pairwise.nil
        | some old =>
          simp only [hfile, Option.getD_some, Option.some.injEq] at h
          exact hd key st (h ▸ hfile)
      | mkdirFails => exact hd key st h
      | openFails => exact hd key st h
  · exact hd key st h

/-- The store that is read or written. -/
theorem Ascending.opened (hd : d.Ascending) {agent : String} {o : Opening} {st : LogStore.Store}
    (h : (d.getLogs agent o).2 = some st) : st.Ascending := by
  rw [getLogs_store] at h
  unfold Cell.logStore at h
  split at h
  · cases hfile : (d.cell (sanitizeAgent agent)).logsFile with
    | none =>
      simp only [hfile, Option.getD_none, Option.some.injEq] at h
      subst h
      exact List.Pairwise.nil
    | some old =>
      simp only [hfile, Option.getD_some, Option.some.injEq] at h
      exact hd _ st (h ▸ hfile)
  · cases h

theorem Ascending.putLogs (hd : d.Ascending) {st : LogStore.Store} (hst : st.Ascending) (agent : String) :
    ({ d with logs := d.logs.put agent st } : DataDir).Ascending := by
  intro key st' h
  rw [putLogs_cell] at h
  split at h
  · cases h
    exact hst
  · exact hd key st' h

theorem Ascending.pruneAll (hd : d.Ascending) (beforeMs : Int) : (d.pruneAll beforeMs).Ascending := by
  intro key st h
  rw [pruneAll_cell] at h
  simp only [Cell.prune] at h
  split at h
  · obtain ⟨old, hold, rfl⟩ := Option.map_eq_some_iff.mp h
    exact ascending_prune (hd key old hold) beforeMs
  · exact hd key st h

theorem Ascending.storeLogBatch (hd : d.Ascending) (agent : String) (lines : List Proto.LogShipLine)
    (o : Opening) (appends : Bool) : (d.storeLogBatch agent lines o appends).Ascending := by
  have hopen := hd.getLogs agent o
  have hstore := @Ascending.opened d hd agent o
  unfold DataDir.storeLogBatch
  rcases hget : d.getLogs agent o with ⟨d', _ | st⟩ <;> rw [hget] at hopen hstore
  · exact hopen
  · simp only
    split
    · exact hopen.putLogs (ascending_append (hstore rfl) _) agent
    · exact hopen

theorem Ascending.storeBatch (hd : d.Ascending) (agent : String) (samples : List Proto.MetricSample)
    (o : Opening) (appended : Nat) : (d.storeBatch agent samples o appended).Ascending := by
  have hopen := hd.getMetrics agent o
  unfold DataDir.storeBatch
  generalize d.getMetrics agent o = got at hopen ⊢
  rcases got with ⟨d', _ | st⟩
  · exact hopen
  · exact hopen

theorem Ascending.readLogs {β : Type} (hd : d.Ascending) (agent : String) (o : Opening) (fault : ReadFault)
    (unknown : β) (read : LogStore.Store → β) : (d.readLogs agent o fault unknown read).1.Ascending := by
  have hopen := hd.getLogs agent o
  unfold DataDir.readLogs
  split
  · generalize d.getLogs agent o = got at hopen ⊢
    rcases got with ⟨d', _ | st⟩
    · exact hopen
    · exact hopen
  · exact hd

/-- Every operation keeps the rows of every database in the order of their ids. -/
theorem ascending_exec (hd : d.Ascending) (op : StoreOp) : (d.exec op).1.Ascending := by
  cases op with
  | metricsAppend agent samples o appended => exact hd.storeBatch agent samples o appended
  | logsAppend agent lines o appends => exact hd.storeLogBatch agent lines o appends
  | pruneAll beforeMs => exact hd.pruneAll beforeMs
  | logsSince req o fault => exact hd.readLogs _ o fault _ _
  | errorCounts agent sinceMs o fault => exact hd.readLogs _ o fault _ _
  | stderrSince agent sinceMs o fault => exact hd.readLogs _ o fault _ _
  | metricsWatermark agent o reads =>
    have hopen := hd.getMetrics agent o
    simp only [DataDir.exec, DataDir.lastMetricTs]
    generalize d.getMetrics agent o = got at hopen ⊢
    rcases got with ⟨d', _ | st⟩
    · exact hopen
    · exact hopen
  | logsWatermark agent o reads =>
    have hopen := hd.getLogs agent o
    simp only [DataDir.exec, DataDir.lastLogTs]
    generalize d.getLogs agent o = got at hopen ⊢
    rcases got with ⟨d', _ | st⟩
    · exact hopen
    · exact hopen
  | metricsHistory req nowMs o fault =>
    have hopen := hd.getMetrics req.agentName o
    simp only [DataDir.exec, DataDir.fleetMetricsHistory]
    split
    · generalize d.getMetrics req.agentName o = got at hopen ⊢
      rcases got with ⟨d', _ | st⟩
      · exact hopen
      · exact hopen
    · exact hd
  | logsHistory req o fault =>
    have hopen := hd.getLogs req.agentName o
    simp only [DataDir.exec, DataDir.fleetLogsHistory]
    split
    · generalize d.getLogs req.agentName o = got at hopen ⊢
      rcases got with ⟨d', _ | st⟩
      · exact hopen
      · exact hopen
    · exact hd

/-- The data directories there can be: the server's operations on an empty one, and restarts. -/
inductive Reached : DataDir → Prop where
  | empty : Reached {}
  | exec {d : DataDir} (hd : Reached d) (op : StoreOp) : Reached (d.exec op).1
  | restart {d : DataDir} (hd : Reached d) :
      Reached { d with metrics := { d.metrics with m := [] }, logs := { d.logs with m := [] } }

theorem Reached.ascending (hd : d.Reached) : d.Ascending := by
  induction hd with
  | empty => exact ascending_empty
  | exec _ op ih => exact ascending_exec ih op
  | restart _ ih => exact ih

/-- **The merged log history is the true tail**: of all matching lines of the selected labels, the
`lines` greatest by timestamp, label and rowid, ascending. -/
theorem fleetLogsHistory_tail (d d' : DataDir) (hd : d.Reached) (req : LogsHistoryRequest) (o : Opening)
    (st : LogStore.Store) (hhas : d.has req.agentName) (hopen : d.getLogs req.agentName o = (d', some st))
    (hlines : 0 < req.lines) :
    d.fleetLogsHistory req o .none =
      (d', .ok (((matchingLines st req).rtake req.lines.toNat).map answered)) := by
  have hst : st.Ascending := hd.ascending.opened (congrArg Prod.snd hopen)
  unfold DataDir.fleetLogsHistory
  rw [if_pos hhas, hopen]
  simp only [logsHistoryOf, if_neg (not_le.mpr hlines)]
  rw [← mergeTail_tails hst req hlines]
  rfl

def ship (d : DataDir) (line : Proto.LogShipLine) : DataDir := (d.exec (.logsAppend "host" [line] .ok true)).1

/-- Two instances with lines of one timestamp, and an earlier line that comes between them. -/
def twoInstances : DataDir :=
  ((({} : DataDir).ship ⟨5, "web#1", false, "b"⟩).ship ⟨4, "web#0", false, "a"⟩).ship ⟨5, "web#0", false, "c"⟩

theorem fleetLogsHistory_tail_ties :
    (twoInstances.fleetLogsHistory ⟨"host", "web", 2, .stdout, ""⟩ .ok .none).2 =
      .ok [⟨"web", 0, false, "c"⟩, ⟨"web", 1, false, "b"⟩] := by
  have hsorted : matchingLines (twoInstances.logs.content {} "host") ⟨"host", "web", 2, .stdout, ""⟩ =
      [⟨2, 4, "web#0", false, "a"⟩, ⟨3, 5, "web#0", false, "c"⟩, ⟨1, 5, "web#1", false, "b"⟩] := by
    have hfound : ((twoInstances.logs.content {} "host").rows.filter fun r =>
        selects "web" r.label && matching .stdout "" r) =
        [⟨1, 5, "web#1", false, "b"⟩, ⟨2, 4, "web#0", false, "a"⟩, ⟨3, 5, "web#0", false, "c"⟩] := by
      decide +kernel
    rw [matchingLines, hfound]
    have hlt : "web#0" < "web#1" := by decide
    simp [List.mergeSort, StoredLine.le, List.MergeSort.Internal.splitInTwo, hlt.not_gt]
  have htail := fleetLogsHistory_tail twoInstances _ (((Reached.empty.exec _).exec _).exec _)
    ⟨"host", "web", 2, .stdout, ""⟩ .ok _ (by decide +kernel) rfl (by decide)
  rw [htail]
  exact congrArg Except.ok (by rw [hsorted]; decide +kernel)

end DataDir

end Marshal.Server
