import Marshal.Dashboard.Errors

/-! Acknowledged errors that happen again. -/
namespace Marshal.Server

/-! ### Reading stderr lines -/

def Cell.stderrLines (c : Cell) (sinceMs : Int) : List LogStore.StoredLine :=
  if c.dir then
    let st := c.logsFile.getD {}
    LogStore.stderrSince st (LogStore.labels st) sinceMs
  else []

/-- The agent's stderr lines since a time, by label and then by time. -/
def DataDir.stderrLines (d : DataDir) (agent : String) (sinceMs : Int) : List LogStore.StoredLine :=
  (d.cell (sanitizeAgent agent)).stderrLines sinceMs

variable {d : DataDir} {agent : String} {sinceMs : Int} {o : Opening} {fault : ReadFault}

theorem stderrLines_openLogs {c : Cell} (h : c.dir = true) (o : Opening) (sinceMs : Int) :
    (c.openLogs o).stderrLines sinceMs = c.stderrLines sinceMs := by
  unfold Cell.openLogs
  split
  · rfl
  · cases o <;> simp [Cell.stderrLines, h]

/-- A read changes no agent's lines. -/
theorem stderrSince_keeps (agent' : String) (sinceMs' : Int) :
    (d.stderrSince agent sinceMs o fault).1.stderrLines agent' sinceMs' = d.stderrLines agent' sinceMs' := by
  unfold DataDir.stderrSince DataDir.readLogs
  cases hhas : d.has agent with
  | false => rfl
  | true =>
    have hcell := getLogs_cell d agent (sanitizeAgent agent') o
    have hlines : (d.getLogs agent o).1.stderrLines agent' sinceMs' = d.stderrLines agent' sinceMs' := by
      unfold DataDir.stderrLines
      rw [hcell]
      split
      · rename_i hkey
        rw [hkey]
        exact stderrLines_openLogs hhas o sinceMs'
      · rfl
    rcases hget : d.getLogs agent o with ⟨d', _ | st⟩ <;> rw [hget] at hlines <;> exact hlines

/-- A read gives the agent's lines if it does not fail. -/
theorem stderrSince_rows {rows : List LogStore.StoredLine}
    (h : (d.stderrSince agent sinceMs o fault).2 = some rows) : rows = d.stderrLines agent sinceMs := by
  unfold DataDir.stderrSince DataDir.readLogs at h
  cases hhas : d.has agent with
  | false =>
    simp only [hhas, Bool.false_eq_true, if_false, Option.some.injEq] at h
    subst h
    unfold DataDir.stderrLines Cell.stderrLines
    rw [← has_eq, hhas]
    rfl
  | true =>
    have hstore := getLogs_store d agent o
    have hlines : d.stderrLines agent sinceMs =
        LogStore.stderrSince ((d.cell (sanitizeAgent agent)).logsFile.getD {})
          (LogStore.labels ((d.cell (sanitizeAgent agent)).logsFile.getD {})) sinceMs := by
      unfold DataDir.stderrLines Cell.stderrLines
      rw [← has_eq, hhas, if_pos rfl]
    simp only [hhas, if_true] at h
    rcases hget : d.getLogs agent o with ⟨d', _ | st⟩
    · rw [hget] at h
      cases h
    · simp only [hget] at h hstore
      unfold Cell.logStore at hstore
      split at hstore
      · cases hstore
        split at h
        · rw [hlines]
          exact (Option.some.inj h).symm
        · cases h
      · cases hstore

theorem mem_stderrLines {ln : LogStore.StoredLine} : ln ∈ d.stderrLines agent sinceMs ↔
    d.has agent = true ∧ ln ∈ (d.logs.content {} agent).rows ∧ ln.stderr = true ∧ sinceMs ≤ ln.tsMs := by
  have hstore : (d.cell (sanitizeAgent agent)).logsFile.getD {} = d.logs.content {} agent := rfl
  unfold DataDir.stderrLines Cell.stderrLines
  rw [← has_eq, hstore]
  cases d.has agent with
  | false => simp
  | true =>
    have hlabel : ∀ ln ∈ (d.logs.content {} agent).rows,
        ln.label ∈ LogStore.labels (d.logs.content {} agent) := by
      intro ln hln
      simp only [LogStore.labels, List.mem_mergeSort, List.mem_eraseDups, List.mem_map]
      exact ⟨ln, hln, rfl⟩
    simp only [LogStore.stderrSince, if_true, List.mem_mergeSort, List.mem_filter, decide_eq_true_eq, true_and]
    constructor
    · rintro ⟨hln, -, hkept⟩
      exact ⟨hln, hkept⟩
    · rintro ⟨hln, hkept⟩
      exact ⟨hln, hlabel ln hln, hkept⟩

theorem stderrLines_ordered (d : DataDir) (agent : String) (sinceMs : Int) :
    (d.stderrLines agent sinceMs).Pairwise fun a b =>
      a.label < b.label ∨ a.label = b.label ∧ a.tsMs ≤ b.tsMs := by
  unfold DataDir.stderrLines Cell.stderrLines
  split
  · refine (List.pairwise_mergeSort (fun a b c hab hbc => ?_) (fun a b => ?_) _).imp fun h => of_decide_eq_true h
    · rw [decide_eq_true_eq] at hab hbc ⊢
      rcases hab with hab | ⟨hab, hab'⟩
      · rcases hbc with hbc | ⟨hbc, -⟩
        · exact .inl (hab.trans hbc)
        · exact .inl (hbc ▸ hab)
      · rcases hbc with hbc | ⟨hbc, hbc'⟩
        · exact .inl (hab ▸ hbc)
        · exact .inr ⟨hab.trans hbc, hab'.trans hbc'⟩
    · rcases lt_trichotomy a.label b.label with hlt | heq | hgt
      · simp [hlt]
      · simp only [heq, lt_irrefl, true_and, false_or, Bool.or_eq_true, decide_eq_true_eq]
        exact le_total _ _
      · simp [hgt]
  · exact List.Pairwise.nil

end Marshal.Server

namespace Marshal.Dashboard.Errors
open Errsig Server

variable {lib : Library}

/-! ### The scan -/

/-- The lines of an agent as the aggregation is given them. -/
def agentLines (d : DataDir) (since : Int) (agent : String) : List Line :=
  (d.stderrLines agent since).map (tagged agent)

/-- The lines of the agents in turn. -/
def agentsLines (d : DataDir) (since : Int) (agents : List String) : List Line :=
  agents.flatMap (agentLines d since)

/-- The rows up to some point are appended, all of them if the limit is not reached. -/
theorem appendRows_eq (agent : String) (lines : List Line) (rows : List LogStore.StoredLine) :
    ∃ k, (appendRows agent lines rows).1 = lines ++ (rows.take k).map (tagged agent) ∧
      ((appendRows agent lines rows).2 = false → rows.take k = rows) := by
  induction rows generalizing lines with
  | nil => exact ⟨0, (List.append_nil _).symm, fun _ => rfl⟩
  | cons ln rest ih =>
    simp only [appendRows]
    split
    · exact ⟨1, rfl, fun h => by cases h⟩
    · obtain ⟨k, hlines, hall⟩ := ih (lines ++ [tagged agent ln])
      refine ⟨k + 1, ?_, fun h => ?_⟩
      · rw [hlines, List.append_assoc]
        rfl
      · rw [List.take_succ_cons, hall h]

variable {since : Int} {disk : String → Opening × ReadFault} {d : DataDir} {lines out : List Line}
  {agents : List String} {truncated : Bool}

theorem stderrLines_read (agent : String) :
    (d.stderrSince agent since (disk agent).1 (disk agent).2).1.stderrLines = d.stderrLines :=
  funext fun agent' => funext fun since' => stderrSince_keeps agent' since'

theorem agentsLines_congr {d' : DataDir} (h : d'.stderrLines = d.stderrLines) (since : Int)
    (agents : List String) : agentsLines d' since agents = agentsLines d since agents := by
  have hagent : agentLines d' since = agentLines d since := by
    funext ag
    unfold agentLines
    rw [h]
  rw [agentsLines, hagent]
  rfl

/-- An agent's rows are appended up to some point. There the limit is reached, or they are all, and
the scan goes on. -/
theorem scan_cons {ag : String} {rest : List String}
    (h : (scan since disk d lines (ag :: rest)).2 = some (out, truncated)) :
    ∃ rows k, rows = ((d.stderrLines ag since).take k).map (tagged ag) ∧
      (out = lines ++ rows ∧ truncated = true ∨
        rows = agentLines d since ag ∧ ∃ d', d'.stderrLines = d.stderrLines ∧
          (scan since disk d' (lines ++ rows) rest).2 = some (out, truncated)) := by
  have hkeeps : (d.stderrSince ag since (disk ag).1 (disk ag).2).1.stderrLines = d.stderrLines :=
    stderrLines_read ag
  simp only [scan] at h
  rcases hread : d.stderrSince ag since (disk ag).1 (disk ag).2 with ⟨d', _ | rows⟩
  · rw [hread] at h
    cases h
  · obtain rfl : rows = d.stderrLines ag since := stderrSince_rows (by rw [hread])
    obtain ⟨k, htake, hall⟩ := appendRows_eq ag lines (d.stderrLines ag since)
    simp only [hread] at h hkeeps
    refine ⟨_, k, rfl, ?_⟩
    rcases happend : appendRows ag lines (d.stderrLines ag since) with ⟨lines', _ | _⟩
    · simp only [happend] at h htake hall
      subst htake
      refine .inr ⟨?_, d', hkeeps, h⟩
      rw [hall trivial]
      rfl
    · simp only [happend] at h htake
      cases h
      exact .inl ⟨htake, rfl⟩

/-- What is scanned are rows of some of the agents, in turn. -/
theorem scan_runs (h : (scan since disk d lines agents).2 = some (out, truncated)) :
    ∃ runs : List (String × List Line), out = lines ++ runs.flatMap Prod.snd ∧
      (runs.map Prod.fst).Sublist agents ∧
      ∀ r ∈ runs, ∃ k, r.2 = ((d.stderrLines r.1 since).take k).map (tagged r.1) := by
  induction agents generalizing d lines with
  | nil =>
    cases h
    exact ⟨[], (List.append_nil _).symm, List.Sublist.refl _, fun r hr => absurd hr List.not_mem_nil⟩
  | cons ag rest ih =>
    obtain ⟨rows, k, hrows, ⟨rfl, -⟩ | ⟨-, d', hkeeps, hrest⟩⟩ := scan_cons h
    · refine ⟨[(ag, rows)], by simp, List.Sublist.cons_cons ag (List.nil_sublist rest), fun r hr => ?_⟩
      rw [List.mem_singleton.mp hr]
      exact ⟨k, hrows⟩
    · obtain ⟨runs, rfl, hsub, htaken⟩ := ih hrest
      refine ⟨(ag, rows) :: runs, by simp, List.Sublist.cons_cons ag hsub, fun r hr => ?_⟩
      rcases List.mem_cons.mp hr with rfl | hr
      · exact ⟨k, hrows⟩
      · obtain ⟨k', hk'⟩ := htaken r hr
        exact ⟨k', hkeeps ▸ hk'⟩

/-- If the limit is not reached, all lines of all agents are scanned. -/
theorem scan_all (h : (scan since disk d lines agents).2 = some (out, false)) :
    out = lines ++ agentsLines d since agents := by
  induction agents generalizing d lines with
  | nil =>
    cases h
    exact (List.append_nil _).symm
  | cons ag rest ih =>
    obtain ⟨rows, k, -, ⟨-, htruncated⟩ | ⟨rfl, d', hkeeps, hrest⟩⟩ := scan_cons h
    · cases htruncated
    · rw [ih hrest, agentsLines_congr hkeeps, List.append_assoc]
      rfl

/-- The aggregation is given gathered lines. -/
theorem scan_gathered (hagents : agents.Nodup) (h : (scan since disk d [] agents).2 = some (out, truncated)) :
    Gathered out := by
  obtain ⟨runs, hout, hsub, htaken⟩ := scan_runs h
  refine ⟨runs, hout, hagents.sublist hsub, fun r hr => ?_⟩
  obtain ⟨k, hk⟩ := htaken r hr
  rw [hk]
  constructor
  · intro ln hln
    obtain ⟨row, -, rfl⟩ := List.mem_map.mp hln
    rfl
  · exact List.pairwise_map.mpr ((stderrLines_ordered d r.1 since).sublist (List.take_sublist k _))

/-! ### Acknowledgements that stand -/

/-- The signature has been acknowledged at `t`, and since then nothing has been asked about it. -/
inductive Acked (id : String) (t : Int) : Handler → Prop
  | made (h : Handler) (saves : Bool) (hacks : h.acks.isSome = true) (hid : id ≠ "") :
    Acked id t (h.ackError (some ⟨id, true⟩) t saves).1
  | other {h : Handler} (body : Option AckRequest) (nowMs : Int) (saves : Bool)
    (hother : ∀ req ∈ body, req.id ≠ id) : Acked id t h → Acked id t (h.ackError body nowMs saves).1
  /-- Lines are stored and pruned, and read. -/
  | logs {h : Handler} (d : DataDir) : Acked id t h → Acked id t { h with logsHist := d }

theorem ackedAt_other {h : Handler} {id : String} {body : Option AckRequest} (nowMs : Int) (saves : Bool)
    (hother : ∀ req ∈ body, req.id ≠ id) : (h.ackError body nowMs saves).1.ackedAt id = h.ackedAt id := by
  unfold Handler.ackError
  rcases hacks : h.acks with _ | acks
  · rfl
  · rcases body with _ | req
    · rfl
    · have hne : id ≠ req.id := fun heq => hother req rfl heq.symm
      simp only
      split
      · rfl
      · unfold Handler.ackedAt
        cases req.ack <;> simp [hacks, Ackstore.Op.apply, Table.get_set, Table.get_del, hne]

theorem Acked.ackedAt {id : String} {t : Int} {h : Handler} (hacked : Acked id t h) :
    h.ackedAt id = (t, true) := by
  induction hacked with
  | made h saves hacks hid =>
    obtain ⟨acks, hacks⟩ := Option.isSome_iff_exists.mp hacks
    simp [Handler.ackError, Handler.ackedAt, Ackstore.Op.apply, hacks, hid]
  | other body nowMs saves hother _ ih => rw [ackedAt_other nowMs saves hother, ih]
  | logs d _ ih => exact ih

/-! ### What happens again -/

/-- The signature has a line after `t` in the window. -/
def Recurs (lib : Library) (d : DataDir) (agents : List String) (since t : Int) (id : String) : Prop :=
  ∃ agent ∈ agents, ∃ ln ∈ (d.logs.content {} agent).rows, d.has agent = true ∧ ln.stderr = true ∧
    since ≤ ln.tsMs ∧ t < ln.tsMs ∧ IsError lib ln.text = true ∧ Signature lib ln.text = id

/-- The lines of the signature, agent by agent, each agent's by label and then by time. -/
def signatureLines (lib : Library) (d : DataDir) (agents : List String) (since : Int) (id : String) :
    List Line :=
  (agentsLines d since agents).filter fun ln => IsError lib ln.text && decide (Signature lib ln.text = id)

theorem mem_agentsLines {ln : Line} : ln ∈ agentsLines d since agents ↔
    ∃ agent ∈ agents, ∃ row ∈ d.stderrLines agent since, tagged agent row = ln := by
  simp only [agentsLines, agentLines, List.mem_flatMap, List.mem_map]

/-- All that is read lies in the window. -/
theorem occurrences_agentsLines {w : Window} (hw : w.sinceMs = since) (id : String) :
    occurrences lib w (agentsLines d since agents) id = signatureLines lib d agents since id := by
  unfold occurrences counted signatureLines
  rw [List.filter_filter]
  refine List.filter_congr fun ln hln => ?_
  obtain ⟨agent, -, row, hrow, rfl⟩ := mem_agentsLines.mp hln
  have hsince : ¬ (tagged agent row).tsMs < w.sinceMs := by
    rw [hw]
    exact not_lt.mpr (mem_stderrLines.mp hrow).2.2.2
  simp [counts, hsince, Bool.and_comm]

theorem Recurs.signatureLines {t : Int} {id : String} (h : Recurs lib d agents since t id) :
    signatureLines lib d agents since id ≠ [] := by
  obtain ⟨agent, hagent, ln, hln, hhas, hstderr, hsince, -, herror, hsign⟩ := h
  have hread : tagged agent ln ∈ agentsLines d since agents :=
    mem_agentsLines.mpr ⟨agent, hagent, ln, mem_stderrLines.mpr ⟨hhas, hln, hstderr, hsince⟩, rfl⟩
  refine List.ne_nil_of_mem (List.mem_filter.mpr ⟨hread, ?_⟩)
  exact Bool.and_eq_true_iff.mpr ⟨herror, decide_eq_true hsign⟩

/-- The page is what is made of the lines scanned. -/
theorem errors_eq (h : Handler) (q : Query) (listed : List String) (now : Int)
    (disk : String → Opening × ReadFault) :
    (h.errors lib q listed now disk).2 =
      (scan (now - (rangeMs q.range).2) disk h.logsHist [] (q.agents listed)).2.map fun r =>
        h.view lib (rangeMs q.range).1 (now - (rangeMs q.range).2) now r.1 r.2 := by
  unfold Handler.errors
  rcases hscan : scan (now - (rangeMs q.range).2) disk h.logsHist [] (q.agents listed) with ⟨d', _ | r⟩
  · simp only [hscan]
    rfl
  · simp only [hscan]
    rfl

/-- The signatures of the page, with the acknowledgement compared to the last line. -/
theorem shown_iff {h : Handler} {id range : String} {t now : Int} (hacked : h.ackedAt id = (t, true))
    (hocc : occurrences lib ⟨since, now, errSparkBuckets⟩ lines id ≠ []) :
    (∃ s ∈ (h.view lib range since now lines truncated).signatures, s.id = id ∧ s.acknowledged = false) ↔
      ∀ l ∈ (occurrences lib ⟨since, now, errSparkBuckets⟩ lines id).getLast?, t < l.sec * 1000 := by
  let w : Window := ⟨since, now, errSparkBuckets⟩
  have hview : ∀ s ∈ (Aggregate lib lines since now errSparkBuckets).signatures, s.id = id →
      ((h.sigView s).acknowledged = false ↔ ∀ l ∈ (occurrences lib w lines id).getLast?, t < l.sec * 1000) := by
    rintro s hs rfl
    obtain ⟨a, hfinish, hsums⟩ := signature_sums (w := w) hs
    obtain ⟨l, hl, hlast⟩ := Option.map_eq_some_iff.mp hsums.last
    have hunix : s.lastUnix = l.sec := by rw [hlast, hfinish]; rfl
    simp only [Handler.sigView, hacked, acknowledged, Bool.true_and, decide_eq_false_iff_not, not_le, hunix, hl,
      Option.mem_some_iff, forall_eq']
  constructor
  · rintro ⟨v, hv, hid, hack⟩
    obtain ⟨s, hs, rfl⟩ := List.mem_map.mp hv
    exact (hview s hs hid).mp hack
  · intro hlast
    obtain ⟨ln, hln⟩ := List.exists_mem_of_ne_nil _ hocc
    obtain ⟨hcounted, hsign⟩ := List.mem_filter.mp hln
    obtain ⟨s, hs, hsid⟩ := exists_signature (w := w) hcounted
    have hid : s.id = id := hsid.trans (of_decide_eq_true hsign)
    exact ⟨h.sigView s, List.mem_map_of_mem hs, hid, (hview s hs hid).mpr hlast⟩

/-- **A recurrence is shown where the last line says so.** A signature was acknowledged at `t` and
nothing has been asked about it since, whatever was logged; a page that is not truncated is asked
for, and in its window one of its agents has a line of the signature, counted as an error, with a
timestamp after `t`. Then the page shows the signature as unacknowledged if and only if the whole
second of the signature's last line, agent by agent and each agent's by label and then by time, is
after `t`. -/
theorem recurrence_shown_iff {h : Handler} {id : String} {t : Int} (hacked : Acked id t h) {q : Query}
    {listed : List String} {now : Int} {disk : String → Opening × ReadFault} {v : ErrorsView}
    (hview : (h.errors lib q listed now disk).2 = some v) (hfull : v.truncated = false)
    (hrecurs : Recurs lib h.logsHist (q.agents listed) (now - (rangeMs q.range).2) t id) :
    (∃ s ∈ v.signatures, s.id = id ∧ s.acknowledged = false) ↔
      ∀ l ∈ (signatureLines lib h.logsHist (q.agents listed) (now - (rangeMs q.range).2) id).getLast?,
        t < l.sec * 1000 := by
  rw [errors_eq, Option.map_eq_some_iff] at hview
  obtain ⟨⟨lines, truncated⟩, hscan, rfl⟩ := hview
  obtain rfl : truncated = false := hfull
  obtain rfl : lines = agentsLines h.logsHist (now - (rangeMs q.range).2) (q.agents listed) := scan_all hscan
  have hocc : occurrences lib ⟨now - (rangeMs q.range).2, now, errSparkBuckets⟩
      (agentsLines h.logsHist (now - (rangeMs q.range).2) (q.agents listed)) id =
        signatureLines lib h.logsHist (q.agents listed) (now - (rangeMs q.range).2) id :=
    occurrences_agentsLines rfl id
  rw [← hocc]
  refine shown_iff hacked.ackedAt ?_
  rw [hocc]
  exact hrecurs.signatureLines

/-! ### A recurrence that stays hidden -/

def errorAt (tsMs : Int) : LogStore.StoredLine := ⟨1, tsMs, "api#0", true, "error"⟩

theorem error_isError : IsError asciiLibrary "error" = true := by decide

theorem error_signature : Signature asciiLibrary "error" = "ca00fccfb408" := by decide

/-- Both agents have the error once. -/
def twoLogs (eastMs westMs : Int) : DataDir where
  dirs := ["east", "west"]
  logs :=
    { files := ((∅ : Table String LogStore.Store).set "west" ⟨[errorAt westMs]⟩).set "east" ⟨[errorAt eastMs]⟩
      m := ["east", "west"] }

/-- The error has been acknowledged. -/
def ackedHandler (atMs : Int) (d : DataDir) : Handler :=
  { (Handler.ackError ⟨some ∅, {}⟩ (some ⟨"ca00fccfb408", true⟩) atMs true).1 with logsHist := d }

theorem ackedHandler_acked (atMs : Int) (d : DataDir) : Acked "ca00fccfb408" atMs (ackedHandler atMs d) :=
  .logs d (.made _ true rfl (by decide))

def day : Query := ⟨"24h", ""⟩

def diskOk : String → Opening × ReadFault := fun _ => (.ok, .none)

theorem stderrSince_single {r : LogStore.StoredLine} {since : Int} (herr : r.stderr = true)
    (hts : since ≤ r.tsMs) : LogStore.stderrSince ⟨[r]⟩ (LogStore.labels ⟨[r]⟩) since = [r] := by
  have hlabels : LogStore.labels ⟨[r]⟩ = [r.label] := List.mergeSort_singleton _
  rw [hlabels, LogStore.stderrSince]
  simp [herr, hts]

/-- The window of the last day. -/
def dayAgo : Int := 1749913610000

theorem twoLogs_scan {eastMs westMs : Int} (heast : dayAgo ≤ eastMs) (hwest : dayAgo ≤ westMs) :
    (scan dayAgo diskOk (twoLogs eastMs westMs) [] ["east", "west"]).2 =
      some ([tagged "east" (errorAt eastMs), tagged "west" (errorAt westMs)], false) := by
  have heast' : (twoLogs eastMs westMs).stderrSince "east" dayAgo .ok .none =
      (twoLogs eastMs westMs, some [errorAt eastMs]) := by
    rw [← stderrSince_single (r := errorAt eastMs) rfl heast]
    rfl
  have hwest' : (twoLogs eastMs westMs).stderrSince "west" dayAgo .ok .none =
      (twoLogs eastMs westMs, some [errorAt westMs]) := by
    rw [← stderrSince_single (r := errorAt westMs) rfl hwest]
    rfl
  simp only [scan, diskOk, heast', hwest']
  rfl

theorem twoLogs_errors {eastMs westMs : Int} (heast : dayAgo ≤ eastMs) (hwest : dayAgo ≤ westMs) (atMs : Int) :
    ((ackedHandler atMs (twoLogs eastMs westMs)).errors asciiLibrary day ["east", "west"] 1750000010000 diskOk).2 =
      some ((ackedHandler atMs (twoLogs eastMs westMs)).view asciiLibrary "24h" dayAgo 1750000010000
        [tagged "east" (errorAt eastMs), tagged "west" (errorAt westMs)] false) := by
  rw [errors_eq]
  exact congrArg (Option.map _) (twoLogs_scan heast hwest)

/-- The first agent's error is newer than the acknowledgement, and the second agent's is not. -/
theorem recurrence_hidden :
    ¬ ∀ (lib : Library) (h : Handler) (id : String) (t : Int) (q : Query) (listed : List String) (now : Int)
        (disk : String → Opening × ReadFault) (v : ErrorsView),
      Acked id t h → (h.errors lib q listed now disk).2 = some v → v.truncated = false →
      Recurs lib h.logsHist (q.agents listed) (now - (rangeMs q.range).2) t id →
      ∃ s ∈ v.signatures, s.id = id ∧ s.acknowledged = false := by
  intro h
  have hshown := h asciiLibrary (ackedHandler 1750000002000 (twoLogs 1750000005000 1750000001000)) "ca00fccfb408"
    1750000002000 day ["east", "west"] 1750000010000 diskOk _ (ackedHandler_acked _ _)
    (twoLogs_errors (by decide) (by decide) _) rfl
    ⟨"east", by decide, errorAt 1750000005000, by decide, by decide, rfl, by decide, by decide, error_isError,
      error_signature⟩
  obtain ⟨s, hs, -, hack⟩ := hshown
  have hall : ∀ s ∈ ((ackedHandler 1750000002000 (twoLogs 1750000005000 1750000001000)).view asciiLibrary "24h"
      dayAgo 1750000010000 [tagged "east" (errorAt 1750000005000), tagged "west" (errorAt 1750000001000)]
      false).signatures, s.acknowledged = true := by decide
  rw [hall s hs] at hack
  cases hack

/-- It is shown if the second agent's is the newer one. -/
theorem recurrence_shown_second : ∃ v,
    ((ackedHandler 1750000002000 (twoLogs 1750000001000 1750000005000)).errors asciiLibrary day ["east", "west"]
      1750000010000 diskOk).2 = some v ∧
    ∃ s ∈ v.signatures, s.id = "ca00fccfb408" ∧ s.acknowledged = false := by
  have hview := @twoLogs_errors 1750000001000 1750000005000 (by decide) (by decide) 1750000002000
  have hread : agentsLines (twoLogs 1750000001000 1750000005000) dayAgo ["east", "west"] =
      [tagged "east" (errorAt 1750000001000), tagged "west" (errorAt 1750000005000)] :=
    (scan_all (twoLogs_scan (by decide) (by decide))).symm
  have hlines : signatureLines asciiLibrary (twoLogs 1750000001000 1750000005000) ["east", "west"] dayAgo
      "ca00fccfb408" = [tagged "east" (errorAt 1750000001000), tagged "west" (errorAt 1750000005000)] := by
    rw [signatureLines, hread]
    simp [tagged, errorAt, error_isError, error_signature]
  refine ⟨_, hview, (recurrence_shown_iff (ackedHandler_acked _ _) hview rfl ?_).mpr ?_⟩
  · exact ⟨"west", by decide, errorAt 1750000005000, by decide, by decide, rfl, by decide, by decide,
      error_isError, error_signature⟩
  · intro l hl
    have hlast : (signatureLines asciiLibrary (twoLogs 1750000001000 1750000005000) ["east", "west"] dayAgo
        "ca00fccfb408").getLast? = some l := hl
    rw [hlines] at hlast
    cases hlast
    decide

end Marshal.Dashboard.Errors
