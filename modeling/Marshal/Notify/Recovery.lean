import Marshal.Lib.Separator
import Marshal.Notify.Transitions

/-! When a recovery is one.

A key stays under alert from its last alert to its recovery, so a recovery always has
an alert before it. It also ends the trouble, unless another entry of its process
fails in the same snapshot: the sweep goes entry by entry. -/
namespace Marshal.Notify
open Config Proto Server

/-! ### Keys -/

theorem procKey_inj {agent agent' process process' : String} (h : validAppName process = true)
    (h' : validAppName process' = true) (hkey : procKey agent process = procKey agent' process') :
    agent = agent' ∧ process = process' := by
  have hnul : ∀ name : String, validAppName name = true → '\x00' ∉ name.toList := by
    intro name hname hmem
    rcases validAppName_chars hname _ hmem with h | h | h | h
    · exact absurd h (by decide)
    all_goals exact absurd h (by decide)
  exact Separator.append_inj rfl (hnul process h) (hnul process' h') hkey

/-! ### Histories of events -/

def AlertOf (agent process : String) (e : Event) : Prop :=
  (e.type = .crash ∨ e.type = .restartLoop ∨ e.type = .deployFail) ∧ e.agent = agent ∧ e.process = process

def RecoveryOf (agent process : String) (e : Event) : Prop :=
  e.type = .recovered ∧ e.agent = agent ∧ e.process = process

/-- An alert of the process was emitted, and no recovery of it since. -/
def AlertOpen (log : List Event) (agent process : String) : Prop :=
  ∃ before e after, log = before ++ e :: after ∧ AlertOf agent process e ∧
    ∀ x ∈ after, ¬ RecoveryOf agent process x

/-- Every recovery comes after an alert of its process that is open till then. -/
def Justified (log : List Event) : Prop :=
  ∀ before e after, log = before ++ e :: after → e.type = .recovered →
    AlertOpen before e.agent e.process

theorem AlertOpen.append {log more : List Event} {agent process : String}
    (h : AlertOpen log agent process) (hmore : ∀ x ∈ more, ¬ RecoveryOf agent process x) :
    AlertOpen (log ++ more) agent process := by
  obtain ⟨before, e, after, rfl, halert, hafter⟩ := h
  refine ⟨before, e, after ++ more, by simp, halert, ?_⟩
  intro x hx
  rcases List.mem_append.mp hx with hx | hx
  · exact hafter x hx
  · exact hmore x hx

theorem Justified.concat {log : List Event} {e : Event} (h : Justified log)
    (he : e.type = .recovered → AlertOpen log e.agent e.process) : Justified (log ++ [e]) := by
  intro before x after hsplit hx
  rcases List.eq_nil_or_concat after with rfl | ⟨after, y, rfl⟩
  · obtain ⟨rfl, hlast⟩ := List.append_inj' hsplit rfl
    cases hlast
    exact he hx
  · have hsplit : log ++ [e] = (before ++ x :: after) ++ [y] := by rw [hsplit]; simp
    obtain ⟨rfl, -⟩ := List.append_inj' hsplit rfl
    exact h before x after rfl hx

theorem Justified.append {log more : List Event} (h : Justified log)
    (hmore : ∀ x ∈ more, x.type ≠ .recovered) : Justified (log ++ more) := by
  induction more generalizing log with
  | nil => rwa [List.append_nil]
  | cons x rest ih =>
    have hstep := ih (h.concat fun hx => absurd hx (hmore x List.mem_cons_self))
      fun y hy => hmore y (List.mem_cons_of_mem x hy)
    rwa [List.append_assoc] at hstep

/-! ### What a tick raises -/

theorem procEvent_type {agent prevState : String} {p : ProcInfo} {now : Int} {e : Event}
    (h : procEvent agent prevState p now = some e) :
    e.type = .crash ∨ e.type = .restartLoop ∨ e.type = .deployFail := by
  unfold procEvent at h
  split at h
  · cases h
  · split at h
    · cases h
      exact .inl rfl
    · split at h
      · cases h
        exact .inr (.inl rfl)
      · split at h
        · cases h
          exact .inr (.inr rfl)
        · cases h

/-- An event of a difference is an alert of a process with a valid name, or an agent's own. -/
theorem alert_cases {prev : List AgentState} {next : FleetSnapshot} {now : Int} {e : Event}
    (h : e ∈ diff prev next.agents now) : e.type ≠ .recovered ∧
      (e.process ≠ "" → AlertOf e.agent e.process e ∧ validAppName e.process = true) := by
  obtain ⟨a, ha, he⟩ := List.mem_flatMap.mp h
  split at he
  · cases he
  · rcases List.mem_append.mp he with he | he
    · unfold connection at he
      split at he
      · rw [List.mem_singleton.mp he]
        exact ⟨by simp, fun hne => absurd rfl hne⟩
      · split at he
        · rw [List.mem_singleton.mp he]
          exact ⟨by simp, fun hne => absurd rfl hne⟩
        · cases he
    · obtain ⟨p, hp, hevent⟩ := List.mem_filterMap.mp he
      obtain ⟨pp, -, hevent⟩ := Option.bind_eq_some_iff.mp hevent
      have htype := procEvent_type hevent
      refine ⟨by rcases htype with h | h | h <;> simp [h], fun _ => ⟨⟨htype, rfl, rfl⟩, ?_⟩⟩
      rw [(procEvent_some hevent).2.1]
      exact next.named a ha p hp

/-- Every key under alert is one whose alert is open. -/
def Backed (alerting : Alerting) (log : List Event) : Prop :=
  ∀ agent process, validAppName process = true →
    alerting.get (procKey agent process) ≠ none → AlertOpen log agent process

theorem backed_record {alerting : Alerting} {log alerts : List Event} (h : Backed alerting log)
    (hcases : ∀ e ∈ alerts, e.type ≠ .recovered ∧
      (e.process ≠ "" → AlertOf e.agent e.process e ∧ validAppName e.process = true)) :
    Backed (record alerting alerts) (log ++ alerts) := by
  induction alerts generalizing alerting log with
  | nil => rwa [List.append_nil]
  | cons e rest ih =>
    obtain ⟨htype, halert⟩ := hcases e List.mem_cons_self
    have hsplit : log ++ e :: rest = (log ++ [e]) ++ rest := by simp
    rw [hsplit]
    refine ih ?_ fun x hx => hcases x (List.mem_cons_of_mem e hx)
    intro agent process hvalid hget
    have hold : alerting.get (procKey agent process) ≠ none → AlertOpen (log ++ [e]) agent process := by
      intro hget
      refine (h agent process hvalid hget).append fun x hx hrec => ?_
      rw [List.mem_singleton.mp hx] at hrec
      exact htype hrec.1
    simp only at hget
    split at hget
    · rename_i hprocess
      obtain ⟨hof, hname⟩ := halert hprocess
      rw [Table.get_set] at hget
      split at hget
      · rename_i hkey
        obtain ⟨rfl, rfl⟩ := procKey_inj hvalid hname hkey
        exact ⟨log, e, [], rfl, hof, by simp⟩
      · exact hold hget
    · exact hold hget

/-! ### What the sweep does -/

def entryKey (entry : String × ProcInfo) : String := procKey entry.1 entry.2.name

/-- An entry that ends an alert. -/
def settles (entry : String × ProcInfo) : Bool := entry.2.state == online || entry.2.state == stopped

/-- The first entry of the key that ends an alert is online. -/
def comesOnline (k : String) (l : List (String × ProcInfo)) : Bool :=
  match l.find? fun entry => entryKey entry == k && settles entry with
  | some entry => entry.2.state == online
  | none => false

theorem sweepEntry_cases (now : Int) (t : Alerting) (out : List Event) (entry : String × ProcInfo) :
    (sweepEntry now (t, out) entry = (t, out) ∧ (t.get (entryKey entry) = none ∨ settles entry = false)) ∨
    (∃ cause, t.get (entryKey entry) = some cause ∧ entry.2.state = online ∧
      sweepEntry now (t, out) entry =
        (t.del (entryKey entry), out ++ [recovery entry.1 entry.2 cause now])) ∨
    (entry.2.state = stopped ∧ sweepEntry now (t, out) entry = (t.del (entryKey entry), out)) := by
  unfold sweepEntry
  cases hget : t.get (entryKey entry) with
  | none =>
    have hget : t.get (procKey entry.1 entry.2.name) = none := hget
    simp [hget]
  | some cause =>
    have hget : t.get (procKey entry.1 entry.2.name) = some cause := hget
    simp only [hget]
    by_cases honline : entry.2.state = online
    · exact .inr (.inl ⟨cause, rfl, honline, by rw [if_pos honline]; rfl⟩)
    · rw [if_neg honline]
      by_cases hstopped : entry.2.state = stopped
      · exact .inr (.inr ⟨hstopped, by rw [if_pos hstopped]; rfl⟩)
      · exact .inl ⟨by rw [if_neg hstopped], .inr (by simp [settles, honline, hstopped])⟩

theorem comesOnline_skip {k : String} {entry : String × ProcInfo} {rest : List (String × ProcInfo)}
    (h : entryKey entry ≠ k ∨ settles entry = false) :
    comesOnline k (entry :: rest) = comesOnline k rest := by
  have hfalse : (entryKey entry == k && settles entry) = false := by
    rcases h with h | h
    · simp [h]
    · simp [h]
  simp only [comesOnline, List.find?_cons, hfalse]

theorem comesOnline_here {entry : String × ProcInfo} {rest : List (String × ProcInfo)}
    (h : settles entry = true) :
    comesOnline (entryKey entry) (entry :: rest) = (entry.2.state == online) := by
  simp [comesOnline, h]

/-- A recovery comes from a key under alert that comes online. -/
theorem swept_origin {now : Int} {t : Alerting} {out : List Event} {l : List (String × ProcInfo)}
    {e : Event} (he : e ∈ (l.foldl (sweepEntry now) (t, out)).2) :
    e ∈ out ∨ e.type = .recovered ∧ t.get (procKey e.agent e.process) ≠ none ∧
      comesOnline (procKey e.agent e.process) l = true := by
  induction l generalizing t out with
  | nil => exact .inl he
  | cons entry rest ih =>
    rw [List.foldl_cons] at he
    rcases sweepEntry_cases now t out entry with ⟨heq, hsame⟩ | ⟨cause, hget, honline, heq⟩ |
      ⟨hstopped, heq⟩
    · rw [heq] at he
      refine (ih he).imp id fun hrest => ?_
      obtain ⟨htype, hget, hcomes⟩ := hrest
      refine ⟨htype, hget, ?_⟩
      rw [comesOnline_skip]
      · exact hcomes
      · rcases hsame with hnone | hsettles
        · exact .inl fun hkey => hget (hkey ▸ hnone)
        · exact .inr hsettles
    · rw [heq] at he
      rcases ih he with hout | ⟨htype, hget', hcomes⟩
      · rcases List.mem_append.mp hout with hout | hout
        · exact .inl hout
        · rw [List.mem_singleton.mp hout]
          refine .inr ⟨rfl, ?_, ?_⟩
          · show t.get (entryKey entry) ≠ none
            rw [hget]
            simp
          · show comesOnline (entryKey entry) (entry :: rest) = true
            rw [comesOnline_here (by simp [settles, honline]), honline]
            rfl
      · rw [Table.get_del] at hget'
        split at hget'
        · exact absurd rfl hget'
        · rename_i hkey
          refine .inr ⟨htype, hget', ?_⟩
          rw [comesOnline_skip (.inl (Ne.symm hkey))]
          exact hcomes
    · rw [heq] at he
      refine (ih he).imp id fun hrest => ?_
      obtain ⟨htype, hget, hcomes⟩ := hrest
      rw [Table.get_del] at hget
      split at hget
      · exact absurd rfl hget
      · rename_i hkey
        refine ⟨htype, hget, ?_⟩
        rw [comesOnline_skip (.inl (Ne.symm hkey))]
        exact hcomes

theorem swept_grows {now : Int} {t : Alerting} {out : List Event} {l : List (String × ProcInfo)} :
    ∀ e ∈ out, e ∈ (l.foldl (sweepEntry now) (t, out)).2 := by
  induction l generalizing t out with
  | nil => exact fun e he => he
  | cons entry rest ih =>
    intro e he
    rw [List.foldl_cons]
    rcases sweepEntry_cases now t out entry with ⟨heq, -⟩ | ⟨cause, -, -, heq⟩ | ⟨-, heq⟩ <;> rw [heq]
    · exact ih e he
    · exact ih e (List.mem_append_left _ he)
    · exact ih e he

/-- A key under alert that comes online has its recovery. -/
theorem swept_emits {now : Int} {t : Alerting} {out : List Event} {l : List (String × ProcInfo)}
    {k : String} (hget : t.get k ≠ none) (hcomes : comesOnline k l = true) :
    ∃ e ∈ (l.foldl (sweepEntry now) (t, out)).2, ∃ entry ∈ l, entryKey entry = k ∧
      entry.1 = e.agent ∧ entry.2.name = e.process := by
  induction l generalizing t out with
  | nil => cases hcomes
  | cons entry rest ih =>
    rw [List.foldl_cons]
    have hlater : ∀ {t' : Alerting} {out' : List Event}, t'.get k ≠ none →
        comesOnline k rest = true → ∃ e ∈ (rest.foldl (sweepEntry now) (t', out')).2,
          ∃ other ∈ entry :: rest, entryKey other = k ∧ other.1 = e.agent ∧
            other.2.name = e.process := by
      intro t' out' hget' hcomes'
      obtain ⟨e, he, other, hother, hnames⟩ := @ih t' out' hget' hcomes'
      exact ⟨e, he, other, List.mem_cons_of_mem _ hother, hnames⟩
    rcases sweepEntry_cases now t out entry with ⟨heq, hsame⟩ | ⟨cause, hcause, honline, heq⟩ |
      ⟨hstopped, heq⟩ <;> rw [heq]
    · refine hlater hget ?_
      rwa [comesOnline_skip] at hcomes
      rcases hsame with hnone | hsettles
      · exact .inl fun hkey => hget (hkey ▸ hnone)
      · exact .inr hsettles
    · by_cases hkey : entryKey entry = k
      · exact ⟨_, swept_grows _ (List.mem_append_right _ (List.mem_singleton_self _)), entry,
          List.mem_cons_self, hkey, rfl, rfl⟩
      · refine hlater ?_ ?_
        · rwa [Table.get_del, if_neg (Ne.symm hkey)]
        · rwa [comesOnline_skip (.inl hkey)] at hcomes
    · by_cases hkey : entryKey entry = k
      · rw [← hkey, comesOnline_here (by simp [settles, hstopped]), hstopped] at hcomes
        cases hcomes
      · refine hlater ?_ ?_
        · rwa [Table.get_del, if_neg (Ne.symm hkey)]
        · rwa [comesOnline_skip (.inl hkey)] at hcomes

/-! ### A tick -/

/-- What is known of the alerts and the history while entries are swept. -/
structure Swept (log : List Event) (acc : Alerting × List Event) : Prop where
  backed : Backed acc.1 (log ++ acc.2)
  justified : Justified (log ++ acc.2)

theorem Backed.del {alerting : Alerting} {log : List Event} (h : Backed alerting log) (k : String) :
    Backed (alerting.del k) log := by
  intro agent process hvalid hget
  rw [Table.get_del] at hget
  split at hget
  · exact absurd rfl hget
  · exact h agent process hvalid hget

theorem swept_entry {log : List Event} {acc : Alerting × List Event} (h : Swept log acc) (now : Int)
    {entry : String × ProcInfo} (hname : validAppName entry.2.name = true) :
    Swept log (sweepEntry now acc entry) := by
  obtain ⟨t, out⟩ := acc
  rcases sweepEntry_cases now t out entry with ⟨heq, -⟩ | ⟨cause, hget, -, heq⟩ | ⟨-, heq⟩ <;> rw [heq]
  · exact h
  · have hopen := h.backed entry.1 entry.2.name hname (by
      show t.get (entryKey entry) ≠ none
      rw [hget]
      simp)
    refine ⟨?_, ?_⟩
    · intro agent process hvalid hget'
      have hget' : (t.del (entryKey entry)).get (procKey agent process) ≠ none := hget'
      rw [Table.get_del] at hget'
      split at hget'
      · exact absurd rfl hget'
      · rename_i hkey
        have hold := h.backed agent process hvalid hget'
        show AlertOpen (log ++ (out ++ [_])) agent process
        rw [← List.append_assoc]
        refine hold.append fun x hx hrec => hkey ?_
        rw [List.mem_singleton.mp hx] at hrec
        obtain ⟨-, rfl, rfl⟩ := hrec
        rfl
    · show Justified (log ++ (out ++ [_]))
      rw [← List.append_assoc]
      exact h.justified.concat fun _ => hopen
  · exact ⟨h.backed.del _, h.justified⟩

theorem swept_fold {log : List Event} {acc : Alerting × List Event} (h : Swept log acc) (now : Int)
    {l : List (String × ProcInfo)} (hnames : ∀ entry ∈ l, validAppName entry.2.name = true) :
    Swept log (l.foldl (sweepEntry now) acc) := by
  induction l generalizing acc with
  | nil => exact h
  | cons entry rest ih =>
    exact ih (swept_entry h now (hnames entry List.mem_cons_self)) fun other hother =>
      hnames other (List.mem_cons_of_mem entry hother)

theorem Backed.prune {alerting : Alerting} {log : List Event} (h : Backed alerting log)
    (present : List String) : Backed (prune alerting present) log := by
  intro agent process hvalid hget
  refine h agent process hvalid fun hnone => hget ?_
  rw [Notify.prune, Table.get_discard, hnone]
  rfl

theorem entries_named (s : FleetSnapshot) :
    ∀ entry ∈ entries s.agents, validAppName entry.2.name = true := by
  intro entry hentry
  obtain ⟨a, ha, hmem⟩ := List.mem_flatMap.mp hentry
  obtain ⟨p, hp, rfl⟩ := List.mem_map.mp hmem
  exact s.named a ha p hp

namespace Detector

/-- Every key under alert has an open alert, and every recovery had one. -/
structure Sound (d : Detector) : Prop where
  backed : Backed d.alerting d.emitted
  justified : Justified d.emitted

theorem sound_tick {d : Detector} (h : Sound d) (t : Tick) : Sound (d.tick t) := by
  have hcases : ∀ e ∈ d.alerts t, _ := fun e he => @alert_cases d.prev t.next t.now e he
  have hswept := @swept_fold (d.emitted ++ d.alerts t) (record d.alerting (d.alerts t), [])
    ⟨by simpa using backed_record h.backed hcases,
      by simpa using h.justified.append fun e he => (hcases e he).1⟩ t.now _ (entries_named t.next)
  refine ⟨?_, ?_⟩
  · have hbacked := hswept.backed.prune ((entries t.next.agents).map entryKey)
    rwa [List.append_assoc] at hbacked
  · have hjustified := hswept.justified
    rwa [List.append_assoc] at hjustified

/-! ### Real recoveries -/

/-- Every recovery of this tick leaves no failing entry of its process on its agent. -/
def EndsTrouble (d : Detector) (t : Tick) : Prop :=
  ∀ e ∈ d.recovered t, ∀ entry ∈ entries t.next.agents, entry.1 = e.agent → entry.2.name = e.process →
    failing entry.2.state = false

instance (d : Detector) (t : Tick) : Decidable (EndsTrouble d t) :=
  inferInstanceAs (Decidable (∀ _ ∈ _, ∀ _ ∈ _, _ → _ → _))

/-- Every recovery of this tick comes after an alert of its process that no other recovery
followed. -/
def HadAlert (d : Detector) (t : Tick) : Prop :=
  ∀ before e after, d.recovered t = before ++ e :: after →
    AlertOpen (d.emitted ++ d.alerts t ++ before) e.agent e.process

/-- No process under alert, from before or by this tick's alerts, that comes online has a
failing entry beside. -/
def OnlineAlone (d : Detector) (t : Tick) : Prop :=
  ∀ entry ∈ entries t.next.agents,
    (record d.alerting (d.alerts t)).get (entryKey entry) ≠ none →
    comesOnline (entryKey entry) (entries t.next.agents) = true → failing entry.2.state = false

theorem endsTrouble_iff (d : Detector) (t : Tick) : EndsTrouble d t ↔ OnlineAlone d t := by
  constructor
  · intro h entry hentry hget hcomes
    obtain ⟨e, he, other, hother, hkey, hagent, hprocess⟩ :=
      @swept_emits t.now _ [] _ _ hget hcomes
    obtain ⟨ha, hp⟩ := procKey_inj (entries_named t.next other hother)
      (entries_named t.next entry hentry) hkey
    exact h e he entry hentry (ha ▸ hagent) (hp ▸ hprocess)
  · intro h e he entry hentry hagent hprocess
    rcases swept_origin he with hnone | ⟨-, hget, hcomes⟩
    · cases hnone
    · rw [← hagent, ← hprocess] at hget hcomes
      exact h entry hentry hget hcomes

theorem hadAlert {d : Detector} (h : Sound d) (t : Tick) : HadAlert d t := by
  intro before e after hsplit
  have hsound := sound_tick h t
  have htype : e.type = .recovered := by
    have he : e ∈ d.recovered t := by rw [hsplit]; simp
    rcases swept_origin he with hnone | ⟨htype, -⟩
    · cases hnone
    · exact htype
  refine hsound.justified (d.emitted ++ d.alerts t ++ before) e after ?_ htype
  show d.emitted ++ (d.alerts t ++ d.recovered t) = _
  rw [hsplit]
  simp

/-- **A recovery ends the trouble where no failing entry stands beside it, and always had an
alert.** In every run of a new detector over any fleet snapshots: at every tick each recovery
leaves no entry of its process on its agent that is restarting, errored or failed, and comes
after an alert of its process since the recovery before, if and only if at every tick no process
under alert that comes online has a failing entry in the snapshot. -/
theorem recovery_real_iff (ticks : List Tick) :
    machine.Along (fun d t => EndsTrouble d t ∧ HadAlert d t) {} ticks ↔
      machine.Along OnlineAlone {} ticks := by
  have hnew : Sound {} := by
    refine ⟨?_, ?_⟩
    · intro agent process hvalid hget
      exact absurd rfl hget
    · intro before e after hsplit
      simp at hsplit
  refine machine.along_congr (I := Sound) ?_ ?_ hnew ticks
  · intro d t d' hd h
    cases h
    exact sound_tick hd t
  · intro d t hd
    rw [endsTrouble_iff]
    exact and_iff_left (hadAlert hd t)

/-- A git app with one instance, online. -/
def gitAppOnline : List Daemon.Manager.Action :=
  [.call (.add { name := "web", cmd := "web", source := some { repo := "https://git/web" } }),
    .worker 0 (.spawn 1 10), .worker 0 .next]

theorem gitAppOnline_runs : (Daemon.Manager.machine.run {} gitAppOnline).isSome = true := rfl

def running : Daemon.Server where
  mgr := (Daemon.Manager.machine.run {} gitAppOnline).get gitAppOnline_runs
  deployer := { deployRoot := Deploy.homeDeploys, disk := .ofDirs [] }
  appNames := by decide +kernel
  stateNames := undeployed_names

/-- The app runs on while its redeploy has failed. -/
def redeployFailed : Daemon.Server :=
  { running with
    deployer := running.deployer.setState "web" .failed "build failed: exit status 1"
    stateNames := by
      intro name hname
      by_contra hvalid
      apply hname
      show (Table.set ∅ "web" _).get name = none
      rw [Table.get_set, if_neg]
      · rfl
      · rintro rfl
        exact hvalid (by decide) }

/-- The failed redeploy is reported as recovered at once. -/
theorem failed_deploy_recovers :
    ¬ ∀ ticks : List Tick, (∀ t ∈ ticks, Produced t.next) →
      machine.Along (fun d t => EndsTrouble d t ∧ HadAlert d t) {} ticks := by
  intro h
  have hrun : Daemon.Manager.machine.run {} gitAppOnline = some running.mgr := rfl
  have halong := h [⟨soleAgent running, 0⟩, ⟨soleAgent redeployFailed, 1⟩] (by
    intro t ht
    rcases List.mem_cons.mp ht with rfl | ht
    · exact produced_soleAgent hrun
    · rw [List.mem_singleton.mp ht]
      exact @produced_soleAgent redeployFailed _ hrun)
  obtain ⟨-, ⟨hends, -⟩, -⟩ := halong
  exact absurd hends (by decide +kernel)

end Detector
end Marshal.Notify
