import Marshal.Daemon.Fleet
import Marshal.Notify.Detector

/-! When an event stands for a change of an instance.

The detector compares an entry with the last entry of its name in the snapshot
before. Where no instance of a process changed, that entry decides whether an alert
is raised again: it is not if every failing entry agrees with it. -/
namespace Marshal.Notify
open Proto Server

/-- Two entries are about one instance. -/
def SameInstance (p q : ProcInfo) : Prop :=
  p.id = q.id ∧ p.name = q.name ∧ p.instanceId = q.instanceId

/-- The entries of a process on the agents of a name. -/
def Entry (agents : List AgentState) (agent process : String) (p : ProcInfo) : Prop :=
  ∃ a ∈ agents, a.agentName = agent ∧ p ∈ a.procs ∧ p.name = process

/-- No instance of the process has another state than before. -/
def Unchanged (prev next : List AgentState) (agent process : String) : Prop :=
  ∀ p q, Entry prev agent process p → Entry next agent process q → SameInstance p q →
    p.state = q.state

/-- The states that raise an alert. -/
def failing (state : String) : Bool := state == restarting || state == errored || state == failed

/-- Every failing entry of the process is in the state of its last entry before. -/
def AgreesWithLast (prev next : List AgentState) (agent process : String) : Prop :=
  ∀ a ∈ next, a.agentName = agent → ∀ pa ∈ prev, pa.agentName = agent →
    ∀ p ∈ a.procs, p.name = process → failing p.state = true →
      ∀ pp, lastWith (·.name) pa.procs process = some pp → pp.state = p.state

/-! ### What an event comes from -/

theorem lastWith_mem {α : Type*} {key : α → String} {l : List α} {k : String} {x : α}
    (h : lastWith key l k = some x) : x ∈ l ∧ key x = k :=
  ⟨List.mem_reverse.mp (List.mem_of_find?_eq_some h), by simpa using List.find?_some h⟩

/-- Among distinct keys the last entry is the only one. -/
theorem lastWith_of_mem {α : Type*} {key : α → String} {l : List α} (hnodup : (l.map key).Nodup)
    {x : α} (hx : x ∈ l) : lastWith key l (key x) = some x := by
  cases hfind : lastWith key l (key x) with
  | none =>
    have hnone := List.find?_eq_none.mp hfind x (List.mem_reverse.mpr hx)
    simp at hnone
  | some y =>
    obtain ⟨hy, hkey⟩ := lastWith_mem hfind
    rw [List.inj_on_of_nodup_map hnodup hy hx hkey]

theorem procEvent_some {agent prevState : String} {p : ProcInfo} {now : Int} {e : Event}
    (h : procEvent agent prevState p now = some e) :
    e.agent = agent ∧ e.process = p.name ∧ failing p.state = true ∧ prevState ≠ p.state := by
  unfold procEvent at h
  split at h
  · cases h
  · rename_i hne
    have hne : prevState ≠ p.state := fun heq => hne heq.symm
    split at h
    · rename_i hstate
      cases h
      exact ⟨rfl, rfl, by rw [hstate]; rfl, hne⟩
    · split at h
      · rename_i hstate
        cases h
        exact ⟨rfl, rfl, by rw [hstate]; rfl, hne⟩
      · split at h
        · rename_i hstate
          cases h
          exact ⟨rfl, rfl, by rw [hstate]; rfl, hne⟩
        · cases h

theorem procEvent_of_failing {agent prevState : String} {p : ProcInfo} {now : Int}
    (hfailing : failing p.state = true) (hne : prevState ≠ p.state) :
    ∃ e, procEvent agent prevState p now = some e ∧ e.agent = agent ∧ e.process = p.name := by
  unfold procEvent
  rw [if_neg fun heq => hne heq.symm]
  split
  · exact ⟨_, rfl, rfl, rfl⟩
  · split
    · exact ⟨_, rfl, rfl, rfl⟩
    · split
      · exact ⟨_, rfl, rfl, rfl⟩
      · rename_i hrestarting herrored hfailed
        simp [failing, hrestarting, herrored, hfailed] at hfailing

/-- An event of a process comes from one of its entries. -/
theorem event_entry {prev next : List AgentState} {now : Int} {e : Event}
    (h : e ∈ diff prev next now) (hprocess : e.process ≠ "") :
    ∃ a ∈ next, ∃ pa ∈ prev, ∃ p ∈ a.procs, ∃ pp, a.agentName = e.agent ∧ pa.agentName = e.agent ∧
      p.name = e.process ∧ lastWith (·.name) pa.procs e.process = some pp ∧
      failing p.state = true ∧ pp.state ≠ p.state := by
  obtain ⟨a, ha, he⟩ := List.mem_flatMap.mp h
  split at he
  · cases he
  · rename_i pa hpa
    obtain ⟨hmem, hname⟩ := lastWith_mem hpa
    rcases List.mem_append.mp he with he | he
    · unfold connection at he
      split at he
      · rw [List.mem_singleton.mp he] at hprocess
        exact absurd rfl hprocess
      · split at he
        · rw [List.mem_singleton.mp he] at hprocess
          exact absurd rfl hprocess
        · cases he
    · obtain ⟨p, hp, hevent⟩ := List.mem_filterMap.mp he
      obtain ⟨pp, hlast, hevent⟩ := Option.bind_eq_some_iff.mp hevent
      obtain ⟨hagent, hproc, hfailing, hne⟩ := procEvent_some hevent
      exact ⟨a, ha, pa, hmem, p, hp, pp, hagent.symm, hname.trans hagent.symm, hproc.symm,
        hproc ▸ hlast, hfailing, hne⟩

theorem entry_event {prev : FleetSnapshot} {next : List AgentState} {a pa : AgentState}
    {p pp : ProcInfo} (ha : a ∈ next) (hpa : pa ∈ prev.agents) (hagent : pa.agentName = a.agentName)
    (hp : p ∈ a.procs) (hlast : lastWith (·.name) pa.procs p.name = some pp)
    (hfailing : failing p.state = true) (hne : pp.state ≠ p.state) (now : Int) :
    ∃ e ∈ diff prev.agents next now, e.agent = a.agentName ∧ e.process = p.name := by
  obtain ⟨e, hevent, heagent, heprocess⟩ := @procEvent_of_failing a.agentName _ p now hfailing hne
  refine ⟨e, List.mem_flatMap.mpr ⟨a, ha, ?_⟩, heagent, heprocess⟩
  rw [← hagent, lastWith_of_mem prev.distinct hpa]
  refine List.mem_append_right _ (List.mem_filterMap.mpr ⟨p, hp, ?_⟩)
  rw [hlast]
  exact hevent

/-- A process raises no event exactly where its failing entries agree with its last one. -/
theorem raises_iff (prev next : FleetSnapshot) (now : Int) (agent process : String) :
    (∃ e ∈ diff prev.agents next.agents now, e.process ≠ "" ∧ e.agent = agent ∧
      e.process = process) ↔ ¬ AgreesWithLast prev.agents next.agents agent process := by
  constructor
  · intro h hagrees
    obtain ⟨e, he, hprocess, rfl, rfl⟩ := h
    obtain ⟨a, ha, pa, hpa, p, hp, pp, hagent, hpagent, hname, hlast, hfailing, hne⟩ :=
      event_entry he hprocess
    exact hne (hagrees a ha hagent pa hpa hpagent p hp hname hfailing pp hlast)
  · intro h
    simp only [AgreesWithLast, not_forall] at h
    obtain ⟨a, ha, hagent, pa, hpa, hpagent, p, hp, hname, hfailing, pp, hlast, hne⟩ := h
    subst hname
    obtain ⟨e, he, heagent, heprocess⟩ := entry_event ha hpa (hpagent.trans hagent.symm) hp hlast
      hfailing hne now
    refine ⟨e, he, ?_, heagent.trans hagent, heprocess⟩
    intro hempty
    have hvalid := next.named a ha p hp
    rw [← heprocess, hempty] at hvalid
    cases hvalid

/-- Between a snapshot and itself no agent comes or goes. -/
theorem diff_self_process (s : FleetSnapshot) {now : Int} {e : Event}
    (h : e ∈ diff s.agents s.agents now) : e.process ≠ "" := by
  obtain ⟨a, ha, he⟩ := List.mem_flatMap.mp h
  rw [lastWith_of_mem s.distinct ha] at he
  rcases List.mem_append.mp he with he | he
  · cases hconnected : a.connected <;> simp [connection, hconnected] at he
  · obtain ⟨p, hp, hevent⟩ := List.mem_filterMap.mp he
    obtain ⟨pp, -, hevent⟩ := Option.bind_eq_some_iff.mp hevent
    rw [(procEvent_some hevent).2.1]
    intro hempty
    have hvalid := s.named a ha p hp
    rw [hempty] at hvalid
    cases hvalid

/-! ### Each instance on its own -/

/-- **Instances are judged on their own where the failing entries of an unchanged process agree
with its last entry.** For all fleet snapshots: nothing is raised between a snapshot and itself
if and only if every failing entry is in the state of its process's last entry; and every event
of a process between two snapshots stands for an instance of it that changed if and only if the
failing entries of each process without such an instance are in the state of the process's last
entry before. -/
theorem judged_on_its_own (prev next : FleetSnapshot) (now : Int) :
    (diff next.agents next.agents now = [] ↔
      ∀ agent process, AgreesWithLast next.agents next.agents agent process) ∧
    ((∀ e ∈ diff prev.agents next.agents now, e.process ≠ "" →
        ¬ Unchanged prev.agents next.agents e.agent e.process) ↔
      ∀ agent process, Unchanged prev.agents next.agents agent process →
        AgreesWithLast prev.agents next.agents agent process) := by
  refine ⟨⟨?_, ?_⟩, ?_, ?_⟩
  · intro hnil agent process
    by_contra hnot
    obtain ⟨e, he, -⟩ := (raises_iff next next now agent process).mpr hnot
    rw [hnil] at he
    cases he
  · intro hagree
    refine List.eq_nil_iff_forall_not_mem.mpr fun e he => ?_
    exact (raises_iff next next now e.agent e.process).mp
      ⟨e, he, diff_self_process next he, rfl, rfl⟩ (hagree e.agent e.process)
  · intro hchanged agent process hsame
    by_contra hnot
    obtain ⟨e, he, hprocess, rfl, rfl⟩ := (raises_iff prev next now agent process).mpr hnot
    exact hchanged e he hprocess hsame
  · intro hagree e he hprocess hsame
    exact (raises_iff prev next now e.agent e.process).mp ⟨e, he, hprocess, rfl, rfl⟩
      (hagree e.agent e.process hsame)

/-! ### A snapshot a daemon produces -/

/-- The agents report what their daemons produce. -/
def Produced (s : FleetSnapshot) : Prop :=
  ∀ a ∈ s.agents, ∃ (as : List Daemon.Manager.Action) (srv : Daemon.Server)
    (metrics : String → Option Daemon.Sample) (rollups : String → Daemon.Rollup) (now : Int),
    Daemon.Manager.machine.run {} as = some srv.mgr ∧ a.procs = srv.fleetSnapshot metrics rollups now

/-- What one connected agent with this daemon reports, before any sample is taken. -/
def soleAgent (srv : Daemon.Server) : FleetSnapshot where
  agents := [{ agentName := "host", connected := true, lastSeenUnix := 0, agentMeta := {}, host := none,
               procs := srv.fleetSnapshot (fun _ => none) (fun _ => {}) 0 }]
  distinct := by simp
  named := by
    intro a ha
    rw [List.mem_singleton.mp ha]
    exact srv.fleetSnapshot_named (fun _ => none) (fun _ => {}) 0

theorem produced_soleAgent {srv : Daemon.Server} {as : List Daemon.Manager.Action}
    (hrun : Daemon.Manager.machine.run {} as = some srv.mgr) : Produced (soleAgent srv) := by
  intro a ha
  rw [List.mem_singleton.mp ha]
  exact ⟨as, srv, fun _ => none, fun _ => {}, 0, hrun, rfl⟩

/-- An app with two instances: the first one crashes, the second one is online. -/
def oneOfTwoCrashes : List Daemon.Manager.Action :=
  [.call (.add { name := "web", cmd := "web", instances := 2, maxRestarts := 16 }),
    .worker 0 (.spawn 1 10), .worker 0 .next, .worker 1 (.spawn 2 11), .worker 1 .next,
    .worker 0 (.childExit (some (.exit 1 "exit status 1"))), .worker 0 .reap, .worker 0 .next,
    .worker 0 .next, .worker 0 (.measure 3), .worker 0 .next, .worker 0 .next]

theorem oneOfTwoCrashes_runs :
    (Daemon.Manager.machine.run {} oneOfTwoCrashes).isSome = true := by
  decide +kernel

theorem undeployed_names : ∀ name,
    ({ deployRoot := Deploy.homeDeploys, disk := .ofDirs [] } : Deploy.Deployer).states.get name ≠ none →
      Config.validAppName name = true :=
  Daemon.fresh_names Deploy.homeDeploys (.ofDirs [])

def halfDown : Daemon.Server where
  mgr := (Daemon.Manager.machine.run {} oneOfTwoCrashes).get oneOfTwoCrashes_runs
  deployer := { deployRoot := Deploy.homeDeploys, disk := .ofDirs [] }
  appNames := by decide +kernel
  stateNames := undeployed_names

/-- The first instance is compared with the second, so its crash is reported at every tick. -/
theorem steady_crash_alerts :
    ¬ ∀ (s : FleetSnapshot) (now : Int), Produced s → diff s.agents s.agents now = [] := by
  intro h
  have hrun : Daemon.Manager.machine.run {} oneOfTwoCrashes = some halfDown.mgr :=
    (Option.some_get oneOfTwoCrashes_runs).symm
  have hnil := congrArg List.length (h (soleAgent halfDown) 0 (produced_soleAgent hrun))
  exact absurd hnil (by decide +kernel)

end Marshal.Notify
