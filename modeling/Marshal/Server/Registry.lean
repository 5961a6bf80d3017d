import Mathlib.Algebra.Group.Int.Defs
import Marshal.Lib.Table
import Marshal.Proto

/-! The registry of connected agents and their last-known state.

Times are nanoseconds since the zero `Time`; the clock is an argument. -/
namespace Marshal.Server
open Proto

/-- Host metadata captured on `Hello`. -/
structure AgentMeta where
  hostname : String := ""
  ip : String := ""
  os : String := ""
  arch : String := ""
  marshalVersion : String := ""
  hostBootUnix : Int := 0
deriving DecidableEq

structure AgentEntry where
  procs : List ProcInfo := []
  streamOpen : Bool := false
  lastSeen : Int := 0
  agentMeta : AgentMeta := {}
  host : Option HostMetrics := none
deriving DecidableEq

/-- An agent as `List` reports it. -/
structure AgentState where
  agentName : String
  connected : Bool
  lastSeenUnix : Int
  procs : List ProcInfo
  agentMeta : AgentMeta
  host : Option HostMetrics
deriving DecidableEq

/-- `t.Sub(u)`: a duration saturates at 64 bits. -/
def timeSub (t u : Int) : Int := max (-2 ^ 63) (min (t - u) (2 ^ 63 - 1))

/-- `t.Unix()`. -/
def unixSeconds (t : Int) : Int := t.fdiv 1000000000 - 62135596800

structure Registry where
  agents : Table String AgentEntry := ∅
  offlineAfter : Int := 10 * 1000000000
deriving DecidableEq

namespace Registry

def entry (r : Registry) (name : String) : AgentEntry := (r.agents.get name).getD {}

def setEntry (r : Registry) (name : String) (e : AgentEntry) : Registry :=
  { r with agents := r.agents.set name e }

/-- `Open`, called on `Hello`. -/
def openStream (r : Registry) (name : String) (now : Int) : Registry :=
  r.setEntry name { r.entry name with streamOpen := true, lastSeen := now }

def update (r : Registry) (name : String) (procs : List ProcInfo) (host : Option HostMetrics)
    (now : Int) : Registry :=
  r.setEntry name { r.entry name with procs := procs, host := host, streamOpen := true, lastSeen := now }

/-- Mark the stream closed; the last snapshot is retained. -/
def close (r : Registry) (name : String) : Registry :=
  match r.agents.get name with
  | none => r
  | some e => r.setEntry name { e with streamOpen := false }

def setMeta (r : Registry) (name : String) (m : AgentMeta) : Registry :=
  r.setEntry name { r.entry name with agentMeta := m }

/-- Drop the agents whose stream is closed and that were last seen before `cutoff`. -/
def evict (r : Registry) (cutoff : Int) : Registry :=
  let stale := r.agents.toList.filter fun p => !p.2.streamOpen && p.2.lastSeen < cutoff
  { r with agents := stale.foldl (fun agents p => agents.del p.1) r.agents }

def connected (r : Registry) (now : Int) (e : AgentEntry) : Bool :=
  e.streamOpen && timeSub now e.lastSeen ≤ r.offlineAfter

/-- Every known agent with its connected flag. -/
def list (r : Registry) (now : Int) : List AgentState :=
  r.agents.toList.map fun p =>
    { agentName := p.1
      connected := r.connected now p.2
      lastSeenUnix := unixSeconds p.2.lastSeen
      procs := p.2.procs
      agentMeta := p.2.agentMeta
      host := p.2.host }

/-! ### What the operations do to an entry -/

theorem get_setEntry (r : Registry) (name n : String) (e : AgentEntry) :
    (r.setEntry name e).agents.get n = if n = name then some e else r.agents.get n :=
  Table.get_set r.agents name n e

theorem get_close (r : Registry) (name n : String) :
    (r.close name).agents.get n =
      if n = name then (r.agents.get n).map fun e => { e with streamOpen := false }
      else r.agents.get n := by
  unfold close
  split
  · next h =>
    split
    · next hn => rw [hn, h, Option.map_none]
    · rfl
  · next e h =>
    rw [get_setEntry]
    split
    · next hn => rw [hn, h, Option.map_some]
    · rfl

theorem close_offlineAfter (r : Registry) (name : String) : (r.close name).offlineAfter = r.offlineAfter := by
  unfold close
  split <;> rfl

/-- `SetMeta` keeps when an agent was seen and whether its stream is open. -/
theorem get_setMeta {r : Registry} {name n : String} {m : AgentMeta} {e : AgentEntry}
    (h : r.agents.get n = some e) : ∃ e', (r.setMeta name m).agents.get n = some e' ∧
      e'.streamOpen = e.streamOpen ∧ e'.lastSeen = e.lastSeen := by
  rw [setMeta, get_setEntry]
  split
  · next hn => exact ⟨_, rfl, by rw [entry, ← hn, h]; rfl, by rw [entry, ← hn, h]; rfl⟩
  · exact ⟨e, h, rfl, rfl⟩

/-- An entry open after `SetMeta` was open before. -/
theorem get_setMeta_back {r : Registry} {name n : String} {m : AgentMeta} {e : AgentEntry}
    (h : (r.setMeta name m).agents.get n = some e) (hopen : e.streamOpen = true) :
    ∃ e', r.agents.get n = some e' ∧ e'.streamOpen = true ∧ e'.lastSeen = e.lastSeen := by
  rw [setMeta, get_setEntry] at h
  split at h
  · next hn =>
    obtain rfl := Option.some.inj h
    subst hn
    cases hget : r.agents.get n with
    | none => simp [entry, hget] at hopen
    | some e' =>
      simp only [entry, hget, Option.getD_some] at hopen ⊢
      exact ⟨e', rfl, hopen, rfl⟩
  · exact ⟨e, h, hopen, rfl⟩

theorem get_foldl_del (ps : List (String × AgentEntry)) (agents : Table String AgentEntry) (n : String) :
    (ps.foldl (fun agents p => agents.del p.1) agents).get n =
      if n ∈ ps.map Prod.fst then none else agents.get n := by
  rw [← Table.get_foldl_del, List.foldl_map]

/-- An agent whose stream is open is never evicted. -/
theorem get_evict (r : Registry) (cutoff : Int) (n : String) :
    (r.evict cutoff).agents.get n =
      (r.agents.get n).filter fun e => e.streamOpen || decide (cutoff ≤ e.lastSeen) := by
  have hmem : n ∈ (r.agents.toList.filter fun p => !p.2.streamOpen && p.2.lastSeen < cutoff).map Prod.fst ↔
      ∃ e, r.agents.get n = some e ∧ e.streamOpen = false ∧ e.lastSeen < cutoff := by
    simp only [List.mem_map, List.mem_filter]
    constructor
    · rintro ⟨p, ⟨hp, hcond⟩, rfl⟩
      refine ⟨p.2, (Table.mem_toList _ _ _).mp hp, ?_⟩
      simpa using hcond
    · rintro ⟨e, he, hopen, hlast⟩
      exact ⟨(n, e), ⟨(Table.mem_toList _ _ _).mpr he, by simp [hopen, hlast]⟩, rfl⟩
  rw [evict, get_foldl_del]
  simp only [hmem]
  cases hget : r.agents.get n with
  | none => simp
  | some e =>
    by_cases hcond : e.streamOpen = false ∧ e.lastSeen < cutoff
    · rw [if_pos ⟨e, rfl, hcond⟩, Option.filter_some_neg]
      simp [hcond.1, hcond.2]
    · rw [if_neg, Option.filter_some_pos]
      · cases hopen : e.streamOpen with
        | true => rfl
        | false => simpa [hopen] using hcond
      · rintro ⟨e', he', hcond'⟩
        obtain rfl := Option.some.inj he'
        exact hcond hcond'

/-- `List` reports an agent connected exactly when its entry is open and fresh. -/
theorem list_connected (r : Registry) (now : Int) (n : String) :
    (∃ a ∈ r.list now, a.agentName = n ∧ a.connected = true) ↔
      ∃ e, r.agents.get n = some e ∧ r.connected now e = true := by
  simp only [list, List.mem_map]
  constructor
  · rintro ⟨a, ⟨p, hp, rfl⟩, rfl, hconn⟩
    exact ⟨p.2, (Table.mem_toList _ _ _).mp hp, hconn⟩
  · rintro ⟨e, he, hconn⟩
    exact ⟨_, ⟨(n, e), (Table.mem_toList _ _ _).mpr he, rfl⟩, rfl, hconn⟩

end Registry

end Marshal.Server
