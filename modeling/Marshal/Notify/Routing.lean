import Mathlib.Data.List.Sort
import Marshal.Duration
import Marshal.Lib.Keyed
import Marshal.Notify.Store

/-! Where an event goes.

Rules name channels. `matchChannels` works the names off rule by rule; what it finds are the
enabled channels that a matching rule names, each once (`mem_matchChannels`, `nodup_matchChannels`). -/
namespace Marshal.Notify

/-! ### Messages -/

structure Message where
  title : String
  body : String
  event : Event
deriving DecidableEq

def eventTitles : EventType → String
  | .crash => "Process crashed"
  | .restartLoop => "Process in restart loop"
  | .agentDown => "Agent disconnected"
  | .agentUp => "Agent reconnected"
  | .deployFail => "Deploy failed"
  | .recovered => "Process recovered"

/-- `d.Round(time.Second)` of a positive duration. -/
def roundSeconds (d : Int) : Int :=
  let r := d % 1000000000
  if r + r < 1000000000 then d - r else min (d + 1000000000 - r) (2 ^ 63 - 1)

def render (e : Event) : Message :=
  let who := if e.process ≠ "" then e.agent ++ " / " ++ e.process else e.agent
  if e.resolvedIn > 0 then
    let title := eventTitles e.type ++ " then recovered"
    { title := "Marshal: " ++ title ++ " (" ++ who ++ ")"
      body := "[" ++ who ++ "] " ++ title ++ ": " ++ e.detail ++ " — recovered after " ++
        Duration.text (roundSeconds e.resolvedIn)
      event := e }
  else
    let title := eventTitles e.type
    { title := "Marshal: " ++ title ++ " (" ++ who ++ ")"
      body := "[" ++ who ++ "] " ++ title ++ ": " ++ e.detail
      event := e }

/-! ### What the store tells -/

def StoredChannel.channel (name : String) (c : StoredChannel) : Channel where
  name := name
  type := c.type
  enabled := c.enabled
  config := c.config

namespace FileModel

/-- Without their secrets, in the order of their names. -/
def Channels (d : FileModel) : List Channel :=
  (d.channels.toList.map fun e => e.2.channel e.1).insertionSort fun a b => a.name ≤ b.name

def Rules (d : FileModel) : List Rule :=
  (d.rules.toList.map Prod.snd).insertionSort fun a b => a.name ≤ b.name

theorem mem_Channels {d : FileModel} {c : Channel} :
    c ∈ d.Channels ↔ ∃ sc, d.channels.get c.name = some sc ∧ sc.channel c.name = c := by
  rw [Channels, List.mem_insertionSort, List.mem_map]
  constructor
  · intro h
    obtain ⟨e, he, rfl⟩ := h
    exact ⟨e.2, (Table.mem_toList _ _ _).mp he, rfl⟩
  · intro h
    obtain ⟨sc, hget, hc⟩ := h
    exact ⟨(c.name, sc), (Table.mem_toList _ _ _).mpr hget, hc⟩

theorem nodup_Channels (d : FileModel) : (d.Channels.map Channel.name).Nodup := by
  have hperm := (List.perm_insertionSort (fun a b : Channel => a.name ≤ b.name)
    (d.channels.toList.map fun e => e.2.channel e.1)).map Channel.name
  refine hperm.nodup_iff.mpr ?_
  rw [List.map_map]
  exact d.channels.nodup_keys

theorem mem_Rules {d : FileModel} {r : Rule} : r ∈ d.Rules ↔ ∃ name, d.rules.get name = some r := by
  rw [Rules, List.mem_insertionSort, List.mem_map]
  constructor
  · intro h
    obtain ⟨e, he, rfl⟩ := h
    exact ⟨e.1, (Table.mem_toList _ _ _).mp he⟩
  · intro h
    obtain ⟨name, hget⟩ := h
    exact ⟨(name, r), (Table.mem_toList _ _ _).mpr hget, rfl⟩

/-- What the box makes of the channel's sealed secrets. A channel that is gone has none, and that is no error. -/
def ChannelSecrets (d : FileModel) (openBox : String → String → Option (Table String String)) (name : String) :
    Option (Table String String × Bool) :=
  match d.channels.get name with
  | none => some (∅, false)
  | some c =>
    if c.secretCipher = "" then some (∅, true)
    else (openBox c.secretNonce c.secretCipher).map fun secrets => (secrets, true)

end FileModel

/-! ### Matching -/

def Rule.Matches (r : Rule) (e : Event) : Bool :=
  r.enabled && (r.events.isEmpty || r.events.contains e.type) &&
    (r.agent == "" || r.agent == "*" || r.agent == e.agent) &&
    (r.process == "" || r.process == "*" || r.process == e.process)

/-- One name of a matching rule; the names taken so far and their channels. -/
def route (byName : Table String Channel) (acc : List String × List Channel) (name : String) :
    List String × List Channel :=
  if name ∈ acc.1 then acc
  else match byName.get name with
    | none => acc
    | some c => if !c.enabled then acc else (acc.1 ++ [name], acc.2 ++ [c])

def byName (channels : List Channel) : Table String Channel := channels.foldl (fun t c => t.set c.name c) ∅

/-- The deduplicated, enabled channels for an event. -/
def matchChannels (channels : List Channel) (rules : List Rule) (e : Event) : List Channel :=
  (rules.foldl (fun acc r => if !r.Matches e then acc else r.channels.foldl (route (byName channels)) acc) ([], [])).2

/-- The names that the rules for an event bring up, in turn. -/
def named (rules : List Rule) (e : Event) : List String := (rules.filter (·.Matches e)).flatMap Rule.channels

theorem mem_named {rules : List Rule} {e : Event} {name : String} :
    name ∈ named rules e ↔ ∃ r ∈ rules, r.Matches e = true ∧ name ∈ r.channels := by
  simp only [named, List.mem_flatMap, List.mem_filter, and_assoc]

theorem matchChannels_eq (channels : List Channel) (rules : List Rule) (e : Event) :
    matchChannels channels rules e = ((named rules e).foldl (route (byName channels)) ([], [])).2 := by
  rw [matchChannels]
  generalize (([], []) : List String × List Channel) = acc
  refine congrArg Prod.snd ?_
  induction rules generalizing acc with
  | nil => rfl
  | cons r rest ih =>
    rw [List.foldl_cons, ih]
    cases hmatch : r.Matches e with
    | false => simp [named, hmatch]
    | true => simp [named, hmatch, List.foldl_append]

/-- What was taken of the names so far. -/
structure Taken (table : Table String Channel) (names : List String) (acc : List String × List Channel) : Prop where
  seen : acc.2.map Channel.name = acc.1
  nodup : acc.1.Nodup
  mem : ∀ c, c ∈ acc.2 ↔ c.name ∈ names ∧ table.get c.name = some c ∧ c.enabled = true

theorem Taken.route {table : Table String Channel} (hkeyed : ∀ name c, table.get name = some c → c.name = name)
    {names : List String} {acc : List String × List Channel} (h : Taken table names acc) (name : String) :
    Taken table (names ++ [name]) (route table acc name) := by
  -- a name that brings nothing new
  have hskip : (∀ c, c.name = name → table.get c.name = some c → c.enabled = true → c ∈ acc.2) →
      Taken table (names ++ [name]) acc := by
    intro hold
    refine ⟨h.seen, h.nodup, fun c => ?_⟩
    rw [List.mem_append, List.mem_singleton, h.mem]
    constructor
    · intro hc
      exact ⟨.inl hc.1, hc.2⟩
    · intro hc
      obtain ⟨hname, hget, hon⟩ := hc
      rcases hname with hname | hname
      · exact ⟨hname, hget, hon⟩
      · exact (h.mem c).mp (hold c hname hget hon)
  unfold Notify.route
  split
  · rename_i hseen
    refine hskip fun c hc hget hon => ?_
    rw [← h.seen, List.mem_map] at hseen
    obtain ⟨d, hd, hname⟩ := hseen
    have hgot := ((h.mem d).mp hd).2.1
    rw [hname, ← hc, hget, Option.some.injEq] at hgot
    rwa [hgot]
  · rename_i hnew
    split
    · rename_i hnone
      refine hskip fun c hc hget _ => ?_
      rw [hc, hnone] at hget
      cases hget
    · rename_i d hget
      have hname : d.name = name := hkeyed name d hget
      split
      · rename_i hoff
        refine hskip fun c hc hgot hon => ?_
        rw [hc, hget, Option.some.injEq] at hgot
        rw [hgot, hon] at hoff
        cases hoff
      · rename_i hon
        rw [Bool.not_eq_true, Bool.not_eq_false'] at hon
        refine ⟨by simp [h.seen, hname], ?_, fun c => ?_⟩
        · rw [List.nodup_append]
          refine ⟨h.nodup, List.nodup_singleton _, fun a ha b hb => ?_⟩
          rw [List.mem_singleton.mp hb]
          exact fun heq => hnew (heq ▸ ha)
        · simp only [List.mem_append, List.mem_singleton, h.mem]
          constructor
          · intro hc
            rcases hc with hc | rfl
            · exact ⟨.inl hc.1, hc.2⟩
            · exact ⟨.inr hname, hname ▸ hget, hon⟩
          · intro hc
            obtain ⟨hmem, hgot, hon⟩ := hc
            rcases hmem with hmem | hmem
            · exact .inl ⟨hmem, hgot, hon⟩
            · rw [hmem, hget, Option.some.injEq] at hgot
              exact .inr hgot.symm

theorem taken_all {table : Table String Channel} (hkeyed : ∀ name c, table.get name = some c → c.name = name)
    (names : List String) : Taken table names (names.foldl (route table) ([], [])) := by
  induction names using List.reverseRecOn with
  | nil => exact ⟨rfl, List.nodup_nil, fun c => by simp⟩
  | append_singleton names name ih =>
    rw [List.foldl_concat]
    exact ih.route hkeyed name

theorem get_byName {channels : List Channel} (hnodup : (channels.map Channel.name).Nodup) (name : String) (c : Channel) :
    (byName channels).get name = some c ↔ c ∈ channels ∧ c.name = name := by
  rw [byName, Keyed.get_foldl_set (fun c => c) hnodup]
  constructor
  · intro h
    obtain ⟨d, hd, hname, rfl⟩ := h
    exact ⟨hd, hname⟩
  · intro h
    exact ⟨c, h.1, h.2, rfl⟩

section Matching
variable {channels : List Channel} (hnodup : (channels.map Channel.name).Nodup) (rules : List Rule) (e : Event)
include hnodup

theorem taken_matchChannels :
    ∃ seen, Taken (byName channels) (named rules e) (seen, matchChannels channels rules e) := by
  have h := taken_all (fun name c hget => ((get_byName hnodup name c).mp hget).2) (named rules e)
  exact ⟨_, by rw [matchChannels_eq]; exact h⟩

theorem mem_matchChannels {c : Channel} : c ∈ matchChannels channels rules e ↔
    c ∈ channels ∧ c.enabled = true ∧ ∃ r ∈ rules, r.Matches e = true ∧ c.name ∈ r.channels := by
  obtain ⟨seen, htaken⟩ := taken_matchChannels hnodup rules e
  rw [htaken.mem c, get_byName hnodup, mem_named]
  constructor
  · intro h
    exact ⟨h.2.1.1, h.2.2, h.1⟩
  · intro h
    exact ⟨h.2.2, ⟨h.1, rfl⟩, h.2.1⟩

theorem nodup_matchChannels : ((matchChannels channels rules e).map Channel.name).Nodup := by
  obtain ⟨seen, htaken⟩ := taken_matchChannels hnodup rules e
  rw [htaken.seen]
  exact htaken.nodup

end Matching
end Marshal.Notify
