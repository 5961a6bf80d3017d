import Mathlib.Data.List.Chain
import Marshal.Lib.Cooldown
import Marshal.Lib.Separator
import Marshal.Notify.Model
import Marshal.Server.Registry

/-! The dispatcher's cooldown.

An event is let through unless one of its agent, process and type was let through less
than its type's cooldown ago. Each event let through sweeps the table of the entries
that are past theirs; events are let through just as without it
(`pruning_changes_nothing`). -/
namespace Marshal.Notify
open Server

/-! ### The gate -/

/-- When a key last fired, and its type. -/
abbrev CooldownEntry := Cooldown.Entry EventType

def cooldownKey (e : Event) : String := e.agent ++ "\x00" ++ e.process ++ "\x00" ++ e.type.text

abbrev LastSent := Table String CooldownEntry

/-- Entries whose age has reached their type's cooldown are dropped. -/
def pruneLocked (last : LastSent) (s : Settings) (now : Int) : LastSent :=
  last.discard fun _ e => s.cooldownFor e.kind ≤ timeSub now e.time

/-- The dispatcher's gate, and with `pruned = false` the same without the sweep. -/
def allow (pruned : Bool) (last : LastSent) (e : Event) (s : Settings) (now : Int) :
    LastSent × Bool :=
  let waits := match last.get (cooldownKey e) with
    | some entry => decide (timeSub now entry.time < s.cooldownFor e.type)
    | none => false
  if waits then (last, false)
  else
    let last := last.set (cooldownKey e) ⟨now, e.type⟩
    (if pruned then pruneLocked last s now else last, true)

/-- An event with the settings and the clock it meets. -/
structure Emission where
  event : Event
  settings : Settings
  now : Int

/-- The events in turn, each with whether it was let through. -/
def allowed (pruned : Bool) (last : LastSent) : List Emission → List (Emission × Bool)
  | [] => []
  | x :: rest =>
    let r := allow pruned last x.event x.settings x.now
    (x, r.2) :: allowed pruned r.1 rest

/-! ### As a cooldown gate -/

def timeAge : Cooldown.Age where
  age := timeSub
  later now now' time h := by
    unfold timeSub
    omega
  older now time time' h := by
    unfold timeSub
    omega

def arrival (x : Emission) : Cooldown.Arrival String EventType :=
  ⟨cooldownKey x.event, x.event.type, x.now, x.settings.cooldownFor⟩

/-- What the gate does after an event it let through. -/
def sweep (pruned : Bool) :
    LastSent → Cooldown.Arrival String EventType → LastSent :=
  if pruned then Cooldown.sweeping timeAge else Cooldown.keeping

theorem allow_eq (pruned : Bool) (last : LastSent) (x : Emission) :
    allow pruned last x.event x.settings x.now =
      Cooldown.decideWith timeAge (sweep pruned) last (arrival x) := by
  unfold allow Cooldown.decideWith Cooldown.blocked
  have hkey : (arrival x).key = cooldownKey x.event := rfl
  cases hget : last.get (cooldownKey x.event) with
  | none =>
    rw [hkey, hget]
    cases pruned <;> rfl
  | some e =>
    rw [hkey, hget]
    cases pruned <;> rfl

theorem allowed_outcomes (pruned : Bool) (last : LastSent) (xs : List Emission) :
    (allowed pruned last xs).map (fun y => (arrival y.1, y.2)) =
      Cooldown.outcomes timeAge (sweep pruned) last (xs.map arrival) := by
  induction xs generalizing last with
  | nil => rfl
  | cons x rest ih =>
    simp only [allowed, List.map_cons, Cooldown.outcomes, ← allow_eq, ih]

theorem allowed_fst (pruned : Bool) (last : LastSent) (xs : List Emission) :
    (allowed pruned last xs).map Prod.fst = xs := by
  induction xs generalizing last with
  | nil => rfl
  | cons x rest ih => simp only [allowed, List.map_cons, ih]

/-! ### A key is of one type -/

theorem text_no_nul (t : EventType) : '\x00' ∉ t.text.toList := by
  cases t <;> decide

theorem text_injective : Function.Injective EventType.text := by
  intro t u h
  cases t <;> cases u <;> first | rfl | exact absurd h (by decide)

theorem type_of_key {e e' : Event} (h : cooldownKey e = cooldownKey e') : e.type = e'.type :=
  text_injective (Separator.append_inj rfl (text_no_nul _) (text_no_nul _) h).2

theorem typed_arrivals (xs : List Emission) : Cooldown.Typed (xs.map arrival) := by
  intro a ha b hb hkey
  obtain ⟨x, -, rfl⟩ := List.mem_map.mp ha
  obtain ⟨y, -, rfl⟩ := List.mem_map.mp hb
  exact type_of_key hkey

/-! ### Pruning -/

/-- The clock does not go back and no type's cooldown is raised. -/
def Steady (xs : List Emission) : Prop :=
  xs.IsChain fun x y => x.now ≤ y.now ∧
    ∀ t, y.settings.cooldownFor t ≤ x.settings.cooldownFor t

theorem Steady.clock {xs : List Emission} (h : Steady xs) :
    (xs.map arrival).Pairwise fun a b => a.now ≤ b.now := by
  have hchain : (xs.map arrival).IsChain fun a b => a.now ≤ b.now :=
    (List.isChain_map arrival).mpr (h.imp fun _ _ hxy => hxy.1)
  have : IsTrans (Cooldown.Arrival String EventType) fun a b => a.now ≤ b.now :=
    ⟨fun _ _ _ => Int.le_trans⟩
  exact hchain.pairwise

theorem Steady.follows {xs : List Emission} (h : Steady xs) :
    (xs.map arrival).IsChain Cooldown.Follows :=
  (List.isChain_map arrival).mpr h

theorem le_timeSub {secs now time : Int} (hle : time ≤ now)
    (h : seconds secs ≤ timeSub now time) : seconds secs ≤ now - time := by
  unfold timeSub at h
  omega

theorem timeSub_lt {secs now time : Int} (h : timeSub now time < seconds secs) :
    now - time < seconds secs := by
  have hlt := seconds_lt secs
  unfold timeSub at h
  omega

/-- What was let through before `y` with `y`'s key stands a cooldown away if `y` was let through,
and some of it within one if `y` was not. -/
structure Distance (before : List (Emission × Bool)) (y : Emission × Bool) : Prop where
  apart : y.2 = true → ∀ x ∈ before, x.2 = true → cooldownKey x.1.event = cooldownKey y.1.event →
    y.1.settings.cooldownFor y.1.event.type ≤ y.1.now - x.1.now
  near : y.2 = false → ∃ x ∈ before, x.2 = true ∧ x.1.event.type = y.1.event.type ∧
    cooldownKey x.1.event = cooldownKey y.1.event ∧ 0 ≤ y.1.now - x.1.now ∧
    y.1.now - x.1.now < y.1.settings.cooldownFor y.1.event.type

theorem Steady.earlier {xs : List Emission} (h : Steady xs) {pruned : Bool}
    {before after : List (Emission × Bool)} {y : Emission × Bool}
    (hsplit : allowed pruned ∅ xs = before ++ y :: after) : ∀ x ∈ before, x.1.now ≤ y.1.now := by
  intro x hx
  have hclock := List.pairwise_map.mp h.clock
  rw [← allowed_fst pruned ∅ xs, hsplit, List.pairwise_map] at hclock
  exact (List.pairwise_append.mp hclock).2.2 x hx y List.mem_cons_self

theorem allowed_distance {xs : List Emission} (h : Steady xs)
    {before after : List (Emission × Bool)} {y : Emission × Bool}
    (hsplit : allowed false ∅ xs = before ++ y :: after) : Distance before y := by
  have hearlier := h.earlier hsplit
  have houtcomes := allowed_outcomes false ∅ xs
  rw [hsplit, List.map_append, List.map_cons] at houtcomes
  have hspaced := Cooldown.spaced h.clock houtcomes.symm
  refine ⟨fun hout x hx hxout hkey => ?_, fun hout => ?_⟩
  · have hfar := hspaced.apart hout (arrival x.1, x.2) (List.mem_map_of_mem hx) hxout hkey
    exact le_timeSub (hearlier x hx) hfar
  · obtain ⟨_, hmem, hxout, hkey, hclose⟩ := hspaced.near hout
    obtain ⟨x, hx, rfl⟩ := List.mem_map.mp hmem
    exact ⟨x, hx, hxout, type_of_key hkey, hkey, Int.sub_nonneg_of_le (hearlier x hx),
      timeSub_lt hclose⟩

theorem allowed_pruned {xs : List Emission} (h : Steady xs) :
    allowed true ∅ xs = allowed false ∅ xs := by
  have hsame := Cooldown.outcomes_sweeping h.follows (typed_arrivals xs) (A := timeAge)
  have htrue := allowed_outcomes true ∅ xs
  have hfalse := allowed_outcomes false ∅ xs
  have hbits : (allowed true ∅ xs).map Prod.snd = (allowed false ∅ xs).map Prod.snd := by
    have := congrArg (List.map Prod.snd) (htrue.trans (hsame.trans hfalse.symm))
    simpa [List.map_map, Function.comp_def] using this
  have hevents := (allowed_fst true ∅ xs).trans (allowed_fst false ∅ xs).symm
  rw [← List.zip_unzip (allowed true ∅ xs), ← List.zip_unzip (allowed false ∅ xs)]
  simp only [List.unzip_eq_map, hbits, hevents]

/-- **Pruning changes nothing but memory: while the clock does not go back and no cooldown is
raised, the same events are let through with it and without it, those of one key at least a
cooldown apart, and an event is turned away only within the cooldown of one let through.** -/
theorem pruning_changes_nothing (xs : List Emission) (h : Steady xs) :
    allowed true ∅ xs = allowed false ∅ xs ∧
    ∀ before y after, allowed true ∅ xs = before ++ y :: after → Distance before y := by
  refine ⟨allowed_pruned h, fun before y after hsplit => ?_⟩
  rw [allowed_pruned h] at hsplit
  exact allowed_distance h hsplit

/-- Crashes of two agents, the first one again within the cooldown and again after it. -/
def fourCrashes : List Emission :=
  let s : Settings := { cooldownSeconds := 300 }
  let crash agent now : Emission := ⟨{ type := .crash, agent, process := "api", time := now }, s, now⟩
  [crash "dev-1" 0, crash "dev-1" (100 * 1000000000), crash "dev-2" (301 * 1000000000),
    crash "dev-1" (302 * 1000000000)]

theorem fourCrashes_steady : Steady fourCrashes := by
  simp [Steady, fourCrashes]

theorem fourCrashes_allowed :
    (allowed true ∅ fourCrashes).map Prod.snd = [true, false, true, true] := by
  decide

theorem pruning_fourCrashes :
    Steady fourCrashes ∧ (allowed true ∅ fourCrashes).map Prod.snd = [true, false, true, true] ∧
    allowed true ∅ fourCrashes = allowed false ∅ fourCrashes ∧
    ∀ before y after, allowed true ∅ fourCrashes = before ++ y :: after → Distance before y :=
  ⟨fourCrashes_steady, fourCrashes_allowed, pruning_changes_nothing _ fourCrashes_steady⟩

end Marshal.Notify
