import Marshal.Lib.System
import Marshal.Notify.Dispatcher

/-! Cooldowns that are raised while the dispatcher runs.

The dispatcher's gate is run beside the one without the sweep, over the same events. A
swept key whose cooldown is raised may fire once too early. That starts its cooldown
anew, so that an alert the gate without the sweep would let through can then be held back:
the sweep is harmless until a key fires early, and no longer (`over_notifies_until_early`). -/
namespace Marshal.Notify
open Transition Server

/-! ### Two gates side by side -/

structure Gates where
  now : Int
  /-- The table of the gate that sweeps. -/
  pruned : LastSent := ∅
  /-- The table of the gate that does not. -/
  full : LastSent := ∅

/-- Both gates meet each event; the clock does not go back. -/
def gates : System Gates Emission where
  init g := g.pruned = ∅ ∧ g.full = ∅
  step g x :=
    if g.now ≤ x.now then
      some ⟨x.now, (allow true g.pruned x.event x.settings x.now).1,
        (allow false g.full x.event x.settings x.now).1⟩
    else none

/-- The gate that sweeps lets the event through if the other one does. -/
def OverNotifies (g : Gates) (x : Emission) : Prop :=
  (allow false g.full x.event x.settings x.now).2 = true →
    (allow true g.pruned x.event x.settings x.now).2 = true

/-- The event's key was swept, and the cooldown now in force since it last fired is not over. -/
def Refires (g : Gates) (x : Emission) : Prop :=
  g.pruned.get (cooldownKey x.event) = none ∧
    ∃ e ∈ g.full.get (cooldownKey x.event),
      e.time < x.now ∧ timeSub x.now e.time < x.settings.cooldownFor x.event.type

instance (g : Gates) (x : Emission) : Decidable (OverNotifies g x) :=
  inferInstanceAs (Decidable (_ → _))

instance (g : Gates) (x : Emission) : Decidable (Refires g x) :=
  inferInstanceAs (Decidable (_ ∧ _))

theorem gates_step {g g' : Gates} {x : Emission} (h : gates.step g x = some g') :
    g.now ≤ x.now ∧ g'.now = x.now ∧
      g'.pruned = (Cooldown.decideWith timeAge (Cooldown.sweeping timeAge) g.pruned (arrival x)).1 ∧
      g'.full = (Cooldown.decideWith timeAge Cooldown.keeping g.full (arrival x)).1 := by
  simp only [gates, Option.ite_none_right_eq_some, Option.some.injEq] at h
  obtain ⟨hnow, rfl⟩ := h
  refine ⟨hnow, rfl, ?_, ?_⟩
  · exact congrArg Prod.fst (allow_eq true g.pruned x)
  · exact congrArg Prod.fst (allow_eq false g.full x)

theorem refires_iff (g : Gates) (x : Emission) :
    Refires g x ↔ Cooldown.Early timeAge g.pruned g.full (arrival x) := Iff.rfl

/-! ### While no key fires early -/

/-- The sweep has changed no time on record, and the records are from the past. -/
structure Behind (g : Gates) : Prop where
  agree : Cooldown.Agree g.pruned g.full
  past : ∀ k e, g.full.get k = some e → e.time ≤ g.now

theorem behind_init {g : Gates} (h : gates.init g) : Behind g := by
  obtain ⟨hpruned, hfull⟩ := h
  refine ⟨?_, ?_⟩
  · rw [hpruned, hfull]
    exact Cooldown.agree_empty
  · intro k e hget
    rw [hfull] at hget
    cases hget

theorem Behind.over {g : Gates} (h : Behind g) (x : Emission) : OverNotifies g x := by
  intro hout
  rw [allow_eq] at hout ⊢
  exact h.agree.over hout

theorem past_step {g g' : Gates} {x : Emission}
    (hpast : ∀ k e, g.full.get k = some e → e.time ≤ g.now) (hstep : gates.step g x = some g') :
    ∀ k e, g'.full.get k = some e → e.time ≤ g'.now := by
  obtain ⟨hnow, hnow', -, hfull⟩ := gates_step hstep
  intro k e hget
  rw [hnow']
  rw [hfull] at hget
  unfold Cooldown.decideWith at hget
  split at hget
  · exact Int.le_trans (hpast k e hget) hnow
  · have hget : (g.full.set (arrival x).key ⟨x.now, x.event.type⟩).get k = some e := hget
    rw [Table.get_set] at hget
    split at hget
    · cases hget
      exact Int.le_refl _
    · exact Int.le_trans (hpast k e hget) hnow

theorem behind_step {g g' : Gates} {x : Emission} (hearly : ¬ Refires g x) (h : Behind g)
    (hstep : gates.step g x = some g') : Behind g' := by
  refine ⟨?_, past_step h.past hstep⟩
  obtain ⟨hnow, -, hpruned, hfull⟩ := gates_step hstep
  rw [hpruned, hfull]
  exact Cooldown.agree_decide h.agree (fun e hget => Int.le_trans (h.past _ e hget) hnow)
    (fun hmeet => hearly ((refires_iff g x).mpr hmeet))

/-! ### After a key fired early -/

theorem timeSub_self (t : Int) : timeSub t t = 0 := by
  unfold timeSub
  omega

theorem cooldownFor_lt (s : Settings) (t : EventType) : s.cooldownFor t < 2 ^ 63 :=
  seconds_lt _

theorem timeSub_add {c : Int} (t : Int) (hpos : 0 < c) (hlt : c < 2 ^ 63) : timeSub (t + c) t = c := by
  unfold timeSub
  omega

theorem timeSub_add_lt {t u c : Int} (h : t < u) (hpos : 0 < c) : timeSub (t + c) u < c := by
  unfold timeSub
  omega

/-- The same event when the cooldown is over that the gate without the sweep is counting. -/
def overdue (x : Emission) (fired : Int) : Emission :=
  { x with now := fired + x.settings.cooldownFor x.event.type }

theorem refires_breaks {g g' : Gates} {x : Emission} (hearly : Refires g x)
    (hstep : gates.step g x = some g') :
    ∃ y : Emission, g'.now ≤ y.now ∧ ¬ OverNotifies g' y := by
  obtain ⟨-, hnow', hpruned, hfull⟩ := gates_step hstep
  obtain ⟨hgone, e, hget, hbefore, hclose⟩ := hearly
  have hge : 0 ≤ timeSub x.now e.time := by
    unfold timeSub
    omega
  have hpos : 0 < x.settings.cooldownFor x.event.type := Int.lt_of_le_of_lt hge hclose
  have hsoon : x.now - e.time < x.settings.cooldownFor x.event.type := timeSub_lt hclose
  have hfresh : timeAge.age x.now x.now < x.settings.cooldownFor x.event.type := by
    show timeSub x.now x.now < _
    rw [timeSub_self]
    exact hpos
  obtain ⟨hset, hsame⟩ := Cooldown.early_decide (A := timeAge) (a := arrival x)
    ⟨hgone, e, hget, hbefore, hclose⟩ hfresh
  refine ⟨overdue x e.time, ?_, ?_⟩
  · show g'.now ≤ e.time + _
    omega
  · intro hover
    have hfree : (allow false g'.full (overdue x e.time).event (overdue x e.time).settings
        (overdue x e.time).now).2 = true := by
      rw [allow_eq, Cooldown.decideWith_snd, hfull, hsame]
      have hmeets := timeSub_add e.time hpos (cooldownFor_lt _ _)
      simp only [Cooldown.blocked]
      rw [show g.full.get (arrival (overdue x e.time)).key = some e from hget]
      show (!decide (timeSub (e.time + _) e.time < _)) = true
      rw [hmeets]
      simp [overdue, arrival]
    have hheld : (allow true g'.pruned (overdue x e.time).event (overdue x e.time).settings
        (overdue x e.time).now).2 = false := by
      rw [allow_eq, Cooldown.decideWith_snd, hpruned]
      have hwaits := timeSub_add_lt hbefore hpos
      simp only [Cooldown.blocked]
      rw [show Table.get _ (arrival (overdue x e.time)).key = _ from hset]
      show (!decide (timeSub (e.time + _) x.now < _)) = false
      simp only [overdue, arrival, hwaits, decide_true, Bool.not_true]
    rw [hover hfree] at hheld
    cases hheld

/-! ### The sweep notifies more -/

/-- Whatever event comes next, it is not held back by the sweep. -/
def Harmless (g : Gates) : Prop := ∀ x : Emission, g.now ≤ x.now → OverNotifies g x

/-- **The sweep can only notify more as long as no key fires early: in a run without an early
firing each event that the gate without the sweep lets through is let through. And no longer:
after one, the same event would be held back at the end of the cooldown that without the sweep
it waits for.** -/
theorem over_notifies_until_early (g u : Gates) (xs : List Emission) (hinit : gates.init g)
    (hrun : gates.run g xs = some u) :
    (gates.Along (fun g x => ¬ Refires g x) g xs → gates.Along OverNotifies g xs) ∧
    (gates.Along (fun g x => ¬ Refires g x) g xs ↔
      ∀ before after v, xs = before ++ after → gates.run g before = some v → Harmless v) := by
  have hiff := gates.along_iff (C := fun g x => ¬ Refires g x) (I := Behind) (P := Harmless)
    (fun g h x _ => h.over x) (fun g x g' hC hI hstep => behind_step hC hI hstep)
    (fun g x g' hC _ hstep hharm => by
      obtain ⟨y, hnow, hnot⟩ := refires_breaks (not_not.mp hC) hstep
      exact hnot (hharm y hnow))
    (behind_init hinit) hrun
  refine ⟨fun hrule => ?_, hiff.symm⟩
  exact gates.along_imp (fun g x g' hC hI hstep => behind_step hC hI hstep)
    (fun g x _ hI => hI.over x) (behind_init hinit) hrule

/-- Crashes with the cooldown in force, in seconds, and the second they happen at. -/
def crashes (xs : List (String × Int × Int)) : List Emission :=
  xs.map fun x =>
    ⟨{ type := .crash, agent := "dev-1", process := x.1, time := x.2.2 * 1000000000 },
      { cooldownSeconds := x.2.1 }, x.2.2 * 1000000000⟩

/-- The API's cooldown is over, and it is swept, before the cooldown is raised. -/
theorem over_notifies_raised :
    gates.Along (fun g x => ¬ Refires g x) ⟨0, ∅, ∅⟩
      (crashes [("api", 10, 0), ("db", 10, 20), ("api", 300, 400)]) ∧
    gates.Along OverNotifies ⟨0, ∅, ∅⟩ (crashes [("api", 10, 0), ("db", 10, 20), ("api", 300, 400)]) :=
  have hquiet : gates.Along (fun g x => ¬ Refires g x) ⟨0, ∅, ∅⟩
      (crashes [("api", 10, 0), ("db", 10, 20), ("api", 300, 400)]) := by decide
  ⟨hquiet, (over_notifies_until_early ⟨0, ∅, ∅⟩ _ _ ⟨rfl, rfl⟩ rfl).1 hquiet⟩

/-- While the cooldown is ten seconds the API is swept, so that its second crash is let through
early; its third is then held back, which without the sweep would be let through. -/
theorem raised_suppresses :
    (gates.run ⟨0, ∅, ∅⟩
      (crashes [("api", 300, 0), ("db", 10, 20), ("api", 300, 100), ("api", 300, 300)])).isSome = true ∧
    ¬ gates.Along OverNotifies ⟨0, ∅, ∅⟩
      (crashes [("api", 300, 0), ("db", 10, 20), ("api", 300, 100), ("api", 300, 300)]) ∧
    (allowed true ∅ (crashes [("api", 300, 0), ("db", 10, 20), ("api", 300, 100),
      ("api", 300, 300)])).map Prod.snd = [true, true, true, false] ∧
    (allowed false ∅ (crashes [("api", 300, 0), ("db", 10, 20), ("api", 300, 100),
      ("api", 300, 300)])).map Prod.snd = [true, true, false, true] := by
  decide

end Marshal.Notify
