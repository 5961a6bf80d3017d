import Marshal.Lib.System
import Marshal.Memguard.Check

/-! What a restart of the guard rests on.

A counter counts over-limit samples of one instance. It is kept through a tick that does
not sample the instance, through one without a limit, and a tick that restarts the app
may begin a new one. Where no tick does any of that, a counter is a streak of ticks, and
every restart has one of the threshold's length behind it (`sustained_of_steady`). -/
namespace Marshal.Memguard
open Transition

/-- What one tick saw and did. -/
structure Tick where
  limits : Table String Nat
  samples : List (String × Nat)
  restarts : List String

/-- The instance was sampled over the limit its app had at this tick. -/
def Tick.Over (t : Tick) (label : String) : Prop :=
  ∃ mem, (label, mem) ∈ t.samples ∧ Memguard.Over t.limits (label, mem)

/-- A guard and its ticks, the newest first. -/
structure Watch where
  guard : Guard := {}
  ticks : List Tick := []

namespace Watch

/-- One call on the guard. The samples of a tick are a map. -/
def step (w : Watch) : Call → Option Watch
  | .setLimit app bytes => some { w with guard := w.guard.SetLimit app bytes }
  | .remove app => some { w with guard := w.guard.Remove app }
  | .check order =>
    if (order.map Prod.fst).Nodup then
      some ⟨w.guard.Check order, ⟨w.guard.limits, order, w.guard.restarts order⟩ :: w.ticks⟩
    else none

/-- The runs of a guard from `New`. -/
def machine : System Watch Call where
  init w := w = {}
  step := step

/-- For each app that the last tick restarts, an instance was over the limit at it and at the ticks
before it, up to the threshold, and the app was not restarted at these. -/
def Sustained (w : Watch) : Prop :=
  ∀ t rest, w.ticks = t :: rest → ∀ name ∈ t.restarts, ∃ label, appName label = name ∧
    defaultThreshold ≤ w.ticks.length ∧ (∀ u ∈ w.ticks.take defaultThreshold, u.Over label) ∧
    ∀ u ∈ rest.take (defaultThreshold - 1), name ∉ u.restarts

/-- A tick samples every instance that has a counter, under a limit; and no instance that is over the
limit is visited after one that fires for the same app. -/
def Steady (w : Watch) : Call → Prop
  | .check order =>
    (∀ e ∈ w.guard.breach.toList,
      e.1 ∈ order.map Prod.fst ∧ (w.guard.limits.get (appName e.1)).isSome = true) ∧
    order.Pairwise fun s s' =>
      appName s'.1 = appName s.1 → Due w.guard.limits w.guard.breach s → ¬ Over w.guard.limits s'
  | .setLimit _ _ | .remove _ => True

instance (w : Watch) (c : Call) : Decidable (w.Steady c) :=
  match c with
  | .check _ => inferInstanceAs (Decidable (_ ∧ _))
  | .setLimit _ _ | .remove _ => isTrue trivial

/-- A counter is a streak of ticks since the last restart of the app. -/
def Streaks (w : Watch) : Prop :=
  ∀ label n, w.guard.breach.get label = some n → n ≤ w.ticks.length ∧
    ∀ u ∈ w.ticks.take n, u.Over label ∧ appName label ∉ u.restarts

variable {w w' : Watch} {order : List (String × Nat)}

/-- The counter that a steady tick leaves goes on from the one before, with the tick itself. -/
theorem steady_count (hsteady : w.Steady (.check order)) (hnodup : (order.map Prod.fst).Nodup)
    {label : String} {n : Nat} (hget : (w.guard.Check order).breach.get label = some n) :
    n = count w.guard.breach label + 1 ∧ (∃ e ∈ order, e.1 = label ∧ Over w.guard.limits e) ∧
      appName label ∉ w.guard.restarts order := by
  obtain ⟨hsampled, hlast⟩ := hsteady
  by_cases hdue : ∃ s ∈ order, appName s.1 = appName label ∧ Due w.guard.limits w.guard.breach s
  · obtain ⟨before, s, after, rfl, hname, hfirstDue, hbefore⟩ := first_due hdue
    rw [← hname] at hbefore
    rw [(Guard.check_fires hnodup hbefore hfirstDue).2 label hname.symm, tally] at hget
    cases hfirst : Keyed.first Prod.fst after label with
    | none =>
      rw [hfirst] at hget
      cases hget
    | some e =>
      obtain ⟨he, rfl⟩ := Keyed.mem_of_first hfirst
      have hnot : ¬ Over w.guard.limits e :=
        List.rel_of_pairwise_cons (List.pairwise_append.mp hlast).2.1 he hname.symm hfirstDue
      simp only [hfirst, tick] at hget
      split at hget
      · cases hget
      · rename_i limit hlimit
        split at hget
        · cases hget
        · rename_i hmem
          exact absurd ⟨limit, hlimit, Nat.lt_of_not_le hmem⟩ hnot
  · obtain ⟨hquiet, htally⟩ := @Guard.check_quiet (appName label) w.guard order hnodup
      fun s hs hname h => hdue ⟨s, hs, hname, h⟩
    rw [htally label rfl, tally] at hget
    cases hfirst : Keyed.first Prod.fst order label with
    | none =>
      rw [hfirst] at hget
      obtain ⟨e, he, hlabel⟩ := List.mem_map.mp (hsampled _ ((Table.mem_toList _ _ _).mpr hget)).1
      exact absurd hlabel (Keyed.first_eq_none.mp hfirst e he)
    | some e =>
      obtain ⟨he, rfl⟩ := Keyed.mem_of_first hfirst
      simp only [hfirst, tick] at hget
      split at hget
      · rename_i hlimit
        have hsome := (hsampled _ ((Table.mem_toList _ _ _).mpr hget)).2
        rw [hlimit] at hsome
        cases hsome
      · rename_i limit hlimit
        split at hget
        · cases hget
        · rename_i hmem
          refine ⟨(Option.some.inj hget).symm, ⟨e, he, rfl, limit, hlimit, Nat.lt_of_not_le hmem⟩, hquiet⟩

/-- The ticks behind a counter, one that is absent being 0. -/
theorem Streaks.count (h : w.Streaks) (label : String) :
    Memguard.count w.guard.breach label ≤ w.ticks.length ∧
      ∀ u ∈ w.ticks.take (Memguard.count w.guard.breach label), u.Over label ∧ appName label ∉ u.restarts := by
  unfold Memguard.count
  cases hget : w.guard.breach.get label with
  | none => exact ⟨Nat.zero_le _, fun u hu => absurd hu List.not_mem_nil⟩
  | some n => exact h label n hget

theorem streaks_step {c : Call} (hsteady : w.Steady c) (h : w.Streaks) (hstep : w.step c = some w') :
    w'.Streaks := by
  cases c with
  | setLimit app bytes =>
    cases hstep
    exact h
  | remove app =>
    cases hstep
    intro label n hget
    refine h label n ?_
    rw [show (w.guard.Remove app).breach.get label = _ from w.guard.Remove_breach app label] at hget
    split at hget
    · cases hget
    · exact hget
  | check order =>
    simp only [step] at hstep
    split at hstep
    · rename_i hnodup
      cases hstep
      intro label n hget
      obtain ⟨rfl, ⟨⟨l, mem⟩, he, rfl, hover⟩, hquiet⟩ := steady_count hsteady hnodup hget
      obtain ⟨hlength, hticks⟩ := h.count l
      refine ⟨Nat.succ_le_succ hlength, fun u hu => ?_⟩
      rw [List.take_succ_cons] at hu
      rcases List.mem_cons.mp hu with rfl | hu
      · exact ⟨⟨mem, he, hover⟩, hquiet⟩
      · exact hticks u hu
    · cases hstep

theorem sustained_step {c : Call} (hstreaks : w.Streaks) (h : w.Sustained) (hstep : w.step c = some w') :
    w'.Sustained := by
  cases c with
  | setLimit app bytes =>
    cases hstep
    exact h
  | remove app =>
    cases hstep
    exact h
  | check order =>
    simp only [step] at hstep
    split at hstep
    · rename_i hnodup
      cases hstep
      rintro t rest hticks name hname
      cases hticks
      have hdue : ∃ s ∈ order, appName s.1 = name ∧ Due w.guard.limits w.guard.breach s := by
        by_contra hnone
        exact (Guard.check_quiet hnodup fun s hs hn h => hnone ⟨s, hs, hn, h⟩).1 hname
      obtain ⟨⟨label, mem⟩, hs, rfl, hover, hcount⟩ := hdue
      obtain ⟨hlength, hall⟩ := hstreaks.count label
      have hcount : defaultThreshold - 1 ≤ count w.guard.breach label := Nat.sub_le_of_le_add hcount
      have hold : ∀ u ∈ w.ticks.take (defaultThreshold - 1), u.Over label ∧ appName label ∉ u.restarts :=
        fun u hu => hall u ((List.take_subset_take_left _ hcount) hu)
      refine ⟨label, rfl, Nat.succ_le_succ (Nat.le_trans hcount hlength), fun u hu => ?_, fun u hu => (hold u hu).2⟩
      rcases List.mem_cons.mp hu with rfl | hu
      · exact ⟨mem, hs, hover⟩
      · exact (hold u hu).1
    · cases hstep

/-- **In every run whose ticks are steady, each restart comes after an instance of the app was over
the limit at the last three ticks, none of which had restarted the app before.** -/
theorem sustained_of_steady {calls : List Call} (hrun : machine.run {} calls = some w)
    (hsteady : machine.Along Steady {} calls) : w.Sustained := by
  have hinvariant : w.Streaks ∧ w.Sustained := by
    refine machine.along_invariant (C := Steady) (I := fun w => w.Streaks ∧ w.Sustained) ?_ ⟨?_, ?_⟩ hrun hsteady
    · intro s c t hC h hstep
      exact ⟨streaks_step hC h.1 hstep, sustained_step h.1 h.2 hstep⟩
    · intro label n hget
      cases hget
    · intro t rest hticks
      cases hticks
  exact hinvariant.2

/-- An instance over the limit at every tick. -/
def excess : List Call :=
  [.setLimit "web" 100, .check [("web#0", 200)], .check [("web#0", 200)], .check [("web#0", 200)]]

theorem sustained_excess :
    ∃ w, machine.run {} excess = some w ∧ (w.ticks.head?.map Tick.restarts) = some ["web"] ∧ w.Sustained :=
  ⟨_, rfl, by decide +kernel, @sustained_of_steady _ excess rfl (by decide +kernel)⟩

/-- An instance over the limit that is sampled at every other tick only. -/
def gaps : List Call :=
  [.setLimit "web" 100, .check [("web#0", 200)], .check [], .check [("web#0", 200)], .check [],
    .check [("web#0", 200)]]

/-- Its app is restarted at the last of them, and the tick before had not sampled it. -/
theorem restarts_over_gaps :
    ∃ w, machine.run {} gaps = some w ∧ (w.ticks.head?.map Tick.restarts) = some ["web"] ∧ ¬ w.Sustained := by
  refine ⟨_, rfl, by decide +kernel, fun h => ?_⟩
  obtain ⟨label, -, -, hover, -⟩ := h _ _ rfl "web" (by decide +kernel)
  obtain ⟨mem, hmem, -⟩ := hover ⟨_, [], _⟩ (by exact List.mem_cons_of_mem _ List.mem_cons_self)
  cases hmem

end Watch
end Marshal.Memguard
