import Mathlib.Data.List.Induction

/-! Labelled transition systems that can be run.

A `System` has initial states and a partial step function: `step s a` is the
state the action `a` leaves, or `none` where `a` cannot happen. Whatever the
environment decides — who moves, which operation fails — is part of the action,
so one list of actions is one run. An invariant is proved on a step and carried
to runs once (`run_invariant`); a rule on steps that the environment keeps is
`Along`, and an invariant that needs it is carried by `along_invariant`.

What a run leaves on record beside its state is a `record`: `note` puts down what a step does, seen
from the state it is taken in. A property of the past (what came last, how often something
happened) is then a value of its own, and an invariant may tie it to the state. -/
namespace Transition

structure System (σ α : Type*) where
  init : σ → Prop
  step : σ → α → Option σ

namespace System
variable {σ α : Type*} (M : System σ α)

/-! ### Runs -/

/-- The state a list of actions leaves, if each can happen in its turn. -/
def run (s : σ) : List α → Option σ
  | [] => some s
  | a :: rest => match M.step s a with
    | none => none
    | some t => run t rest

/-- Every step of the run meets the rule `C`. -/
def Along (C : σ → α → Prop) (s : σ) : List α → Prop
  | [] => True
  | a :: rest => C s a ∧ match M.step s a with
    | none => True
    | some t => Along C t rest

instance decidableAlong (C : σ → α → Prop) [∀ s a, Decidable (C s a)] (s : σ) :
    (as : List α) → Decidable (M.Along C s as)
  | [] => isTrue trivial
  | a :: rest => by
    unfold Along
    cases M.step s a with
    | none => exact inferInstance
    | some t =>
      have := decidableAlong C t rest
      exact inferInstance

@[simp] theorem run_nil (s : σ) : M.run s [] = some s := rfl

theorem run_cons {s u : σ} {a : α} {rest : List α} :
    M.run s (a :: rest) = some u ↔ ∃ t, M.step s a = some t ∧ M.run t rest = some u := by
  cases h : M.step s a <;> simp [run, h]

theorem run_append {s u : σ} {as bs : List α} :
    M.run s (as ++ bs) = some u ↔ ∃ t, M.run s as = some t ∧ M.run t bs = some u := by
  induction as generalizing s with
  | nil => simp
  | cons a rest ih =>
    simp only [List.cons_append, run_cons, ih]
    constructor
    · rintro ⟨t, ha, v, hv, hu⟩
      exact ⟨v, ⟨t, ha, hv⟩, hu⟩
    · rintro ⟨v, ⟨t, ha, hv⟩, hu⟩
      exact ⟨t, ha, v, hv, hu⟩

theorem run_concat {s u : σ} {as : List α} {a : α} :
    M.run s (as ++ [a]) = some u ↔ ∃ t, M.run s as = some t ∧ M.step t a = some u := by
  simp only [run_append, run_cons, run_nil, Option.some.injEq, exists_eq_right]

theorem along_append {C : σ → α → Prop} {s t : σ} {as bs : List α} (hrun : M.run s as = some t) :
    M.Along C s (as ++ bs) ↔ M.Along C s as ∧ M.Along C t bs := by
  induction as generalizing s with
  | nil =>
    obtain rfl : s = t := by simpa using hrun
    simp [Along]
  | cons a rest ih =>
    obtain ⟨u, ha, hrest⟩ := M.run_cons.mp hrun
    simp only [List.cons_append, Along, ha, ih hrest, and_assoc]

theorem along_concat {C : σ → α → Prop} {s t : σ} {as : List α} {a : α} (hrun : M.run s as = some t) :
    M.Along C s (as ++ [a]) ↔ M.Along C s as ∧ C t a := by
  rw [M.along_append hrun]
  cases hstep : M.step t a <;> simp [Along, hstep]

theorem along_of_mem {C : σ → α → Prop} {as : List α} (h : ∀ s, ∀ a ∈ as, C s a) (s : σ) :
    M.Along C s as := by
  induction as generalizing s with
  | nil => trivial
  | cons a rest ih =>
    refine ⟨h s a (by simp), ?_⟩
    cases M.step s a with
    | none => trivial
    | some t => exact ih (fun s b hb => h s b (by simp [hb])) t

theorem along_and {C D : σ → α → Prop} {s : σ} {as : List α} :
    M.Along (fun s a => C s a ∧ D s a) s as ↔ M.Along C s as ∧ M.Along D s as := by
  induction as generalizing s with
  | nil => simp [Along]
  | cons a rest ih =>
    cases ha : M.step s a with
    | none => simp [Along, ha]
    | some t =>
      simp only [Along, ha, ih]
      exact and_and_and_comm

/-- Two rules agree along a run if they agree wherever an invariant of all steps holds. -/
theorem along_congr {C D : σ → α → Prop} {I : σ → Prop}
    (hstep : ∀ s a t, I s → M.step s a = some t → I t) (hiff : ∀ s a, I s → (C s a ↔ D s a)) {s : σ}
    (hs : I s) (as : List α) : M.Along C s as ↔ M.Along D s as := by
  induction as generalizing s with
  | nil => exact Iff.rfl
  | cons a rest ih =>
    unfold Along
    cases ha : M.step s a with
    | none => simp [hiff s a hs]
    | some t => simp only [hiff s a hs, ih (hstep s a t hs ha)]

/-! ### Invariants -/

/-- What each step preserves under a rule, every run that keeps the rule preserves. -/
theorem along_invariant {C : σ → α → Prop} {I : σ → Prop}
    (hstep : ∀ s a t, C s a → I s → M.step s a = some t → I t) {s t : σ} {as : List α}
    (hs : I s) (hrun : M.run s as = some t) (hrule : M.Along C s as) : I t := by
  induction as generalizing s with
  | nil =>
    obtain rfl : s = t := by simpa using hrun
    exact hs
  | cons a rest ih =>
    obtain ⟨u, ha, hrest⟩ := M.run_cons.mp hrun
    obtain ⟨hC, hrule⟩ := hrule
    simp only [ha] at hrule
    exact ih (hstep s a u hC hs ha) hrest hrule

/-- What each step preserves, every run preserves. -/
theorem run_invariant {I : σ → Prop} (hstep : ∀ s a t, I s → M.step s a = some t → I t)
    {s t : σ} {as : List α} (hs : I s) (hrun : M.run s as = some t) : I t := by
  induction as generalizing s with
  | nil =>
    obtain rfl : s = t := by simpa using hrun
    exact hs
  | cons a rest ih =>
    obtain ⟨u, ha, hrest⟩ := M.run_cons.mp hrun
    exact ih (hstep s a u hs ha) hrest

/-- A rule gives another one along a run when it keeps an invariant under which it does. -/
theorem along_imp {C D : σ → α → Prop} {I : σ → Prop}
    (hstep : ∀ s a t, C s a → I s → M.step s a = some t → I t) (himp : ∀ s a, C s a → I s → D s a)
    {s : σ} {as : List α} (hs : I s) (hrule : M.Along C s as) : M.Along D s as := by
  induction as generalizing s with
  | nil => trivial
  | cons a rest ih =>
    obtain ⟨hC, hrest⟩ := hrule
    refine ⟨himp s a hC hs, ?_⟩
    cases ha : M.step s a with
    | none => trivial
    | some t =>
      simp only [ha] at hrest
      exact ih (hstep s a t hC hs ha) hrest

/-- A rule is exactly what a property needs when an invariant that gives the property is
kept by every step under the rule and every step against it breaks the property. -/
theorem along_iff {C : σ → α → Prop} {I P : σ → Prop} (himp : ∀ s, I s → P s)
    (hstep : ∀ s a t, C s a → I s → M.step s a = some t → I t)
    (hbreak : ∀ s a t, ¬ C s a → I s → M.step s a = some t → ¬ P t) {s t : σ} {as : List α}
    (hs : I s) (hrun : M.run s as = some t) :
    (∀ before after u, as = before ++ after → M.run s before = some u → P u) ↔ M.Along C s as := by
  constructor
  · intro hP
    induction as generalizing s with
    | nil => trivial
    | cons a rest ih =>
      obtain ⟨u, ha, hrest⟩ := M.run_cons.mp hrun
      have hC : C s a := by
        by_contra hC
        exact hbreak s a u hC hs ha (hP [a] rest u rfl (M.run_cons.mpr ⟨u, ha, rfl⟩))
      refine ⟨hC, ?_⟩
      simp only [ha]
      refine ih (hstep s a u hC hs ha) hrest fun before after v hsplit hv => ?_
      exact hP (a :: before) after v (by rw [hsplit, List.cons_append]) (M.run_cons.mpr ⟨u, ha, hv⟩)
  · rintro hrule before after u rfl hu
    exact himp u (M.along_invariant hstep hs hu ((M.along_append hu).mp hrule).1)

/-- A run that broke the rule ends in `Q`, where a step against the rule leads to `Q` and
every step from `Q` stays there. Only actions with `R` are taken. -/
theorem along_or_broken {C : σ → α → Prop} {I Q : σ → Prop} {R : α → Prop}
    (hstep : ∀ s a t, R a → C s a → I s → M.step s a = some t → I t)
    (hbreak : ∀ s a t, R a → ¬ C s a → I s → M.step s a = some t → Q t)
    (hstay : ∀ s a t, R a → Q s → M.step s a = some t → Q t) {s t : σ} {as : List α} (hs : I s)
    (hrun : M.run s as = some t) (hall : ∀ a ∈ as, R a) : M.Along C s as ∨ Q t := by
  induction as generalizing s with
  | nil => exact .inl trivial
  | cons a rest ih =>
    obtain ⟨u, ha, hrest⟩ := M.run_cons.mp hrun
    have hR : R a := hall a (by simp)
    have hallrest : ∀ b ∈ rest, R b := fun b hb => hall b (by simp [hb])
    by_cases hC : C s a
    · rcases ih (hstep s a u hR hC hs ha) hrest hallrest with hrule | hQ
      · refine .inl ⟨hC, ?_⟩
        simpa only [ha] using hrule
      · exact .inr hQ
    · exact .inr (M.along_invariant hstay (hbreak s a u hR hC hs ha) hrest
        (M.along_of_mem (fun _ b hb => hallrest b hb) u))

/-- An invariant of the actions taken so far together with the state they leave. -/
theorem along_history {C : σ → α → Prop} {I : List α → σ → Prop} {s₀ : σ} (hnil : I [] s₀)
    (hstep : ∀ as s a t, M.run s₀ as = some s → C s a → I as s → M.step s a = some t →
      I (as ++ [a]) t)
    {as : List α} {s : σ} (hrun : M.run s₀ as = some s) (hrule : M.Along C s₀ as) : I as s := by
  induction as using List.reverseRecOn generalizing s with
  | nil =>
    obtain rfl : s₀ = s := by simpa using hrun
    exact hnil
  | append_singleton as a ih =>
    obtain ⟨t, hrun', ha⟩ := M.run_concat.mp hrun
    obtain ⟨hbefore, hC⟩ := (M.along_concat hrun').mp hrule
    exact hstep as t a s hrun' hC (ih hrun' hbefore) ha

theorem run_history {I : List α → σ → Prop} {s₀ : σ} (hnil : I [] s₀)
    (hstep : ∀ as s a t, M.run s₀ as = some s → I as s → M.step s a = some t → I (as ++ [a]) t)
    {as : List α} {s : σ} (hrun : M.run s₀ as = some s) : I as s :=
  M.along_history (C := fun _ _ => True) hnil
    (fun as s a t hrun _ hI ha => hstep as s a t hrun hI ha) hrun
    (M.along_of_mem (fun _ _ _ => trivial) s₀)

/-! ### The record of a run -/

variable {γ : Type*}

/-- The record of a run, starting from `g`. -/
def record (note : γ → σ → α → γ) (g : γ) (s : σ) : List α → γ
  | [] => g
  | a :: rest => match M.step s a with
    | none => g
    | some t => record note (note g s a) t rest

/-- What each step under a rule preserves of the record and the state together, every run that
keeps the rule does. -/
theorem record_along (note : γ → σ → α → γ) {C : σ → α → Prop} {I : γ → σ → Prop}
    (hstep : ∀ g s a t, C s a → I g s → M.step s a = some t → I (note g s a) t) {g : γ} {s t : σ}
    {as : List α} (hs : I g s) (hrun : M.run s as = some t) (hrule : M.Along C s as) :
    I (M.record note g s as) t := by
  induction as generalizing s g with
  | nil =>
    obtain rfl : s = t := by simpa using hrun
    exact hs
  | cons a rest ih =>
    obtain ⟨u, ha, hrest⟩ := M.run_cons.mp hrun
    obtain ⟨hC, hrule⟩ := hrule
    simp only [ha] at hrule
    simp only [record, ha]
    exact ih (hstep g s a u hC hs ha) hrest hrule

theorem record_invariant (note : γ → σ → α → γ) {I : γ → σ → Prop}
    (hstep : ∀ g s a t, I g s → M.step s a = some t → I (note g s a) t) {g : γ} {s t : σ} {as : List α}
    (hs : I g s) (hrun : M.run s as = some t) : I (M.record note g s as) t :=
  M.record_along note (C := fun _ _ => True) (fun g s a t _ hI ha => hstep g s a t hI ha) hs hrun
    (M.along_of_mem (fun _ _ _ => trivial) s)

end System

end Transition
