import Marshal.Lib.Table
import Mathlib.Algebra.Group.Int.Defs

/-! Cooldown gates.

A gate lets an arrival through unless one of its key was let through less than a
cooldown ago; the cooldown depends on the arrival's kind. The gate may forget entries
that are past their cooldown (`sweeping`). As long as the clock does not go back and no
cooldown is raised, an entry that could be forgotten stays without effect, so the
sweeping gate and the one that keeps everything decide alike (`outcomes_sweeping`). Where
cooldowns are raised, the sweeping gate lets through all that the other one does until it
lets an arrival through early (`agree_decide`, `Agree.over`); that puts the next one of its
key off (`early_decide`). -/
namespace Cooldown
variable {κ τ : Type} [DecidableEq κ]

/-- When a key was last let through, and its kind. -/
structure Entry (τ : Type) where
  time : Int
  kind : τ

structure Arrival (κ τ : Type) where
  key : κ
  kind : τ
  now : Int
  /-- The cooldowns in force. -/
  cooldown : τ → Int

/-- How the time since an entry is measured. -/
structure Age where
  age : Int → Int → Int
  later : ∀ now now' time, now ≤ now' → age now time ≤ age now' time
  older : ∀ now time time', time ≤ time' → age now time' ≤ age now time

abbrev Last (κ τ : Type) := Table κ (Entry τ)

section Gate
variable (A : Age)

def expired (a : Arrival κ τ) (e : Entry τ) : Bool := a.cooldown e.kind ≤ A.age a.now e.time

def blocked (last : Last κ τ) (a : Arrival κ τ) : Bool :=
  match last.get a.key with
  | none => false
  | some e => A.age a.now e.time < a.cooldown a.kind

/-- One arrival, and whether it is let through; then `sweep` has its turn. -/
def decideWith (sweep : Last κ τ → Arrival κ τ → Last κ τ) (last : Last κ τ) (a : Arrival κ τ) :
    Last κ τ × Bool :=
  if blocked A last a then (last, false) else (sweep (last.set a.key ⟨a.now, a.kind⟩) a, true)

def keeping (last : Last κ τ) (_ : Arrival κ τ) : Last κ τ := last

def sweeping (last : Last κ τ) (a : Arrival κ τ) : Last κ τ := last.discard fun _ e => expired A a e

/-- The arrivals with what was decided on each. -/
def outcomes (sweep : Last κ τ → Arrival κ τ → Last κ τ) (last : Last κ τ) :
    List (Arrival κ τ) → List (Arrival κ τ × Bool)
  | [] => []
  | a :: rest =>
    (a, (decideWith A sweep last a).2) :: outcomes sweep (decideWith A sweep last a).1 rest

/-- Neither does the clock go back nor is a cooldown raised. -/
def Follows (a b : Arrival κ τ) : Prop := a.now ≤ b.now ∧ ∀ k, b.cooldown k ≤ a.cooldown k

/-- A key is of one kind. -/
def Typed (as : List (Arrival κ τ)) : Prop :=
  ∀ a ∈ as, ∀ b ∈ as, a.key = b.key → a.kind = b.kind

/-! ### Forgetting changes nothing -/

/-- The sweeping gate has only forgotten what is past its cooldown at `a` and after. -/
structure Forgets (a : Arrival κ τ) (swept full : Last κ τ) : Prop where
  kept : ∀ k e, swept.get k = some e → full.get k = some e
  gone : ∀ k e, full.get k = some e → swept.get k = none → expired A a e = true

variable {A}

omit [DecidableEq κ] in
theorem expired_follows {a b : Arrival κ τ} (h : Follows a b) {e : Entry τ}
    (he : expired A a e = true) : expired A b e = true := by
  simp only [expired, decide_eq_true_eq] at he ⊢
  exact Int.le_trans (h.2 e.kind) (Int.le_trans he (A.later _ _ _ h.1))

theorem Forgets.follows {a b : Arrival κ τ} {swept full : Last κ τ} (h : Forgets A a swept full)
    (hab : Follows a b) : Forgets A b swept full :=
  ⟨h.kept, fun k e hfull hswept => expired_follows hab (h.gone k e hfull hswept)⟩

theorem blocked_eq {a : Arrival κ τ} {swept full : Last κ τ} (h : Forgets A a swept full)
    (hkind : ∀ e, full.get a.key = some e → e.kind = a.kind) :
    blocked A swept a = blocked A full a := by
  unfold blocked
  cases hswept : swept.get a.key with
  | some e => rw [h.kept _ _ hswept]
  | none =>
    cases hfull : full.get a.key with
    | none => rfl
    | some e =>
      have hold := h.gone _ _ hfull hswept
      simp only [expired, decide_eq_true_eq, hkind e hfull] at hold
      simpa using hold

theorem forgets_decide {a : Arrival κ τ} {swept full : Last κ τ} (h : Forgets A a swept full)
    (hkind : ∀ e, full.get a.key = some e → e.kind = a.kind) :
    (decideWith A (sweeping A) swept a).2 = (decideWith A keeping full a).2 ∧
    Forgets A a (decideWith A (sweeping A) swept a).1 (decideWith A keeping full a).1 := by
  unfold decideWith
  rw [blocked_eq h hkind]
  split
  · exact ⟨rfl, h⟩
  · refine ⟨rfl, ?_, ?_⟩
    · intro k e hget
      have hget : ((swept.set a.key ⟨a.now, a.kind⟩).discard fun _ e => expired A a e).get k = some e :=
        hget
      rw [Table.get_discard, Option.filter_eq_some_iff, Table.get_set] at hget
      show (full.set a.key ⟨a.now, a.kind⟩).get k = some e
      rw [Table.get_set]
      split
      · rename_i hk
        rw [if_pos hk] at hget
        exact hget.1
      · rename_i hk
        rw [if_neg hk] at hget
        exact h.kept k e hget.1
    · intro k e hfull hswept
      have hfull : (full.set a.key ⟨a.now, a.kind⟩).get k = some e := hfull
      have hswept : ((swept.set a.key ⟨a.now, a.kind⟩).discard fun _ e => expired A a e).get k = none :=
        hswept
      rw [Table.get_discard, Table.get_set] at hswept
      rw [Table.get_set] at hfull
      split at hfull
      · rename_i hk
        rw [if_pos hk, hfull, Option.filter_some] at hswept
        by_contra hnot
        simp [hnot] at hswept
      · rename_i hk
        rw [if_neg hk] at hswept
        cases hget : swept.get k with
        | none => exact h.gone k e hfull hget
        | some e' =>
          rw [h.kept k e' hget, Option.some.injEq] at hfull
          rw [hget, Option.filter_some, hfull] at hswept
          by_contra hnot
          simp [hnot] at hswept

/-- Entries carry the kind of their key. -/
def KindOf (full : Last κ τ) (as : List (Arrival κ τ)) : Prop :=
  ∀ a ∈ as, ∀ e, full.get a.key = some e → e.kind = a.kind

theorem kindOf_decide {full : Last κ τ} {a : Arrival κ τ} {rest : List (Arrival κ τ)}
    (htyped : Typed (a :: rest)) (h : KindOf full (a :: rest)) :
    KindOf (decideWith A keeping full a).1 rest := by
  intro b hb e hget
  unfold decideWith at hget
  split at hget
  · exact h b (List.mem_cons_of_mem a hb) e hget
  · have hget : (full.set a.key ⟨a.now, a.kind⟩).get b.key = some e := hget
    rw [Table.get_set] at hget
    split at hget
    · rename_i hkey
      cases hget
      exact htyped a List.mem_cons_self b (List.mem_cons_of_mem a hb) hkey.symm
    · exact h b (List.mem_cons_of_mem a hb) e hget

theorem outcomes_sweeping_from {a : Arrival κ τ} {as : List (Arrival κ τ)} {swept full : Last κ τ}
    (h : Forgets A a swept full) (hchain : (a :: as).IsChain Follows) (htyped : Typed as)
    (hkind : KindOf full as) :
    outcomes A (sweeping A) swept as = outcomes A keeping full as := by
  induction as generalizing a swept full with
  | nil => rfl
  | cons b rest ih =>
    obtain ⟨hab, hrest⟩ := List.isChain_cons_cons.mp hchain
    obtain ⟨hout, hnext⟩ := forgets_decide (h.follows hab) (hkind b List.mem_cons_self)
    simp only [outcomes, hout, List.cons.injEq, true_and]
    exact ih hnext hrest (fun x hx y hy => htyped x (List.mem_cons_of_mem b hx) y
      (List.mem_cons_of_mem b hy)) (kindOf_decide htyped hkind)

/-- The sweeping gate decides as the keeping one. -/
theorem outcomes_sweeping {as : List (Arrival κ τ)} (hchain : as.IsChain Follows)
    (htyped : Typed as) : outcomes A (sweeping A) ∅ as = outcomes A keeping ∅ as := by
  cases as with
  | nil => rfl
  | cons a rest =>
    refine @outcomes_sweeping_from _ _ _ A a (a :: rest) ∅ ∅ ⟨?_, ?_⟩ ?_ htyped ?_
    · intro k e hget
      cases hget
    · intro k e hget
      cases hget
    · exact List.isChain_cons_cons.mpr ⟨⟨Int.le_refl _, fun _ => Int.le_refl _⟩, hchain⟩
    · intro b _ e hget
      cases hget

/-! ### What is let through -/

/-- The table holds the last of each key that was let through. -/
structure Recorded (log : List (Arrival κ τ × Bool)) (full : Last κ τ) : Prop where
  origin : ∀ k e, full.get k = some e → ∃ x ∈ log, x.2 = true ∧ x.1.key = k ∧ x.1.now = e.time
  latest : ∀ x ∈ log, x.2 = true → ∃ e, full.get x.1.key = some e ∧ x.1.now ≤ e.time

variable (A) in
/-- What was let through before keeps its distance if `y` was let through, and stands close by if
it was not. -/
structure Spaced (before : List (Arrival κ τ × Bool)) (y : Arrival κ τ × Bool) : Prop where
  apart : y.2 = true → ∀ x ∈ before, x.2 = true → x.1.key = y.1.key →
    y.1.cooldown y.1.kind ≤ A.age y.1.now x.1.now
  near : y.2 = false → ∃ x ∈ before, x.2 = true ∧ x.1.key = y.1.key ∧
    A.age y.1.now x.1.now < y.1.cooldown y.1.kind

theorem spaced_decide {log : List (Arrival κ τ × Bool)} {full : Last κ τ} (h : Recorded log full)
    (a : Arrival κ τ) : Spaced A log (a, (decideWith A keeping full a).2) := by
  unfold decideWith
  cases hblocked : blocked A full a with
  | true =>
    rw [if_pos rfl]
    refine ⟨fun hout => absurd hout (by simp), fun _ => ?_⟩
    unfold blocked at hblocked
    cases hget : full.get a.key with
    | none => simp [hget] at hblocked
    | some e =>
      simp only [hget, decide_eq_true_eq] at hblocked
      obtain ⟨x, hx, hout, hkey, htime⟩ := h.origin _ e hget
      exact ⟨x, hx, hout, hkey, by rwa [htime]⟩
  | false =>
    rw [if_neg (by simp)]
    refine ⟨fun _ x hx hout hkey => ?_, fun hout => absurd hout (by simp)⟩
    obtain ⟨e, hget, hle⟩ := h.latest x hx hout
    have hkey : x.1.key = a.key := hkey
    rw [hkey] at hget
    simp only [blocked, hget, decide_eq_false_iff_not, Int.not_lt] at hblocked
    exact Int.le_trans hblocked (A.older _ _ _ hle)

theorem recorded_decide {log : List (Arrival κ τ × Bool)} {full : Last κ τ} (h : Recorded log full)
    {a : Arrival κ τ} (hpast : ∀ x ∈ log, x.1.now ≤ a.now) :
    Recorded (log ++ [(a, (decideWith A keeping full a).2)]) (decideWith A keeping full a).1 := by
  unfold decideWith
  split
  · refine ⟨?_, ?_⟩
    · intro k e hget
      obtain ⟨x, hx, hrest⟩ := h.origin k e hget
      exact ⟨x, List.mem_append_left _ hx, hrest⟩
    · intro x hx hout
      rcases List.mem_append.mp hx with hx | hx
      · exact h.latest x hx hout
      · rw [List.mem_singleton.mp hx] at hout
        cases hout
  · refine ⟨?_, ?_⟩
    · intro k e hget
      have hget : (full.set a.key ⟨a.now, a.kind⟩).get k = some e := hget
      rw [Table.get_set] at hget
      split at hget
      · rename_i hk
        cases hget
        exact ⟨(a, true), by simp, rfl, hk.symm, rfl⟩
      · obtain ⟨x, hx, hrest⟩ := h.origin k e hget
        exact ⟨x, List.mem_append_left _ hx, hrest⟩
    · intro x hx hout
      show ∃ e, (full.set a.key ⟨a.now, a.kind⟩).get x.1.key = some e ∧ _
      rw [Table.get_set]
      rcases List.mem_append.mp hx with hx | hx
      · split
        · exact ⟨_, rfl, hpast x hx⟩
        · exact h.latest x hx hout
      · rw [List.mem_singleton.mp hx, if_pos rfl]
        exact ⟨_, rfl, Int.le_refl _⟩

theorem spaced_from {log : List (Arrival κ τ × Bool)} {full : Last κ τ} {as : List (Arrival κ τ)}
    (h : Recorded log full) (hpast : ∀ x ∈ log, ∀ a ∈ as, x.1.now ≤ a.now)
    (hclock : as.Pairwise fun a b => a.now ≤ b.now) :
    ∀ before y after, outcomes A keeping full as = before ++ y :: after →
      Spaced A (log ++ before) y := by
  induction as generalizing log full with
  | nil =>
    intro before y after hsplit
    simp [outcomes] at hsplit
  | cons a rest ih =>
    intro before y after hsplit
    obtain ⟨hhead, hrest⟩ := List.pairwise_cons.mp hclock
    cases before with
    | nil =>
      obtain ⟨rfl, -⟩ := List.cons.inj hsplit
      rw [List.append_nil]
      exact spaced_decide h a
    | cons x before =>
      obtain ⟨rfl, htail⟩ := List.cons.inj hsplit
      have hpast' : ∀ x ∈ log, x.1.now ≤ a.now := fun x hx => hpast x hx a List.mem_cons_self
      have hnext := ih (recorded_decide h hpast') ?_ hrest before y after htail
      · rwa [List.append_assoc] at hnext
      · intro x hx b hb
        rcases List.mem_append.mp hx with hx | hx
        · exact hpast x hx b (List.mem_cons_of_mem a hb)
        · rw [List.mem_singleton.mp hx]
          exact hhead b hb

/-- Arrivals of one key are let through a cooldown apart, and turned away within one only. -/
theorem spaced {as : List (Arrival κ τ)} (hclock : as.Pairwise fun a b => a.now ≤ b.now)
    {before after : List (Arrival κ τ × Bool)} {y : Arrival κ τ × Bool}
    (hsplit : outcomes A keeping ∅ as = before ++ y :: after) : Spaced A before y := by
  have hempty : Recorded [] (∅ : Last κ τ) := by
    refine ⟨?_, by simp⟩
    intro k e hget
    cases hget
  exact spaced_from hempty (by simp) hclock before y after hsplit

/-! ### Forgetting too early -/

variable (A) in
/-- The arrival's key has been forgotten although it was let through earlier, less than a cooldown
ago. -/
def Early (swept full : Last κ τ) (a : Arrival κ τ) : Prop :=
  swept.get a.key = none ∧
    ∃ e ∈ full.get a.key, e.time < a.now ∧ A.age a.now e.time < a.cooldown a.kind

instance (swept full : Last κ τ) (a : Arrival κ τ) : Decidable (Early A swept full a) :=
  inferInstanceAs (Decidable (_ ∧ _))

/-- What the sweeping gate still has, it has with the time the keeping gate has. -/
def Agree (swept full : Last κ τ) : Prop :=
  ∀ k e, swept.get k = some e → ∃ e', full.get k = some e' ∧ e'.time = e.time

theorem agree_empty : Agree (∅ : Last κ τ) ∅ := by
  intro k e hget
  cases hget

theorem Agree.blocked {swept full : Last κ τ} (h : Agree swept full) {a : Arrival κ τ}
    (hblocked : blocked A swept a = true) : Cooldown.blocked A full a = true := by
  unfold Cooldown.blocked at hblocked ⊢
  cases hget : swept.get a.key with
  | none => simp [hget] at hblocked
  | some e =>
    obtain ⟨e', hfull, htime⟩ := h _ e hget
    rw [hget] at hblocked
    rw [hfull]
    show decide (A.age a.now e'.time < a.cooldown a.kind) = true
    rw [htime]
    exact hblocked

theorem Agree.discard {swept full : Last κ τ} (h : Agree swept full)
    (p : κ → Entry τ → Bool) : Agree (swept.discard p) full := by
  intro k e hget
  rw [Table.get_discard, Option.filter_eq_some_iff] at hget
  exact h k e hget.1

theorem Agree.set {swept full : Last κ τ} (h : Agree swept full) (k : κ) (e : Entry τ) :
    Agree (swept.set k e) (full.set k e) := by
  intro k' e' hget
  rw [Table.get_set] at hget ⊢
  split at hget
  · rename_i hk
    rw [if_pos hk]
    exact ⟨e', hget, rfl⟩
  · rename_i hk
    rw [if_neg hk]
    exact h k' e' hget

theorem Agree.set_left {swept full : Last κ τ} (h : Agree swept full) {k : κ} {e e' : Entry τ}
    (hget : full.get k = some e') (htime : e'.time = e.time) : Agree (swept.set k e) full := by
  intro k' e'' hget'
  rw [Table.get_set] at hget'
  split at hget'
  · rename_i hk
    cases hget'
    exact ⟨e', hk ▸ hget, htime⟩
  · exact h k' e'' hget'

theorem decideWith_snd (sweep : Last κ τ → Arrival κ τ → Last κ τ) (last : Last κ τ)
    (a : Arrival κ τ) : (decideWith A sweep last a).2 = !blocked A last a := by
  unfold decideWith
  cases blocked A last a <;> rfl

/-- While the tables agree, what the keeping gate lets through the sweeping one does too. -/
theorem Agree.over {swept full : Last κ τ} (h : Agree swept full) {a : Arrival κ τ}
    (hout : (decideWith A keeping full a).2 = true) : (decideWith A (sweeping A) swept a).2 = true := by
  rw [decideWith_snd] at hout ⊢
  cases hswept : Cooldown.blocked A swept a with
  | false => rfl
  | true =>
    rw [h.blocked hswept] at hout
    exact hout

/-- The tables agree after an arrival that is not let through early. -/
theorem agree_decide {swept full : Last κ τ} (h : Agree swept full) {a : Arrival κ τ}
    (hpast : ∀ e, full.get a.key = some e → e.time ≤ a.now) (hearly : ¬ Early A swept full a) :
    Agree (decideWith A (sweeping A) swept a).1 (decideWith A keeping full a).1 := by
  unfold decideWith
  cases hswept : blocked A swept a with
  | true =>
    rw [h.blocked hswept]
    exact h
  | false =>
    cases hfull : blocked A full a with
    | false => exact (h.set a.key ⟨a.now, a.kind⟩).discard _
    | true =>
      -- only the sweeping gate lets it through, and at the very time on record
      unfold blocked at hswept hfull
      cases hget : full.get a.key with
      | none => simp [hget] at hfull
      | some e =>
        have hclose : A.age a.now e.time < a.cooldown a.kind := by simpa [hget] using hfull
        have hgone : swept.get a.key = none := by
          by_contra hsome
          obtain ⟨e', he'⟩ := Option.ne_none_iff_exists'.mp hsome
          obtain ⟨e'', he'', htime⟩ := h _ e' he'
          obtain rfl : e = e'' := Option.some.inj (hget.symm.trans he'')
          simp only [he', ← htime, decide_eq_false_iff_not] at hswept
          exact hswept hclose
        have hnow : e.time = a.now := by
          by_contra hne
          refine hearly ⟨hgone, e, hget, ?_, hclose⟩
          have := hpast e hget
          omega
        exact (h.set_left hget hnow).discard _

/-- An arrival let through early puts off the next one of its key. -/
theorem early_decide {swept full : Last κ τ} {a : Arrival κ τ} (h : Early A swept full a)
    (hfresh : A.age a.now a.now < a.cooldown a.kind) :
    (decideWith A (sweeping A) swept a).1.get a.key = some ⟨a.now, a.kind⟩ ∧
    (decideWith A keeping full a).1 = full := by
  obtain ⟨hgone, e, hget, -, hclose⟩ := h
  have hswept : blocked A swept a = false := by
    simp [blocked, hgone]
  have hfull : blocked A full a = true := by
    simp only [blocked, show full.get a.key = some e from hget, hclose, decide_true]
  have hkept : expired A a ⟨a.now, a.kind⟩ = false := by
    simp only [expired, decide_eq_false_iff_not]
    omega
  refine ⟨?_, ?_⟩
  · show (if blocked A swept a then (swept, false) else (sweeping A _ a, true)).1.get a.key = _
    rw [hswept, if_neg Bool.false_ne_true]
    show ((swept.set a.key ⟨a.now, a.kind⟩).discard fun _ e => expired A a e).get a.key = _
    rw [Table.get_discard, Table.get_set_self, Option.filter_some, hkept]
    rfl
  · show (if blocked A full a then (full, false) else (keeping _ a, true)).1 = _
    rw [hfull, if_pos rfl]

end Gate
end Cooldown
