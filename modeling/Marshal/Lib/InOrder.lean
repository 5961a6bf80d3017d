import Mathlib.Data.List.Forall2

/-! A list worked off in order, up to the first error.

A result belongs to each element exactly when the whole succeeds (`each_ok_iff`), and two
lists of results for one list are compared element by element. -/
namespace InOrder
variable {α β γ ε : Type*}

def each (f : α → Except ε β) : List α → Except ε (List β)
  | [] => .ok []
  | a :: rest => do
    let b ← f a
    let bs ← each f rest
    return b :: bs

theorem each_ok_iff {f : α → Except ε β} {as : List α} {bs : List β} :
    each f as = .ok bs ↔ List.Forall₂ (fun a b => f a = .ok b) as bs := by
  induction as generalizing bs with
  | nil => simp [each, List.forall₂_nil_left_iff, eq_comm]
  | cons a rest ih =>
    rw [List.forall₂_cons_left_iff]
    cases hfirst : f a with
    | error text => simp [each, hfirst, bind, Except.bind]
    | ok b =>
      cases hrest : each f rest with
      | error text =>
        simp only [each, hfirst, hrest, bind, Except.bind, reduceCtorEq, false_iff]
        rintro ⟨b', bs', -, hall, -⟩
        rw [← ih, hrest] at hall
        cases hall
      | ok done =>
        simp only [each, hfirst, hrest, bind, Except.bind, pure, Except.pure, Except.ok.injEq]
        constructor
        · rintro rfl
          exact ⟨b, done, rfl, ih.mp hrest, rfl⟩
        · rintro ⟨b', bs', rfl, hall, rfl⟩
          rw [← ih, hrest, Except.ok.injEq] at hall
          rw [hall]

/-- Each result is that of an element. -/
theorem mem_each {f : α → Except ε β} {as : List α} {bs : List β} (h : each f as = .ok bs) {b : β}
    (hb : b ∈ bs) : ∃ a ∈ as, f a = .ok b := by
  induction each_ok_iff.mp h with
  | nil => cases hb
  | @cons x y rest rest' hxy hrest ih =>
    rcases List.mem_cons.mp hb with rfl | hb
    · exact ⟨x, List.mem_cons_self, hxy⟩
    · obtain ⟨a, ha, hab⟩ := ih (each_ok_iff.mpr hrest) hb
      exact ⟨a, List.mem_cons_of_mem x ha, hab⟩

variable {R : α → β → Prop} {S : α → γ → Prop} {T : β → γ → Prop}

/-- One pass after the other is one pass. -/
theorem forall₂_comp_iff {P : γ → β → Prop} {as : List α} {bs : List β} :
    (∃ cs, List.Forall₂ S as cs ∧ List.Forall₂ P cs bs) ↔
      List.Forall₂ (fun a b => ∃ c, S a c ∧ P c b) as bs := by
  constructor
  · rintro ⟨cs, hS, hP⟩
    induction hS generalizing bs with
    | nil => cases hP; exact .nil
    | cons hac _ ih =>
      cases hP with
      | cons hcb hrest => exact .cons ⟨_, hac, hcb⟩ (ih hrest)
  · intro h
    induction h with
    | nil => exact ⟨[], .nil, .nil⟩
    | cons hab _ ih =>
      obtain ⟨c, hac, hcb⟩ := hab
      obtain ⟨cs, hS, hP⟩ := ih
      exact ⟨c :: cs, .cons hac hS, .cons hcb hP⟩

/-- Every element, with its two results. -/
theorem mem_forall₂ {as : List α} {bs : List β} {cs : List γ} (hR : List.Forall₂ R as bs)
    (hS : List.Forall₂ S as cs) (hT : List.Forall₂ T bs cs) {a : α} (ha : a ∈ as) :
    ∃ b c, R a b ∧ S a c ∧ T b c := by
  induction hR generalizing cs with
  | nil => cases ha
  | @cons x y rest rest' hxy _ ih =>
    cases hS with
    | cons hxz hSrest =>
      cases hT with
      | cons hyz hTrest =>
        rcases List.mem_cons.mp ha with rfl | ha
        · exact ⟨_, _, hxy, hxz, hyz⟩
        · exact ih hSrest hTrest ha

/-- Where each element has a second result that fits the first, so has the list. -/
theorem exists_forall₂ {as : List α} {bs : List β} (hR : List.Forall₂ R as bs)
    (h : ∀ a ∈ as, ∀ b, R a b → ∃ c, S a c ∧ T b c) :
    ∃ cs, List.Forall₂ S as cs ∧ List.Forall₂ T bs cs := by
  induction hR with
  | nil => exact ⟨[], .nil, .nil⟩
  | @cons x y rest rest' hxy _ ih =>
    obtain ⟨z, hxz, hyz⟩ := h x List.mem_cons_self y hxy
    obtain ⟨cs, hS, hT⟩ := ih fun a ha => h a (List.mem_cons_of_mem _ ha)
    exact ⟨z :: cs, .cons hxz hS, .cons hyz hT⟩

end InOrder
