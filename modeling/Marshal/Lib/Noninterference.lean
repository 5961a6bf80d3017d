import Mathlib.Data.List.Basic

/-! Noninterference by unwinding.

A deterministic machine answers each operation. `outputs` are the answers to the
observed operations of a sequence. `Unwinding` says of a view of the state that
invisible operations leave it alone and that visible ones depend on it only; then
the invisible operations can be taken out of any sequence without changing what
is observed (`outputs_filter`). -/
namespace Noninterference

variable {σ α β ν : Type*} (step : σ → α → σ × β)

/-- The answers to the observed operations, in order. -/
def outputs (observed : α → Bool) (s : σ) : List α → List β
  | [] => []
  | a :: rest =>
    let tail := outputs observed (step s a).1 rest
    if observed a then (step s a).2 :: tail else tail

structure Unwinding (observed visible : α → Bool) (view : σ → ν) : Prop where
  observed_visible : ∀ a, observed a = true → visible a = true
  invisible : ∀ s a, visible a = false → view (step s a).1 = view s
  next : ∀ s t a, visible a = true → view s = view t → view (step s a).1 = view (step t a).1
  answer : ∀ s t a, observed a = true → view s = view t → (step s a).2 = (step t a).2

variable {step} {observed visible : α → Bool} {view : σ → ν}

/-- The invisible operations leave no trace in what is observed. -/
theorem Unwinding.outputs_filter (U : Unwinding step observed visible view) (s t : σ)
    (h : view s = view t) (as : List α) :
    outputs step observed s as = outputs step observed t (as.filter visible) := by
  induction as generalizing s t with
  | nil => rfl
  | cons a rest ih =>
    cases hv : visible a with
    | false =>
      have ho : observed a = false := by
        cases ho : observed a with
        | false => rfl
        | true => exact absurd (U.observed_visible a ho) (by simp [hv])
      simp only [List.filter_cons, hv, outputs, ho, Bool.false_eq_true, if_false]
      exact ih _ t ((U.invisible s a hv).trans h)
    | true =>
      have htail := ih _ _ (U.next s t a hv h)
      simp only [List.filter_cons, hv, outputs, if_true, htail]
      cases ho : observed a with
      | false => rfl
      | true => simp only [if_true, U.answer s t a ho h]

/-- Sequences that differ in invisible operations only are observed alike. -/
theorem Unwinding.outputs_congr (U : Unwinding step observed visible view) (s : σ) (as bs : List α)
    (h : as.filter visible = bs.filter visible) :
    outputs step observed s as = outputs step observed s bs := by
  rw [U.outputs_filter s s rfl as, U.outputs_filter s s rfl bs, h]

end Noninterference
