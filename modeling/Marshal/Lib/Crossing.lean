import Mathlib.Data.List.Induction

/-! Going into a region and out of it.

A state steps along a list of actions. Each step goes into the region, out of it, or
neither. The last state is inside exactly when some step went in and none after it went
out (`foldl_inside_iff`). -/
namespace Crossing
variable {σ α : Type*} {f : σ → α → σ} {Inside : σ → Prop} {Enters Leaves : σ → α → Prop}

/-- Some step went in, and none after it went out. -/
def Stays (f : σ → α → σ) (Enters Leaves : σ → α → Prop) (s : σ) (as : List α) : Prop :=
  ∃ before a after, as = before ++ a :: after ∧ Enters (before.foldl f s) a ∧
    ∀ b x c, after = b ++ x :: c → ¬ Leaves ((before ++ a :: b).foldl f s) x

theorem stays_concat {s : σ} {as : List α} {a : α} :
    Stays f Enters Leaves s (as ++ [a]) ↔
      Enters (as.foldl f s) a ∨ Stays f Enters Leaves s as ∧ ¬ Leaves (as.foldl f s) a := by
  constructor
  · rintro ⟨before, x, after, hsplit, hin, hstay⟩
    rcases List.eq_nil_or_concat after with rfl | ⟨after, y, rfl⟩
    · obtain ⟨rfl, hx⟩ := List.append_inj' hsplit rfl
      obtain rfl : a = x := by simpa using hx
      exact .inl hin
    · simp only [List.concat_eq_append] at hsplit hstay
      rw [← List.cons_append, ← List.append_assoc] at hsplit
      obtain ⟨rfl, hy⟩ := List.append_inj' hsplit rfl
      obtain rfl : a = y := by simpa using hy
      refine .inr ⟨⟨before, x, after, rfl, hin, fun b z c hafter => ?_⟩, hstay after a [] rfl⟩
      exact hstay b z (c ++ [a]) (by simp [hafter])
  · rintro (hin | ⟨⟨before, x, after, rfl, hin, hstay⟩, hlast⟩)
    · exact ⟨as, a, [], rfl, hin, by simp⟩
    · refine ⟨before, x, after ++ [a], by simp, hin, fun b z c hafter => ?_⟩
      rcases List.eq_nil_or_concat c with rfl | ⟨c, y, rfl⟩
      · obtain ⟨rfl, hz⟩ := List.append_inj' hafter rfl
        obtain rfl : a = z := by simpa using hz
        exact hlast
      · rw [List.concat_eq_append, ← List.cons_append, ← List.append_assoc] at hafter
        exact hstay b z c (List.append_inj' hafter rfl).1

theorem foldl_inside_iff
    (hstep : ∀ s a, Inside (f s a) ↔ Enters s a ∨ Inside s ∧ ¬ Leaves s a) {s : σ}
    (hs : ¬ Inside s) (as : List α) : Inside (as.foldl f s) ↔ Stays f Enters Leaves s as := by
  induction as using List.reverseRecOn with
  | nil => simpa [Stays] using hs
  | append_singleton as a ih =>
    rw [List.foldl_append, List.foldl_cons, List.foldl_nil, hstep, ih, stays_concat]

end Crossing
