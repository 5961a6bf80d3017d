/-! Exclusion by a busy flag per key.

Holders work under a key, and a flag per key says that it is taken. The flag keeps a
second holder out as long as it is up for every key that is held; a flag that is
lowered while its key is held lets one in. -/
namespace BusyFlag

/-- Every held key's flag is up, and no key is held twice. -/
structure Exclusive {ι κ : Type} (holds : ι → Option κ) (busy : κ → Prop) : Prop where
  up : ∀ i k, holds i = some k → busy k
  unique : ∀ i j k, holds i = some k → holds j = some k → i = j

section Exclusive
variable {ι κ : Type} {holds holds' : ι → Option κ} {busy busy' : κ → Prop}

/-- A holder that finds the flag down takes the key and raises it. -/
theorem Exclusive.acquire (h : Exclusive holds busy) {i : ι} {k : κ} (hdown : ¬ busy k)
    (hself : holds' i = some k) (hothers : ∀ j, j ≠ i → holds' j = holds j)
    (hup : busy' k) (hmono : ∀ l, busy l → busy' l) : Exclusive holds' busy' := by
  have hfree : ∀ j, j ≠ i → holds' j ≠ some k := by
    intro j hj hholds
    rw [hothers j hj] at hholds
    exact hdown (h.up j k hholds)
  refine ⟨?_, ?_⟩
  · intro j l hj
    by_cases hji : j = i
    · subst hji
      rw [hself] at hj
      cases hj
      exact hup
    · rw [hothers j hji] at hj
      exact hmono l (h.up j l hj)
  · intro j j' l hj hj'
    by_cases hji : j = i <;> by_cases hji' : j' = i
    · rw [hji, hji']
    · rw [hji, hself] at hj
      cases hj
      exact absurd hj' (hfree j' hji')
    · rw [hji', hself] at hj'
      cases hj'
      exact absurd hj (hfree j hji)
    · rw [hothers j hji] at hj
      rw [hothers j' hji'] at hj'
      exact h.unique j j' l hj hj'

/-- Nobody takes a key and no flag of a held key is lowered. -/
theorem Exclusive.mono (h : Exclusive holds busy) (hholds : ∀ i k, holds' i = some k → holds i = some k)
    (hbusy : ∀ i k, holds' i = some k → busy k → busy' k) : Exclusive holds' busy' := by
  refine ⟨?_, ?_⟩
  · intro i k hi
    exact hbusy i k hi (h.up i k (hholds i k hi))
  · intro i j k hi hj
    exact h.unique i j k (hholds i k hi) (hholds j k hj)

/-- A holder gives its key back and lowers the flag. -/
theorem Exclusive.release (h : Exclusive holds busy) {i : ι} {k : κ} (hheld : holds i = some k)
    (hself : holds' i = none) (hothers : ∀ j, j ≠ i → holds' j = holds j)
    (hbusy : ∀ l, l ≠ k → busy l → busy' l) : Exclusive holds' busy' := by
  have hback : ∀ j l, holds' j = some l → holds j = some l ∧ j ≠ i := by
    intro j l hj
    have hji : j ≠ i := by
      intro heq
      rw [heq, hself] at hj
      cases hj
    exact ⟨(hothers j hji).symm.trans hj, hji⟩
  refine h.mono (fun j l hj => (hback j l hj).1) ?_
  intro j l hj hl
  obtain ⟨hj, hji⟩ := hback j l hj
  refine hbusy l ?_ hl
  intro heq
  exact hji (h.unique j i k (heq ▸ hj) hheld)

/-- Somebody else lowers the flag of a key that is not held. -/
theorem Exclusive.lower (h : Exclusive holds busy) {k : κ} (hfree : ∀ i, holds i ≠ some k)
    (hbusy : ∀ l, l ≠ k → busy l → busy' l) : Exclusive holds busy' := by
  refine h.mono (fun _ _ hi => hi) ?_
  intro i l hi hl
  refine hbusy l ?_ hl
  intro heq
  exact hfree i (heq ▸ hi)

end Exclusive
end BusyFlag
