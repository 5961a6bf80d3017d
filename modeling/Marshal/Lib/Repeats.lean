import Mathlib.Data.List.Basic

/-! Lists put together from parts.

Each part is written down some times, and each time without a blank at its end. What is
written is the parts, one after the other, exactly if nothing but blanks is written twice
and the blanks written too often make up, between any two parts with something else in
them, for those left out (`written_eq_iff`). -/
namespace Repeats
variable {α : Type*} [DecidableEq α] (b : α)

/-- The part without a blank at its end. -/
def chop (t : List α) : List α := if t.getLast? = some b then t.dropLast else t

def whole (parts : List (List α × Nat)) : List α := parts.flatMap Prod.fst

/-- Every part as often as it is written. -/
def written (parts : List (List α × Nat)) : List α :=
  parts.flatMap fun e => (List.replicate e.2 (chop b e.1)).flatten

/-- How many blanks are missing of a part of blanks that is written `k` times. -/
def missing (t : List α) (k : Nat) : Int := t.length - (k * (t.length - 1) : Nat)

/-- With `d` blanks missing so far, none is in the end. -/
def Balanced : Int → List (List α × Nat) → Prop
  | d, [] => d = 0
  | d, (t, k) :: rest =>
    if ∀ x ∈ t, x = b then Balanced (d + missing t k) rest
    else d = 0 ∧ k = 1 ∧ Balanced (if t.getLast? = some b then 1 else 0) rest

instance decidableBalanced : (d : Int) → (parts : List (List α × Nat)) → Decidable (Balanced b d parts)
  | d, [] => inferInstanceAs (Decidable (d = 0))
  | d, (t, k) :: rest =>
    have := decidableBalanced (d + missing t k) rest
    have := decidableBalanced (if t.getLast? = some b then 1 else 0) rest
    inferInstanceAs (Decidable (if ∀ x ∈ t, x = b then Balanced b (d + missing t k) rest
      else d = 0 ∧ k = 1 ∧ Balanced b (if t.getLast? = some b then 1 else 0) rest))

variable {b}

/-! ### Parts -/

theorem chop_concat (t : List α) : chop b (t ++ [b]) = t := by
  simp [chop]

theorem chop_other {x : α} (hx : x ≠ b) (t : List α) : chop b (t ++ [x]) = t ++ [x] := by
  simp [chop, hx]

theorem chop_blank (m : Nat) : chop b (List.replicate m b) = List.replicate (m - 1) b := by
  cases m with
  | zero => rfl
  | succ m => rw [List.replicate_succ', chop_concat, Nat.add_sub_cancel]

/-- What stands behind an element that is no blank is chopped by itself. -/
theorem chop_cons {x : α} (hx : x ≠ b) (l u : List α) : chop b (l ++ x :: u) = l ++ x :: chop b u := by
  rcases List.eq_nil_or_concat' u with rfl | ⟨u, y, rfl⟩
  · exact chop_other hx l
  · have hend : l ++ x :: (u ++ [y]) = (l ++ x :: u) ++ [y] := by simp
    rw [hend]
    by_cases hy : y = b
    · subst hy
      rw [chop_concat, chop_concat]
    · rw [chop_other hy, chop_other hy]
      simp

omit [DecidableEq α] in
theorem getLast?_cons {x : α} (hx : x ≠ b) (l u : List α) :
    (l ++ x :: u).getLast? = some b ↔ u.getLast? = some b := by
  rcases List.eq_nil_or_concat' u with rfl | ⟨u, y, rfl⟩
  · simp [hx]
  · have hend : l ++ x :: (u ++ [y]) = (l ++ x :: u) ++ [y] := by simp
    rw [hend, List.getLast?_concat, List.getLast?_concat]

theorem chop_append (t : List α) :
    chop b t ++ List.replicate (if t.getLast? = some b then 1 else 0) b = t := by
  rcases List.eq_nil_or_concat' t with rfl | ⟨t, y, rfl⟩
  · rfl
  · by_cases hy : y = b
    · subst hy
      simp [chop_concat]
    · simp [chop_other hy, hy]

/-- A part has blanks only, or some before its first other element. -/
theorem part_cases (b : α) (t : List α) : t = List.replicate t.length b ∨
    ∃ p x u, x ≠ b ∧ t = List.replicate p b ++ x :: u := by
  induction t with
  | nil => exact Or.inl rfl
  | cons y t ih =>
    by_cases hy : y = b
    · subst hy
      rcases ih with hblank | ⟨p, x, u, hx, rfl⟩
      · left
        rw [List.length_cons, List.replicate_succ, ← hblank]
      · exact Or.inr ⟨p + 1, x, u, hx, rfl⟩
    · exact Or.inr ⟨0, y, t, hy, rfl⟩

omit [DecidableEq α] in
theorem replicate_append_inj {x : α} (hx : x ≠ b) {i j : Nat} {l l' : List α} :
    List.replicate i b ++ x :: l = List.replicate j b ++ x :: l' ↔ i = j ∧ l = l' := by
  induction i generalizing j with
  | zero =>
    cases j with
    | zero => simp
    | succ j => simp [List.replicate_succ, hx]
  | succ i ih =>
    cases j with
    | zero => simp [List.replicate_succ, Ne.symm hx]
    | succ j => simpa [List.replicate_succ] using ih

/-! ### What is written -/

def others (b : α) (l : List α) : Nat := l.countP (· ≠ b)

theorem others_chop (t : List α) : others b (chop b t) = others b t := by
  conv => rhs; rw [← chop_append (b := b) t]
  unfold others
  rw [List.countP_append, List.countP_replicate]
  simp

/-- Nothing but blanks gets lost. -/
theorem others_le {parts : List (List α × Nat)} (h : ∀ e ∈ parts, 0 < e.2) :
    others b (whole parts) ≤ others b (written b parts) := by
  unfold whole written others
  induction parts with
  | nil => exact Nat.le_refl _
  | cons e rest ih =>
    rw [List.flatMap_cons, List.flatMap_cons, List.countP_append, List.countP_append]
    refine Nat.add_le_add ?_ (ih fun e he => h e (List.mem_cons_of_mem _ he))
    rw [List.countP_flatten, List.map_replicate, List.sum_replicate_nat]
    calc others b e.1 = others b (chop b e.1) := (others_chop e.1).symm
      _ ≤ e.2 * others b (chop b e.1) := Nat.le_mul_of_pos_left _ (h e List.mem_cons_self)

/-- A part that is written twice with something else than blanks in it is written too often. -/
theorem written_ne {t : List α} {k : Nat} {rest : List (List α × Nat)} (h : ∀ e ∈ rest, 0 < e.2) {x : α}
    (hx : x ∈ t) (hother : x ≠ b) (hk : 2 ≤ k) (i j : Nat) :
    List.replicate i b ++ written b ((t, k) :: rest) ≠ List.replicate j b ++ whole ((t, k) :: rest) := by
  intro heq
  have hcount := congrArg (others b) heq
  have hrest := others_le (b := b) h
  have hpos : 0 < others b t := List.countP_pos_iff.mpr ⟨x, hx, by simpa using hother⟩
  have htwice : 2 * others b t ≤ k * others b t := Nat.mul_le_mul_right _ hk
  have hwritten : others b (written b ((t, k) :: rest)) = k * others b t + others b (written b rest) := by
    unfold written others
    rw [List.flatMap_cons, List.countP_append, List.countP_flatten, List.map_replicate, List.sum_replicate_nat]
    congr 2
    exact others_chop t
  have hwhole : others b (whole ((t, k) :: rest)) = others b t + others b (whole rest) := by
    unfold whole others
    rw [List.flatMap_cons, List.countP_append]
  have hblank : ∀ m, others b (List.replicate m b) = 0 := by
    intro m
    unfold others
    rw [List.countP_replicate]
    simp
  unfold others at hcount
  rw [List.countP_append, List.countP_append] at hcount
  have hi := hblank i
  have hj := hblank j
  unfold others at *
  omega

/-- Of a part of blanks only, each time the last one is left out. -/
theorem written_blank {t : List α} (hblank : t = List.replicate t.length b) (k : Nat)
    (rest : List (List α × Nat)) :
    written b ((t, k) :: rest) = List.replicate (k * (t.length - 1)) b ++ written b rest := by
  unfold written
  rw [List.flatMap_cons]
  conv => lhs; rw [hblank]
  rw [chop_blank, List.flatten_replicate_replicate]

/-- The last blank of a part stands before what is written next. -/
theorem chop_written_iff (u : List α) (rest : List (List α × Nat)) :
    chop b u ++ written b rest = u ++ whole rest ↔
      written b rest = List.replicate (if u.getLast? = some b then 1 else 0) b ++ whole rest := by
  conv => lhs; rhs; rw [← chop_append (b := b) u, List.append_assoc]
  rw [List.append_cancel_left_eq]

/-- The same with blanks in front. -/
theorem blanks_written_iff {parts : List (List α × Nat)} (h : ∀ e ∈ parts, 0 < e.2) (i j : Nat) :
    List.replicate i b ++ written b parts = List.replicate j b ++ whole parts ↔
      Balanced b ((j : Int) - i) parts := by
  induction parts generalizing i j with
  | nil =>
    simp [written, whole, Balanced]
    omega
  | cons e rest ih =>
    obtain ⟨t, k⟩ := e
    have hrest : ∀ e ∈ rest, 0 < e.2 := fun e he => h e (List.mem_cons_of_mem _ he)
    have hk : 0 < k := h (t, k) List.mem_cons_self
    unfold Balanced
    rcases part_cases b t with hblank | ⟨p, x, u, hx, rfl⟩
    · have hall : ∀ x ∈ t, x = b := by
        rw [hblank]
        exact fun x hx => List.eq_of_mem_replicate hx
      have hwhole : whole ((t, k) :: rest) = List.replicate t.length b ++ whole rest := by
        rw [← hblank]
        rfl
      have hmissing : (j : Int) - i + missing t k =
          ((j + t.length : Nat) : Int) - (i + k * (t.length - 1) : Nat) := by
        unfold missing
        generalize k * (t.length - 1) = c
        omega
      rw [if_pos hall, hmissing, ← ih hrest, written_blank hblank, hwhole, ← List.append_assoc,
        ← List.append_assoc, List.replicate_append_replicate, List.replicate_append_replicate]
    · have hmem : x ∈ List.replicate p b ++ x :: u := List.mem_append_right _ List.mem_cons_self
      rw [if_neg fun hall => hx (hall x hmem)]
      by_cases hone : k = 1
      · subst hone
        have hwritten : List.replicate i b ++ written b ((List.replicate p b ++ x :: u, 1) :: rest) =
            List.replicate (i + p) b ++ x :: (chop b u ++ written b rest) := by
          unfold written
          rw [List.flatMap_cons, List.replicate_one, List.flatten_singleton, chop_cons hx, List.append_assoc,
            ← List.append_assoc, List.replicate_append_replicate, List.cons_append]
        have hwhole : List.replicate j b ++ whole ((List.replicate p b ++ x :: u, 1) :: rest) =
            List.replicate (j + p) b ++ x :: (u ++ whole rest) := by
          unfold whole
          rw [List.flatMap_cons, List.append_assoc, ← List.append_assoc, List.replicate_append_replicate,
            List.cons_append]
        have hsame := ih hrest 0 (if u.getLast? = some b then 1 else 0)
        rw [List.replicate_zero, List.nil_append] at hsame
        have hlast : ((if u.getLast? = some b then 1 else 0 : Nat) : Int) - (0 : Nat) =
            if u.getLast? = some b then 1 else 0 := by split <;> rfl
        rw [hlast] at hsame
        have hij : i + p = j + p ↔ (j : Int) - i = 0 := by omega
        rw [hwritten, hwhole, replicate_append_inj hx, chop_written_iff, hsame, hij]
        simp only [getLast?_cons hx, true_and]
      · have htwice : 2 ≤ k := by omega
        constructor
        · intro heq
          exact absurd heq (written_ne hrest hmem hx htwice i j)
        · rintro ⟨-, hone', -⟩
          exact absurd hone' hone

/-- **What is written is the parts exactly if the blanks are balanced.** -/
theorem written_eq_iff {parts : List (List α × Nat)} (h : ∀ e ∈ parts, 0 < e.2) :
    written b parts = whole parts ↔ Balanced b 0 parts :=
  blanks_written_iff h 0 0

end Repeats
