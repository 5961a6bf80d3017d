import Marshal.Lib.Chars
import Mathlib.Data.List.Basic

/-! Texts joined by a separator.

A joined text is taken apart at its last separator, so the parts are determined where
the second one holds no separator of its own; or at its first, where the first one holds
none. `cut` and `cutLast` take it apart there. -/
namespace Separator

theorem split_last {α : Type*} {sep : α} {a b c d : List α} (hb : sep ∉ b) (hd : sep ∉ d)
    (h : a ++ sep :: b = c ++ sep :: d) : a = c ∧ b = d := by
  rcases List.append_eq_append_iff.mp h with ⟨e, rfl, he⟩ | ⟨e, rfl, he⟩
  · cases e with
    | nil => exact ⟨(List.append_nil a).symm, (List.cons.inj he).2⟩
    | cons x e =>
      have hrest : b = e ++ sep :: d := (List.cons.inj he).2
      exact absurd (by rw [hrest]; simp) hb
  · cases e with
    | nil => exact ⟨List.append_nil c, (List.cons.inj he).2.symm⟩
    | cons x e =>
      have hrest : d = e ++ sep :: b := (List.cons.inj he).2
      exact absurd (by rw [hrest]; simp) hd

theorem split_first {α : Type*} {sep : α} {a b c d : List α} (ha : sep ∉ a) (hc : sep ∉ c)
    (h : a ++ sep :: b = c ++ sep :: d) : a = c ∧ b = d := by
  rcases List.append_eq_append_iff.mp h with ⟨e, rfl, he⟩ | ⟨e, rfl, he⟩
  · cases e with
    | nil => exact ⟨(List.append_nil a).symm, (List.cons.inj he).2⟩
    | cons x e =>
      obtain rfl : sep = x := (List.cons.inj he).1
      exact absurd (by simp) hc
  · cases e with
    | nil => exact ⟨List.append_nil c, (List.cons.inj he).2.symm⟩
    | cons x e =>
      obtain rfl : sep = x := (List.cons.inj he).1
      exact absurd (by simp) ha

theorem append_inj {a b c d sep : String} {s : Char} (hsep : sep.toList = [s])
    (hb : s ∉ b.toList) (hd : s ∉ d.toList) (h : a ++ sep ++ b = c ++ sep ++ d) : a = c ∧ b = d := by
  have hlist : a.toList ++ s :: b.toList = c.toList ++ s :: d.toList := by
    have hchars := congrArg String.toList h
    simpa [hsep] using hchars
  obtain ⟨hac, hbd⟩ := split_last hb hd hlist
  exact ⟨String.toList_injective hac, String.toList_injective hbd⟩

/-! ### Taking apart -/

section Cut
variable {α : Type*} [DecidableEq α] {sep : α} {s a b : List α}

/-- What is before and after the first separator. -/
def cut (sep : α) : List α → Option (List α × List α)
  | [] => none
  | c :: s => if c = sep then some ([], s) else (cut sep s).map fun p => (c :: p.1, p.2)

/-- What is before and after the last separator. -/
def cutLast (sep : α) (s : List α) : Option (List α × List α) :=
  (cut sep s.reverse).map fun p => (p.2.reverse, p.1.reverse)

theorem cut_eq_none : cut sep s = none ↔ sep ∉ s := by
  induction s with
  | nil => simp [cut]
  | cons c s ih =>
    by_cases hc : c = sep
    · simp [cut, hc]
    · simp [cut, hc, ih, Ne.symm hc]

theorem cut_append (ha : sep ∉ a) (b : List α) : cut sep (a ++ sep :: b) = some (a, b) := by
  induction a with
  | nil => simp [cut]
  | cons c a ih =>
    rw [List.mem_cons, not_or] at ha
    rw [List.cons_append, cut, if_neg (Ne.symm ha.1), ih ha.2]
    rfl

theorem cut_eq_some : cut sep s = some (a, b) ↔ sep ∉ a ∧ s = a ++ sep :: b := by
  constructor
  · intro h
    induction s generalizing a with
    | nil => cases h
    | cons c s ih =>
      by_cases hc : c = sep
      · simp only [cut, hc, if_true, Option.some.injEq, Prod.mk.injEq] at h
        obtain ⟨rfl, rfl⟩ := h
        exact ⟨by simp, by simp [hc]⟩
      · simp only [cut, if_neg hc, Option.map_eq_some_iff] at h
        obtain ⟨⟨a', b'⟩, hcut, hab⟩ := h
        cases hab
        obtain ⟨hsep, rfl⟩ := ih hcut
        exact ⟨by simp [hsep, Ne.symm hc], rfl⟩
  · intro h
    obtain ⟨ha, rfl⟩ := h
    exact cut_append ha b

/-- What holds no separator stays in front. -/
theorem cut_front (ha : sep ∉ a) (s : List α) : cut sep (a ++ s) = (cut sep s).map fun p => (a ++ p.1, p.2) := by
  cases h : cut sep s with
  | none =>
    rw [cut_eq_none] at h
    exact cut_eq_none.mpr (by simp [ha, h])
  | some p =>
    obtain ⟨hp, rfl⟩ := cut_eq_some.mp h
    rw [← List.append_assoc]
    exact cut_append (by simp [ha, hp]) _

theorem cutLast_eq_none : cutLast sep s = none ↔ sep ∉ s := by
  rw [cutLast, Option.map_eq_none_iff, cut_eq_none, List.mem_reverse]

theorem cutLast_eq_some : cutLast sep s = some (a, b) ↔ sep ∉ b ∧ s = a ++ sep :: b := by
  rw [cutLast, Option.map_eq_some_iff]
  constructor
  · intro h
    obtain ⟨⟨c, d⟩, hcut, heq⟩ := h
    cases heq
    obtain ⟨hc, hs⟩ := cut_eq_some.mp hcut
    refine ⟨by simpa using hc, ?_⟩
    rw [← List.reverse_reverse s, hs]
    simp
  · intro h
    obtain ⟨hb, rfl⟩ := h
    refine ⟨(b.reverse, a.reverse), cut_eq_some.mpr ⟨by simpa using hb, by simp⟩, by simp⟩

theorem cutLast_append (hb : sep ∉ b) (a : List α) : cutLast sep (a ++ sep :: b) = some (a, b) :=
  cutLast_eq_some.mpr ⟨hb, rfl⟩

end Cut

end Separator
