import Mathlib.Data.List.Nodup
import Marshal.Lib.Table

/-! Lists read by a key, and tables kept beside them.

`first key l k` is the first entry of `l` under the key `k`. Where no two entries share a
key it is the only one. A table that is told of one entry after the other holds, under
each key, what the last entry told of there gives (`get_foldl`). -/
namespace Keyed
variable {α κ : Type*} [DecidableEq κ] (key : α → κ)

def first (l : List α) (k : κ) : Option α := l.find? fun a => key a == k

variable {key}

theorem first_append (l l' : List α) (k : κ) :
    first key (l ++ l') k = (first key l k).or (first key l' k) :=
  List.find?_append

theorem first_singleton (a : α) (k : κ) :
    first key [a] k = if key a = k then some a else none := by
  unfold first
  rw [List.find?_singleton]
  simp only [beq_iff_eq]

theorem first_cons (a : α) (l : List α) (k : κ) :
    first key (a :: l) k = if key a = k then some a else first key l k := by
  show first key ([a] ++ l) k = _
  rw [first_append, first_singleton]
  split <;> rfl

theorem mem_of_first {l : List α} {k : κ} {a : α} (h : first key l k = some a) : a ∈ l ∧ key a = k :=
  ⟨List.mem_of_find?_eq_some h, by simpa using (List.find?_eq_some_iff_append.mp h).1⟩

theorem first_eq_none {l : List α} {k : κ} : first key l k = none ↔ ∀ a ∈ l, key a ≠ k := by
  unfold first
  simp only [List.find?_eq_none, beq_iff_eq, ne_eq]

/-- Keys that are given once tell the entries apart. -/
theorem first_eq_some {l : List α} (h : (l.map key).Nodup) {k : κ} {a : α} :
    first key l k = some a ↔ a ∈ l ∧ key a = k := by
  refine ⟨mem_of_first, ?_⟩
  intro hmem
  obtain ⟨ha, rfl⟩ := hmem
  cases hfirst : first key l (key a) with
  | none => exact absurd rfl (first_eq_none.mp hfirst a ha)
  | some b =>
    obtain ⟨hb, hkey⟩ := mem_of_first hfirst
    rw [List.inj_on_of_nodup_map h hb ha hkey]

/-- Then their order does not matter. -/
theorem first_perm {l l' : List α} (h : (l.map key).Nodup) (hperm : l.Perm l') (k : κ) :
    first key l k = first key l' k := by
  have h' : (l'.map key).Nodup := (hperm.map key).nodup_iff.mp h
  ext a
  rw [first_eq_some h, first_eq_some h', hperm.mem_iff]

/-- An association list is read by its keys. -/
theorem lookup_eq_first {ν : Type*} (l : List (κ × ν)) (k : κ) :
    l.lookup k = (first Prod.fst l k).map Prod.snd := by
  induction l with
  | nil => rfl
  | cons e rest ih =>
    obtain ⟨k', v⟩ := e
    rw [first_cons, List.lookup_cons, ih]
    by_cases h : k = k'
    · simp [h]
    · have hne : (k == k') = false := by simpa using h
      simp [hne, Ne.symm h]

theorem lookup_eq_some_iff {ν : Type*} {l : List (κ × ν)} (h : (l.map Prod.fst).Nodup) {k : κ} {v : ν} :
    l.lookup k = some v ↔ (k, v) ∈ l := by
  rw [lookup_eq_first, Option.map_eq_some_iff]
  constructor
  · rintro ⟨e, he, rfl⟩
    obtain ⟨hmem, rfl⟩ := mem_of_first he
    exact hmem
  · intro hmem
    exact ⟨(k, v), (first_eq_some h).mpr ⟨hmem, rfl⟩, rfl⟩

/-- A table under which each entry sets its own key holds what the last entry of a key sets. -/
theorem get_foldl {τ ν : Type*} {put : τ → α → τ} {get : τ → κ → ν} {value : α → ν}
    (hput : ∀ t a k, get (put t a) k = if k = key a then value a else get t k) (l : List α) (t : τ)
    (k : κ) : get (l.foldl put t) k = ((first key l.reverse k).map value).getD (get t k) := by
  induction l generalizing t with
  | nil => rfl
  | cons a rest ih =>
    rw [List.foldl_cons, ih, hput, List.reverse_cons, first_append, first_singleton]
    cases first key rest.reverse k with
    | some b => rfl
    | none =>
      by_cases h : k = key a
      · simp [h]
      · simp [h, Ne.symm h]

/-- A table made of entries with distinct keys holds just these. -/
theorem get_foldl_set {α κ ν : Type} [DecidableEq κ] {key : α → κ} (value : α → ν) {l : List α}
    (h : (l.map key).Nodup) {k : κ} {v : ν} :
    (l.foldl (fun t a => t.set (key a) (value a)) (∅ : Table κ ν)).get k = some v ↔
      ∃ a ∈ l, key a = k ∧ value a = v := by
  have hnodup : (l.reverse.map key).Nodup := by
    rw [List.map_reverse]
    exact List.nodup_reverse.mpr h
  have hfold := @get_foldl _ _ _ key (Table κ ν) (Option ν) (fun t a => t.set (key a) (value a)) Table.get
    (fun a => some (value a)) (fun t a k => Table.get_set t (key a) k (value a)) l ∅ k
  rw [hfold]
  constructor
  · intro hsome
    cases hfirst : first key l.reverse k with
    | none =>
      rw [hfirst] at hsome
      cases hsome
    | some a =>
      obtain ⟨ha, hkey⟩ := mem_of_first hfirst
      rw [hfirst] at hsome
      exact ⟨a, List.mem_reverse.mp ha, hkey, Option.some.inj hsome⟩
  · intro hmem
    obtain ⟨a, ha, hkey, hvalue⟩ := hmem
    rw [(first_eq_some hnodup).mpr ⟨List.mem_reverse.mpr ha, hkey⟩, ← hvalue]
    rfl

end Keyed
