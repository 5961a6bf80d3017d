import Mathlib.Data.List.Induction
import Mathlib.Tactic.Tauto
import Marshal.Lib.Keyed

/-! Elements rolled up by key in one pass.

The first element of a key begins an entry behind the others, and every element of the
key goes into it. The entry of a key then is what the key's own elements give, in their
order, whatever elements of other keys stand between them. -/
namespace Rollup
open Keyed

variable {α κ ν : Type*} [DecidableEq κ] (key : α → κ) (start : α → ν) (next : ν → α → ν)

/-- One more element. -/
def add (entries : List (κ × ν)) (x : α) : List (κ × ν) :=
  match entries with
  | [] => [(key x, next (start x) x)]
  | e :: rest => if e.1 = key x then (e.1, next e.2 x) :: rest else e :: add rest x

def group (xs : List α) (k : κ) : List α := xs.filter fun x => key x = k

/-- What the elements of one key give. -/
def total : List α → Option ν
  | [] => none
  | x :: rest => some ((x :: rest).foldl next (start x))

variable {key start next}

theorem mem_group {xs : List α} {k : κ} {x : α} : x ∈ group key xs k ↔ x ∈ xs ∧ key x = k := by
  simp [group]

theorem total_append_singleton (xs : List α) (x : α) :
    total start next (xs ++ [x]) = some (next ((total start next xs).getD (start x)) x) := by
  cases xs with
  | nil => rfl
  | cons y rest => simp [total]

theorem first_add (entries : List (κ × ν)) (x : α) (k : κ) :
    (first Prod.fst (add key start next entries x) k).map Prod.snd =
      if key x = k then
        some (next (((first Prod.fst entries k).map Prod.snd).getD (start x)) x)
      else (first Prod.fst entries k).map Prod.snd := by
  induction entries with
  | nil =>
    rw [add, first_singleton]
    split <;> rfl
  | cons e rest ih =>
    by_cases he : e.1 = key x
    · rw [add, if_pos he, first_cons, first_cons, he]
      split <;> rfl
    · rw [add, if_neg he, first_cons, first_cons]
      by_cases hk : e.1 = k
      · rw [if_pos hk, if_pos hk, if_neg fun h => he (hk.trans h.symm)]
      · rw [if_neg hk, if_neg hk, ih]

theorem mem_keys_add {entries : List (κ × ν)} {x : α} {k : κ} :
    k ∈ (add key start next entries x).map Prod.fst ↔ k ∈ entries.map Prod.fst ∨ k = key x := by
  induction entries with
  | nil => simp [add]
  | cons e rest ih =>
    by_cases he : e.1 = key x
    · rw [add, if_pos he]
      simp only [List.map_cons, List.mem_cons, he]
      tauto
    · rw [add, if_neg he]
      simp only [List.map_cons, List.mem_cons, ih]
      tauto

theorem nodup_add {entries : List (κ × ν)} {x : α} (h : (entries.map Prod.fst).Nodup) :
    ((add key start next entries x).map Prod.fst).Nodup := by
  induction entries with
  | nil => simp [add]
  | cons e rest ih =>
    obtain ⟨he, hrest⟩ := List.nodup_cons.mp h
    by_cases hx : e.1 = key x
    · rw [add, if_pos hx]
      exact h
    · rw [add, if_neg hx]
      refine List.nodup_cons.mpr ⟨fun hmem => ?_, ih hrest⟩
      rcases mem_keys_add.mp hmem with hmem | heq
      · exact he hmem
      · exact hx heq

/-- The keys are given once. -/
theorem nodup_foldl (xs : List α) : ((xs.foldl (add key start next) []).map Prod.fst).Nodup := by
  induction xs using List.reverseRecOn with
  | nil => exact List.nodup_nil
  | append_singleton xs x ih =>
    rw [List.foldl_append]
    exact nodup_add ih

/-- The entry of a key is what its elements give. -/
theorem first_foldl (xs : List α) (k : κ) :
    (first Prod.fst (xs.foldl (add key start next) []) k).map Prod.snd =
      total start next (group key xs k) := by
  induction xs using List.reverseRecOn with
  | nil => rfl
  | append_singleton xs x ih =>
    rw [List.foldl_append, List.foldl_cons, List.foldl_nil, first_add, ih]
    by_cases hx : key x = k
    · have hgroup : group key (xs ++ [x]) k = group key xs k ++ [x] := by simp [group, hx]
      rw [if_pos hx, hgroup, total_append_singleton]
    · have hgroup : group key (xs ++ [x]) k = group key xs k := by simp [group, hx]
      rw [if_neg hx, hgroup]

theorem mem_foldl {xs : List α} {e : κ × ν} :
    e ∈ xs.foldl (add key start next) [] ↔ total start next (group key xs e.1) = some e.2 := by
  rw [← first_foldl, Option.map_eq_some_iff]
  constructor
  · intro h
    exact ⟨e, (first_eq_some (nodup_foldl xs)).mpr ⟨h, rfl⟩, rfl⟩
  · rintro ⟨e', hfirst, hval⟩
    obtain ⟨hmem, hkey⟩ := mem_of_first hfirst
    rwa [← Prod.ext hkey hval]

theorem exists_foldl {xs : List α} {x : α} (h : x ∈ xs) :
    ∃ e ∈ xs.foldl (add key start next) [], e.1 = key x := by
  have hmem : x ∈ group key xs (key x) := mem_group.mpr ⟨h, rfl⟩
  obtain ⟨y, rest, hgroup⟩ := List.exists_cons_of_ne_nil (List.ne_nil_of_mem hmem)
  refine ⟨(key x, (y :: rest).foldl next (start y)), mem_foldl.mpr ?_, rfl⟩
  rw [hgroup]
  rfl

end Rollup
