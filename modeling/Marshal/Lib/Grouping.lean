import Mathlib.Order.Lattice
import Mathlib.Data.List.Nodup

/-! A batch handled key by key, smallest key first.

`keys` are the distinct keys of a list in ascending order and `pick` the elements of
one key. Going through all the keys meets every element once and in key order; going
through the first few meets the elements with the smallest keys. -/
namespace Grouping

variable {α τ : Type*} [LinearOrder τ] [BEq τ] [LawfulBEq τ] (key : α → τ)

def keys (xs : List α) : List τ := ((xs.map key).eraseDups).mergeSort fun a b => decide (a ≤ b)

def pick (xs : List α) (k : τ) : List α := xs.filter fun x => decide (key x = k)

section
omit [LinearOrder τ]

theorem nodup_eraseDups : (ks : List τ) → ks.eraseDups.Nodup
  | [] => List.nodup_nil
  | k :: rest => by
    rw [List.eraseDups_cons, List.nodup_cons]
    refine ⟨fun hk => ?_, nodup_eraseDups _⟩
    simpa using List.mem_eraseDups.mp hk
termination_by ks => ks.length
decreasing_by exact Nat.lt_succ_of_le (List.length_filter_le ..)

end

variable {key} {xs : List α} {x y : α} {n : Nat}

theorem mem_keys {k : τ} : k ∈ keys key xs ↔ ∃ x ∈ xs, key x = k := by
  rw [keys, List.mem_mergeSort, List.mem_eraseDups, List.mem_map]

/-- The keys ascend strictly. -/
theorem keys_sorted (xs : List α) : (keys key xs).Pairwise (· < ·) := by
  have hle : (keys key xs).Pairwise fun a b => decide (a ≤ b) = true := List.pairwise_mergeSort
    (fun a b c hab hbc => by simpa using (of_decide_eq_true hab).trans (of_decide_eq_true hbc))
    (fun a b => by simpa using le_total a b) ((xs.map key).eraseDups)
  have hne : (keys key xs).Nodup := (List.mergeSort_perm _ _).nodup_iff.mpr (nodup_eraseDups _)
  exact (hle.and hne).imp fun h => lt_of_le_of_ne (of_decide_eq_true h.1) h.2

omit [BEq τ] [LawfulBEq τ] in
@[simp] theorem mem_pick {k : τ} : x ∈ pick key xs k ↔ x ∈ xs ∧ key x = k := by simp [pick]

omit [BEq τ] [LawfulBEq τ] in
theorem flatMap_pick_perm {ks : List τ} (hks : ks.Nodup) (hkey : ∀ x ∈ xs, key x ∈ ks) :
    (ks.flatMap (pick key xs)).Perm xs := by
  induction ks generalizing xs with
  | nil =>
    obtain rfl : xs = [] := List.eq_nil_iff_forall_not_mem.mpr fun x hx => by simpa using hkey x hx
    rfl
  | cons k rest ih =>
    obtain ⟨hk, hrest⟩ := List.nodup_cons.mp hks
    rw [List.flatMap_cons]
    -- what the first key leaves is what the other keys pick from
    have hothers : rest.flatMap (pick key xs) = rest.flatMap (pick key (xs.filter fun x => !decide (key x = k))) := by
      refine List.flatMap_congr fun l hl => ?_
      simp only [pick, List.filter_filter]
      refine List.filter_congr fun x _ => ?_
      have hlk : l ≠ k := fun h => hk (h ▸ hl)
      by_cases hx : key x = l <;> simp [hx, hlk]
    have hleft : ∀ x ∈ xs.filter fun x => !decide (key x = k), key x ∈ rest := by
      intro x hx
      obtain ⟨hmem, hne⟩ := List.mem_filter.mp hx
      exact (List.mem_cons.mp (hkey x hmem)).resolve_left (by simpa using hne)
    rw [hothers]
    exact ((ih hrest hleft).append_left _).trans (List.filter_append_perm _ _)

/-- All the keys together meet every element once. -/
theorem flatMap_keys_perm (xs : List α) : ((keys key xs).flatMap (pick key xs)).Perm xs :=
  flatMap_pick_perm ((keys_sorted xs).imp ne_of_lt) fun x hx => mem_keys.mpr ⟨x, hx, rfl⟩

/-- The elements are met in key order. -/
theorem flatMap_take_sorted (xs : List α) (n : Nat) :
    (((keys key xs).take n).flatMap (pick key xs)).Pairwise fun x y => key x ≤ key y := by
  rw [List.pairwise_flatMap]
  constructor
  · intro k _
    refine List.pairwise_of_forall_mem_list fun x hx y hy => ?_
    rw [(mem_pick.mp hx).2, (mem_pick.mp hy).2]
  · refine ((keys_sorted xs).sublist (List.take_sublist n _)).imp fun {a b} hab x hx y hy => ?_
    rw [(mem_pick.mp hx).2, (mem_pick.mp hy).2]
    exact hab.le

omit [LawfulBEq τ] in
theorem mem_flatMap_take : x ∈ ((keys key xs).take n).flatMap (pick key xs) ↔
    x ∈ xs ∧ key x ∈ (keys key xs).take n := by
  simp only [List.mem_flatMap, mem_pick]
  constructor
  · rintro ⟨k, hk, hx, rfl⟩
    exact ⟨hx, hk⟩
  · rintro ⟨hx, hk⟩
    exact ⟨key x, hk, hx, rfl⟩

/-- With an element, the first few keys meet every element of a smaller key. -/
theorem mem_flatMap_take_of_le (hx : x ∈ ((keys key xs).take n).flatMap (pick key xs)) (hy : y ∈ xs)
    (hyx : key y ≤ key x) : y ∈ ((keys key xs).take n).flatMap (pick key xs) := by
  rw [mem_flatMap_take] at hx ⊢
  refine ⟨hy, ?_⟩
  have hall : key y ∈ (keys key xs).take n ++ (keys key xs).drop n := by
    rw [List.take_append_drop]
    exact mem_keys.mpr ⟨y, hy, rfl⟩
  refine (List.mem_append.mp hall).resolve_right fun hlate => ?_
  have hsorted : (keys key xs).Pairwise (· < ·) := keys_sorted xs
  rw [← List.take_append_drop n (keys key xs), List.pairwise_append] at hsorted
  exact absurd (hsorted.2.2 _ hx.2 _ hlate) (not_lt.mpr hyx)

/-- Something is met as soon as one key is gone through. -/
theorem flatMap_take_ne_nil (hxs : xs ≠ []) (hn : 0 < n) :
    ((keys key xs).take n).flatMap (pick key xs) ≠ [] := by
  obtain ⟨k, rest, hkeys⟩ : ∃ k rest, keys key xs = k :: rest := by
    refine List.exists_cons_of_ne_nil fun hnil => ?_
    obtain ⟨x, hx⟩ := List.exists_mem_of_ne_nil xs hxs
    have hk : key x ∈ keys key xs := mem_keys.mpr ⟨x, hx, rfl⟩
    rw [hnil] at hk
    cases hk
  obtain ⟨x, hx, hxk⟩ := mem_keys.mp (hkeys ▸ List.mem_cons_self : k ∈ keys key xs)
  refine List.ne_nil_of_mem (a := x) (mem_flatMap_take.mpr ⟨hx, ?_⟩)
  rw [hkeys, hxk]
  obtain ⟨m, rfl⟩ := Nat.exists_eq_succ_of_ne_zero (Nat.pos_iff_ne_zero.mp hn)
  simp

end Grouping
