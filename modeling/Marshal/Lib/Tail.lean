import Mathlib.Data.List.DropRight
import Mathlib.Data.List.Sort

/-! The last elements of a list.

`l.rtake n` is the last `n` elements of `l`, all of them where there are fewer. Elements in
front of enough others do not matter to it, all tails together determine the list, and a
tail of what is filtered is the filtered tail in two cases only (`filter_rtake_iff`).

Of a list that is sorted together from parts, each sorted by a strict order `lt`, the last `n` are
known from the last `n` of each part (`rtake_of_parts`). The parts may be in any order, and need not
be of one length. That a sort by a coarser order gives such a list is stability
(`pairwise_mergeSort_stable`). -/
namespace Tail
variable {α : Type*} {l l' : List α} {n : Nat}

theorem length_rtake (l : List α) (n : Nat) : (l.rtake n).length = min n l.length := by
  unfold List.rtake
  rw [List.length_drop]
  omega

theorem rtake_eq_self (h : l.length ≤ n) : l.rtake n = l := by
  unfold List.rtake
  rw [Nat.sub_eq_zero_of_le h, List.drop_zero]

theorem rdrop_append_rtake (l : List α) (n : Nat) : l.rdrop n ++ l.rtake n = l :=
  List.take_append_drop _ l

theorem rtake_append (h : n ≤ l'.length) : (l ++ l').rtake n = l'.rtake n := by
  unfold List.rtake
  rw [List.length_append, Nat.add_sub_assoc h, List.drop_append]
  simp

/-- All tails are the same only for the same list. -/
theorem forall_rtake_iff : (∀ n, 0 < n → l.rtake n = l'.rtake n) ↔ l = l' := by
  constructor
  · intro h
    have hall := h (max l.length l'.length + 1) (Nat.succ_pos _)
    rwa [rtake_eq_self (by omega), rtake_eq_self (by omega)] at hall
  · rintro rfl n -
    rfl

/-- The last `n` elements, filtered, are the last `n` of those that pass exactly if all of them pass or
none in front of them does. -/
theorem filter_rtake_iff (p : α → Bool) : (l.rtake n).filter p = (l.filter p).rtake n ↔
    (∀ a ∈ l.rtake n, p a = true) ∨ ∀ a ∈ l.rdrop n, p a = false := by
  have hsplit : l.filter p = (l.rdrop n).filter p ++ (l.rtake n).filter p := by
    rw [← List.filter_append, rdrop_append_rtake]
  constructor
  · intro h
    rw [or_iff_not_imp_right]
    intro hfront
    have hpos : 0 < ((l.rdrop n).filter p).length := by
      refine List.length_pos_iff.mpr fun hnil => hfront fun a ha => ?_
      simpa using List.filter_eq_nil_iff.mp hnil a ha
    -- one that passes is in front, so as many as are asked for pass behind it
    have hlength : n ≤ ((l.rtake n).filter p).length := by
      have hsame := congrArg List.length h
      rw [length_rtake, hsplit, List.length_append] at hsame
      omega
    have hle := length_rtake l n
    have hfull : ((l.rtake n).filter p).length = (l.rtake n).length :=
      Nat.le_antisymm (List.length_filter_le p _) (by omega)
    exact List.length_filter_eq_length_iff.mp hfull
  · have hle := length_rtake l n
    rintro (hall | hnone)
    · rw [List.filter_eq_self.mpr hall]
      by_cases hshort : l.length ≤ n
      · rw [rtake_eq_self hshort] at hall ⊢
        rw [List.filter_eq_self.mpr hall, rtake_eq_self hshort]
      · rw [hsplit, List.filter_eq_self.mpr hall, rtake_append (by omega),
          rtake_eq_self (l := l.rtake n) (by omega)]
    · have hnil : (l.rdrop n).filter p = [] := List.filter_eq_nil_iff.mpr fun a ha => by simp [hnone a ha]
      have hfilter := List.length_filter_le p (l.rtake n)
      rw [hsplit, hnil, List.nil_append, rtake_eq_self (l := (l.rtake n).filter p) (by omega)]

/-! ### What is sorted together -/

/-- Of elements that the order of a sort does not tell apart, the first stays the first. -/
theorem pairwise_mergeSort_stable (le : α → α → Bool) {R : α → α → Prop} {l : List α}
    (htrans : ∀ a b c, le a b = true → le b c = true → le a c = true)
    (htotal : ∀ a b, (le a b || le b a) = true) (hR : l.Pairwise R) :
    (l.mergeSort le).Pairwise fun a b => le a b = true ∧ (le b a = true → R a b) := by
  induction l with
  | nil => simp
  | cons x rest ih =>
    rw [List.pairwise_cons] at hR
    obtain ⟨front, back, hcons, hrest, hfront⟩ := List.mergeSort_cons htrans htotal x rest
    have hsorted := List.pairwise_mergeSort htrans htotal (x :: rest)
    have ih := ih hR.2
    rw [hrest, List.pairwise_append] at ih
    rw [hcons, List.pairwise_append, List.pairwise_cons] at hsorted
    rw [hcons, List.pairwise_append, List.pairwise_cons]
    refine ⟨ih.1, ⟨fun b hb => ⟨hsorted.2.1.1 b hb, fun _ => ?_⟩, ih.2.1⟩, fun a ha b hb => ?_⟩
    · have hmem : b ∈ rest.mergeSort le := by
        rw [hrest]
        exact List.mem_append_right _ hb
      exact hR.1 b (List.mem_mergeSort.mp hmem)
    · rcases List.mem_cons.mp hb with rfl | hb
      · refine ⟨hsorted.2.2 a ha _ List.mem_cons_self, fun hle => ?_⟩
        -- what the sort puts in front of the first element is told apart from it
        have hnot := hfront a ha
        rw [hle] at hnot
        cases hnot
      · exact ih.2.2 a ha b hb

/-! ### Parts cut to their tails -/

variable {lt : α → α → Prop} [DecidableRel lt] {l : List α} {n : Nat}

/-- In a sorted list, the last `n` elements are those with fewer than `n` above them. -/
theorem mem_rtake_iff (hasymm : ∀ a b, lt a b → ¬ lt b a) (hl : l.Pairwise lt) (a : α) :
    a ∈ l.rtake n ↔ a ∈ l ∧ l.countP (fun b => lt a b) < n := by
  have hsplit := rdrop_append_rtake l n
  have hlength := length_rtake l n
  have hsorted := hl
  rw [← hsplit, List.pairwise_append] at hsorted
  have hcount : l.countP (fun b => lt a b) =
      (l.rdrop n).countP (fun b => lt a b) + (l.rtake n).countP (fun b => lt a b) := by
    rw [← List.countP_append, hsplit]
  constructor
  · intro ha
    have hfront : (l.rdrop n).countP (fun b => lt a b) = 0 := by
      rw [List.countP_eq_zero]
      intro b hb
      simpa using hasymm b a (hsorted.2.2 b hb a ha)
    -- `a` itself is not above `a`
    have hback : (l.rtake n).countP (fun b => lt a b) < (l.rtake n).length := by
      refine Nat.lt_of_le_of_ne List.countP_le_length fun heq => ?_
      have hself := List.countP_eq_length.mp heq a ha
      exact hasymm a a (by simpa using hself) (by simpa using hself)
    exact ⟨List.mem_of_mem_drop ha, by omega⟩
  · intro h
    obtain ⟨ha, hfew⟩ := h
    rw [← hsplit, List.mem_append] at ha
    rcases ha with ha | ha
    · have hback : (l.rtake n).countP (fun b => lt a b) = (l.rtake n).length := by
        rw [List.countP_eq_length]
        intro b hb
        simpa using hsorted.2.2 a ha b hb
      have hpos : 0 < (l.rdrop n).length := List.length_pos_of_mem ha
      rw [List.rdrop, List.length_take] at hpos
      omega
    · exact ha

/-- **Sorting the parts' last `n` elements together gives the same last `n` as sorting all.** -/
theorem rtake_of_parts (parts : List (List α)) {all cut : List α} (hasymm : ∀ a b, lt a b → ¬ lt b a)
    (hparts : ∀ p ∈ parts, p.Pairwise lt) (hall : all.Perm parts.flatten)
    (hcut : cut.Perm (parts.map (List.rtake · n)).flatten) (hallSorted : all.Pairwise lt)
    (hcutSorted : cut.Pairwise lt) : cut.rtake n = all.rtake n := by
  have hsub : (parts.map (List.rtake · n)).flatten.Sublist parts.flatten := by
    clear hparts hall hcut
    induction parts with
    | nil => simp
    | cons p rest ih => exact (List.drop_sublist _ p).append ih
  have hsubperm : cut.Subperm all := hcut.subperm.trans (hsub.subperm.trans hall.symm.subperm)
  -- whatever has few above it among all has few above it in its own part
  have hkept : all.rtake n ⊆ cut.rtake n := by
    intro a ha
    obtain ⟨hmem, hfew⟩ := (mem_rtake_iff hasymm hallSorted a).mp ha
    obtain ⟨p, hp, hap⟩ := List.mem_flatten.mp (hall.mem_iff.mp hmem)
    have hpart : p.countP (fun b => lt a b) ≤ all.countP (fun b => lt a b) := by
      rw [hall.countP_eq]
      exact (List.sublist_flatten_of_mem hp).countP_le
    have hpa : a ∈ p.rtake n := (mem_rtake_iff hasymm (hparts p hp) a).mpr ⟨hap, by omega⟩
    have hcutMem : a ∈ cut :=
      hcut.mem_iff.mpr (List.mem_flatten.mpr ⟨_, List.mem_map_of_mem hp, hpa⟩)
    have hle : cut.countP (fun b => lt a b) ≤ all.countP (fun b => lt a b) := hsubperm.countP_le _
    exact (mem_rtake_iff hasymm hcutSorted a).mpr ⟨hcutMem, by omega⟩
  have hallTail : (all.rtake n).Pairwise lt := hallSorted.sublist (List.drop_sublist _ _)
  have hnodup : (all.rtake n).Nodup := hallTail.imp fun {a b} hab heq => by
    subst heq
    exact hasymm a a hab hab
  have hlength : (cut.rtake n).length ≤ (all.rtake n).length := by
    rw [length_rtake, length_rtake]
    have hle := hsubperm.length_le
    omega
  have hperm := (List.subperm_of_subset hnodup hkept).perm_of_length_le hlength
  exact (hperm.eq_of_pairwise (fun a b _ _ hab hba => absurd hba (hasymm a b hab)) hallTail
    (hcutSorted.sublist (List.drop_sublist _ _))).symm

end Tail
