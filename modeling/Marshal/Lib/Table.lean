import Mathlib.Data.List.AList

/-! Finite maps, as a language's built-in map type offers them: look a key up,
set it, delete it. No two entries share a key, which `AList` carries as a field.
The order of the entries is left open by every result. -/

/-- A finite map from `κ` to `ν`. -/
abbrev Table (κ ν : Type) := AList (fun _ : κ => ν)

namespace Table
variable {κ ν : Type} [DecidableEq κ]

def get (t : Table κ ν) (k : κ) : Option ν := t.lookup k

def set (t : Table κ ν) (k : κ) (v : ν) : Table κ ν := t.insert k v

def del (t : Table κ ν) (k : κ) : Table κ ν := t.erase k

@[simp] theorem get_empty (k : κ) : (∅ : Table κ ν).get k = none := rfl

theorem get_set (t : Table κ ν) (k k' : κ) (v : ν) :
    (t.set k v).get k' = if k' = k then some v else t.get k' := by
  by_cases h : k' = k
  · subst h
    simp [get, set]
  · rw [if_neg h]
    exact AList.lookup_insert_ne h

theorem get_del (t : Table κ ν) (k k' : κ) :
    (t.del k).get k' = if k' = k then none else t.get k' := by
  by_cases h : k' = k
  · subst h
    simp [get, del]
  · rw [if_neg h]
    exact AList.lookup_erase_ne h

@[simp] theorem get_set_self (t : Table κ ν) (k : κ) (v : ν) : (t.set k v).get k = some v := by
  simp [get_set]

@[simp] theorem get_del_self (t : Table κ ν) (k : κ) : (t.del k).get k = none := by
  simp [get_del]

theorem get_foldl_del (t : Table κ ν) (ks : List κ) (k : κ) :
    (ks.foldl del t).get k = if k ∈ ks then none else t.get k := by
  induction ks generalizing t with
  | nil => simp
  | cons l rest ih =>
    rw [List.foldl_cons, ih, get_del]
    by_cases hrest : k ∈ rest
    · simp [hrest]
    · by_cases hk : k = l <;> simp [hrest, hk]

/-! A key set and taken out again, or put back, reads as before. -/

theorem get_del_set {t : Table κ ν} {k : κ} (h : t.get k = none) (v : ν) (k' : κ) :
    ((t.set k v).del k).get k' = t.get k' := by
  by_cases hk : k' = k
  · rw [hk, get_del_self, h]
  · rw [get_del, if_neg hk, get_set, if_neg hk]

theorem get_set_del {t : Table κ ν} {k : κ} {v : ν} (h : t.get k = some v) (k' : κ) :
    ((t.del k).set k v).get k' = t.get k' := by
  by_cases hk : k' = k
  · rw [hk, get_set_self, h]
  · rw [get_set, if_neg hk, get_del, if_neg hk]

theorem get_set_set {t : Table κ ν} {k : κ} {v : ν} (h : t.get k = some v) (v' : ν) (k' : κ) :
    ((t.set k v').set k v).get k' = t.get k' := by
  by_cases hk : k' = k
  · rw [hk, get_set_self, h]
  · rw [get_set, if_neg hk, get_set, if_neg hk]

/-! ### Values made on first use -/

/-- The key gets its value when it is first asked for, and keeps it whatever it would get later. -/
def fill (t : Table κ ν) (make : κ → ν) (k : κ) : Table κ ν :=
  match t.get k with
  | some _ => t
  | none => t.set k (make k)

theorem get_fill (t : Table κ ν) (make : κ → ν) (k k' : κ) :
    (t.fill make k).get k' = if k' = k then some ((t.get k).getD (make k)) else t.get k' := by
  cases h : t.get k with
  | some v =>
    simp only [fill, h, Option.getD_some]
    split
    · rename_i hk
      rw [hk, h]
    · rfl
  | none =>
    simp only [fill, h, Option.getD_none]
    exact get_set t k k' (make k)

/-! ### Entries -/

/-- The keys and values held, in some order. -/
def toList (t : Table κ ν) : List (κ × ν) := t.entries.map fun e => (e.1, e.2)

theorem mem_toList (t : Table κ ν) (k : κ) (v : ν) : (k, v) ∈ t.toList ↔ t.get k = some v := by
  rw [show t.get k = some v ↔ Sigma.mk k v ∈ t.entries from AList.mem_lookup_iff]
  simp only [toList, List.mem_map, Prod.mk.injEq]
  constructor
  · rintro ⟨⟨k', v'⟩, h, rfl, rfl⟩
    exact h
  · intro h
    exact ⟨⟨k, v⟩, h, rfl, rfl⟩

/-! ### What a change alters -/

/-- Setting a key alters a view of the table exactly if it alters the view of the key. -/
theorem view_set_eq {τ : Type} (t : Table κ ν) (k : κ) (v : ν) (f : ν → τ) :
    ((fun n => ((t.set k v).get n).map f) = fun n => (t.get n).map f) ↔
      (t.get k).map f = some (f v) := by
  constructor
  · intro h
    have hk := congrFun h k
    rw [get_set_self, Option.map_some] at hk
    exact hk.symm
  · intro h
    funext n
    rw [get_set]
    split
    · rename_i hn
      rw [hn, h, Option.map_some]
    · rfl

theorem view_del_eq {τ : Type} (t : Table κ ν) (k : κ) (f : ν → τ) :
    ((fun n => ((t.del k).get n).map f) = fun n => (t.get n).map f) ↔ t.get k = none := by
  constructor
  · intro h
    have hk := congrFun h k
    rw [get_del_self, Option.map_none, eq_comm, Option.map_eq_none_iff] at hk
    exact hk
  · intro h
    funext n
    rw [get_del]
    split
    · rename_i hn
      rw [hn, h]
    · rfl

theorem get_set_eq (t : Table κ ν) (k : κ) (v : ν) : (t.set k v).get = t.get ↔ t.get k = some v := by
  simpa using view_set_eq t k v id

theorem get_del_eq (t : Table κ ν) (k : κ) : (t.del k).get = t.get ↔ t.get k = none := by
  simpa using view_del_eq t k id

/-! ### Sweeps -/

/-- Every entry is visited and those that `p` tells are taken out. -/
def discard (t : Table κ ν) (p : κ → ν → Bool) : Table κ ν :=
  t.toList.foldl (fun t e => if p e.1 e.2 then t.del e.1 else t) t

theorem get_discard (t : Table κ ν) (p : κ → ν → Bool) (k : κ) :
    (t.discard p).get k = (t.get k).filter fun v => !p k v := by
  let drop (u : Table κ ν) (e : κ × ν) : Table κ ν := if p e.1 e.2 then u.del e.1 else u
  have hgone : ∀ (l : List (κ × ν)) (u : Table κ ν), u.get k = none → (l.foldl drop u).get k = none := by
    intro l
    induction l with
    | nil => exact fun u h => h
    | cons e rest ih =>
      intro u h
      refine ih _ ?_
      show (if p e.1 e.2 then u.del e.1 else u).get k = none
      split
      · rw [get_del, h, ite_self]
      · exact h
  have hkept : ∀ (l : List (κ × ν)) (u : Table κ ν), (∀ v, (k, v) ∈ l → p k v = false) →
      (l.foldl drop u).get k = u.get k := by
    intro l
    induction l with
    | nil => exact fun _ _ => rfl
    | cons e rest ih =>
      intro u h
      refine (ih _ fun v hv => h v (List.mem_cons_of_mem e hv)).trans ?_
      show (if p e.1 e.2 then u.del e.1 else u).get k = u.get k
      split
      · rename_i hp
        have hk : k ≠ e.1 := by
          rintro rfl
          rw [h e.2 List.mem_cons_self] at hp
          cases hp
        rw [get_del, if_neg hk]
      · rfl
  have hhit : ∀ (l : List (κ × ν)) (u : Table κ ν) (v : ν), (k, v) ∈ l → p k v = true →
      (l.foldl drop u).get k = none := by
    intro l
    induction l with
    | nil => exact fun _ _ h => absurd h List.not_mem_nil
    | cons e rest ih =>
      intro u v hv hp
      rcases List.mem_cons.mp hv with rfl | hv
      · refine hgone rest _ ?_
        show (if p k v then u.del k else u).get k = none
        rw [if_pos hp, get_del_self]
      · exact ih _ v hv hp
  show (t.toList.foldl drop t).get k = _
  cases hget : t.get k with
  | none => exact hgone _ _ hget
  | some v =>
    cases hp : p k v with
    | true =>
      rw [hhit _ _ v ((mem_toList t k v).mpr hget) hp]
      simp [Option.filter_some, hp]
    | false =>
      have hkeep : ∀ w, (k, w) ∈ t.toList → p k w = false := by
        intro w hw
        rw [(mem_toList t k w).mp hw, Option.some.injEq] at hget
        rwa [hget]
      rw [hkept _ _ hkeep, hget]
      simp [Option.filter_some, hp]

/-! ### Entries up to their order -/

omit [DecidableEq κ] in
theorem nodup_keys (t : Table κ ν) : (t.toList.map Prod.fst).Nodup := by
  have hkeys : t.toList.map Prod.fst = t.keys := by
    rw [toList, List.map_map]
    rfl
  exact hkeys ▸ t.keys_nodup

theorem toList_perm {t : Table κ ν} {l : List (κ × ν)} (hl : l.Nodup)
    (h : ∀ k v, (k, v) ∈ l ↔ t.get k = some v) : t.toList.Perm l := by
  refine (List.perm_ext_iff_of_nodup (List.Nodup.of_map _ t.nodup_keys) hl).mpr fun e => ?_
  rw [h, mem_toList]

theorem toList_set (t : Table κ ν) (k : κ) (v : ν) :
    (t.set k v).toList.Perm (t.toList.filter (fun e => e.1 ≠ k) ++ [(k, v)]) := by
  refine toList_perm ?_ fun k' v' => ?_
  · refine List.nodup_append.mpr ⟨(List.Nodup.of_map _ t.nodup_keys).filter _, by simp, ?_⟩
    intro e he e' he' heq
    rw [List.mem_singleton.mp he'] at heq
    simp [heq] at he
  · rw [get_set, List.mem_append, List.mem_filter, mem_toList]
    by_cases hk : k' = k
    · simp [hk, eq_comm]
    · simp [hk]

theorem toList_del (t : Table κ ν) (k : κ) :
    (t.del k).toList.Perm (t.toList.filter fun e => e.1 ≠ k) := by
  refine toList_perm ((List.Nodup.of_map _ t.nodup_keys).filter _) fun k' v' => ?_
  rw [get_del, List.mem_filter, mem_toList]
  by_cases hk : k' = k <;> simp [hk]

theorem toList_discard (t : Table κ ν) (p : κ → ν → Bool) :
    (t.discard p).toList.Perm (t.toList.filter fun e => !p e.1 e.2) := by
  refine toList_perm ((List.Nodup.of_map _ t.nodup_keys).filter _) fun k v => ?_
  rw [get_discard, List.mem_filter, mem_toList, Option.filter_eq_some_iff]

theorem toList_key {t : Table κ ν} {k : κ} {v : ν} (h : t.get k = some v) :
    (t.toList.filter fun e => e.1 = k) = [(k, v)] := by
  have hnodup := (List.Nodup.of_map _ t.nodup_keys).filter fun e => decide (e.1 = k)
  refine List.perm_singleton.mp ((List.perm_ext_iff_of_nodup hnodup (by simp)).mpr ?_)
  intro e
  rw [List.mem_filter, mem_toList, List.mem_singleton, decide_eq_true_eq, Prod.ext_iff]
  constructor
  · intro ⟨hget, hk⟩
    rw [hk, h, Option.some.injEq] at hget
    exact ⟨hk, hget.symm⟩
  · intro ⟨hk, hv⟩
    rw [hk, hv]
    exact ⟨h, rfl⟩

end Table
