import Mathlib.Data.List.Infix
import Marshal.Lib.Lines
import Marshal.Lib.Separator

/-! Clean absolute paths and what a slash-separated string makes of them.

A clean absolute path is the list of its components, none of them empty, `.` or `..`
(`CleanPath`). `join` enters a string's components one after the other, as the
cleaned join of the two does; what is left of the string once every `..` that can be
cancelled is cancelled says how far up it climbs and where it descends
(`relative`, `join_eq`). -/
namespace FilePath

/-- A component that names an entry of a directory. -/
structure Ordinary (c : String) : Prop where
  nonempty : c ≠ ""
  dot : c ≠ "."
  dotdot : c ≠ ".."
  slash : '/' ∉ c.toList

theorem ordinary_iff {c : String} :
    Ordinary c ↔ c ≠ "" ∧ c ≠ "." ∧ c ≠ ".." ∧ '/' ∉ c.toList :=
  ⟨fun h => ⟨h.nonempty, h.dot, h.dotdot, h.slash⟩, fun h => ⟨h.1, h.2.1, h.2.2.1, h.2.2.2⟩⟩

instance (c : String) : Decidable (Ordinary c) := decidable_of_iff' _ ordinary_iff

abbrev CleanPath := {p : List String // ∀ c ∈ p, Ordinary c}

/-- The components of a string. -/
def split (s : String) : List String := (s.toList.splitOn '/').map String.ofList

def IsAbs (s : String) : Bool := s.toList.head? == some '/'

/-- The directory a component leads to from a directory. -/
def enter (p : List String) (c : String) : List String :=
  if c = "" ∨ c = "." then p
  else if c = ".." then p.dropLast
  else p ++ [c]

/-- The cleaned join of a clean absolute path and a string. -/
def join (p : List String) (s : String) : List String := (split s).foldl enter p

/-- A string prefix that ends in a separator: below `/` it would start with two. -/
def under (p q : List String) : Bool := p != [] && p.isPrefixOf q && p != q

/-! ### Components -/

theorem slash_notMem_split {s c : String} (h : c ∈ split s) : '/' ∉ c.toList := by
  obtain ⟨l, hl, rfl⟩ := List.mem_map.mp h
  simpa using Lines.notMem_splitOn hl

/-- A string without separators is one component. -/
theorem split_single {s : String} (h : '/' ∉ s.toList) : split s = [s] := by
  have hsingle : s.toList.splitOn '/' = [s.toList] := by
    rw [List.splitOn_eq_splitOnP]
    apply List.splitOnP_eq_singleton
    intro c hc
    simp only [beq_eq_false_iff_ne]
    rintro rfl
    exact h hc
  simp [split, hsingle]

theorem join_single {p : List String} {s : String} (h : '/' ∉ s.toList) : join p s = enter p s := by
  simp [join, split_single h]

theorem enter_ordinary {p : List String} {c : String} (hc : Ordinary c) : enter p c = p ++ [c] := by
  simp [enter, hc.nonempty, hc.dot, hc.dotdot]

theorem join_ordinary {p : List String} {c : String} (hc : Ordinary c) : join p c = p ++ [c] := by
  rw [join_single hc.slash, enter_ordinary hc]

theorem enter_clean {p : List String} {c : String} (hp : ∀ d ∈ p, Ordinary d) (hc : '/' ∉ c.toList) :
    ∀ d ∈ enter p c, Ordinary d := by
  unfold enter
  split
  · exact hp
  · rename_i hdot
    rw [not_or] at hdot
    split
    · exact fun d hd => hp d (List.mem_of_mem_dropLast hd)
    · rename_i hdotdot
      intro d hd
      rcases List.mem_append.mp hd with hd | hd
      · exact hp d hd
      · rw [List.mem_singleton.mp hd]
        exact ⟨hdot.1, hdot.2, hdotdot, hc⟩

theorem foldl_enter_clean {cs p : List String} (hp : ∀ d ∈ p, Ordinary d)
    (hcs : ∀ c ∈ cs, '/' ∉ c.toList) : ∀ d ∈ cs.foldl enter p, Ordinary d := by
  induction cs generalizing p with
  | nil => exact hp
  | cons c rest ih =>
    exact ih (enter_clean hp (hcs c List.mem_cons_self)) fun d hd => hcs d (List.mem_cons_of_mem c hd)

theorem join_clean {p : List String} (hp : ∀ d ∈ p, Ordinary d) (s : String) :
    ∀ d ∈ join p s, Ordinary d :=
  foldl_enter_clean hp fun _ hc => slash_notMem_split hc

/-! ### Climbing and descending -/

/-- One component more: the number of directories climbed and the components descended. -/
def relStep (r : Nat × List String) (c : String) : Nat × List String :=
  if c = "" ∨ c = "." then r
  else if c = ".." then
    if r.2 = [] then (r.1 + 1, []) else (r.1, r.2.dropLast)
  else (r.1, r.2 ++ [c])

/-- A string with every `..` cancelled that can be. -/
def relative (s : String) : Nat × List String := (split s).foldl relStep (0, [])

/-- Where a path leads that climbs and descends. -/
def reach (p : List String) (r : Nat × List String) : List String := p.take (p.length - r.1) ++ r.2

theorem enter_reach (p : List String) (r : Nat × List String) (c : String) :
    enter (reach p r) c = reach p (relStep r c) := by
  obtain ⟨k, cs⟩ := r
  unfold enter relStep
  split
  · rfl
  · split
    · by_cases hcs : cs = []
      · subst hcs
        simp only [reach, List.append_nil, if_true]
        rw [List.dropLast_eq_take, List.take_take, List.length_take]
        congr 1
        omega
      · simp only [reach, hcs, if_false]
        exact List.dropLast_append_of_ne_nil hcs
    · simp [reach, List.append_assoc]

theorem foldl_enter_reach (p cs : List String) (r : Nat × List String) :
    cs.foldl enter (reach p r) = reach p (cs.foldl relStep r) := by
  induction cs generalizing r with
  | nil => rfl
  | cons c rest ih =>
    rw [List.foldl_cons, List.foldl_cons, enter_reach]
    exact ih _

theorem join_eq (p : List String) (s : String) : join p s = reach p (relative s) := by
  have hstart : reach p (0, []) = p := by simp [reach]
  have h := foldl_enter_reach p (split s) (0, [])
  rw [hstart] at h
  exact h

/-- The join is an entry of the directory exactly when the string descends by one component, or
spells out the end of the path it has climbed and then one component. -/
theorem join_eq_append (p : List String) (s c : String) :
    join p s = p ++ [c] ↔
      (relative s).2 = p.drop (p.length - (relative s).1) ++ [c] := by
  have hp : p = p.take (p.length - (relative s).1) ++ p.drop (p.length - (relative s).1) :=
    (List.take_append_drop _ _).symm
  have hsplit : p ++ [c] = p.take (p.length - (relative s).1) ++
      (p.drop (p.length - (relative s).1) ++ [c]) := by
    rw [← List.append_assoc, ← hp]
  rw [join_eq, reach, hsplit]
  exact List.append_cancel_left_eq _ _ _ |>.to_iff

/-! ### Prefixes -/

theorem under_iff {p q : List String} : under p q = true ↔ p ≠ [] ∧ p <+: q ∧ p ≠ q := by
  simp [under, and_assoc]

theorem prefix_of_under {p q : List String} (h : under p q = true) : p <+: q := (under_iff.mp h).2.1

/-- The components, each after a slash. -/
def slashed (p : List String) : List Char := p.flatMap fun c => '/' :: c.toList

/-- The path as it is written. -/
def text (p : List String) : List Char := if p = [] then ['/'] else slashed p

theorem slashed_head {p : List String} {c : Char} {rest : List Char} (h : slashed p = c :: rest) :
    c = '/' := by
  cases p with
  | nil => cases h
  | cons d p => exact (List.cons.inj h).1.symm

theorem slashed_prefix_iff {p q : List String} (hp : ∀ c ∈ p, '/' ∉ c.toList)
    (hq : ∀ c ∈ q, '/' ∉ c.toList) :
    slashed p ++ ['/'] <+: slashed q ↔ p <+: q ∧ p ≠ q := by
  induction p generalizing q with
  | nil =>
    cases q with
    | nil => simp [slashed]
    | cons e q => simp [slashed]
  | cons d p ih =>
    cases q with
    | nil => simp [slashed]
    | cons e q =>
      have hd := hp d List.mem_cons_self
      have he := hq e List.mem_cons_self
      have ih := @ih q (fun c hc => hp c (List.mem_cons_of_mem d hc))
        fun c hc => hq c (List.mem_cons_of_mem e hc)
      have hcons : ∀ (x : String) (l : List String), slashed (x :: l) = '/' :: (x.toList ++ slashed l) :=
        fun _ _ => rfl
      rw [hcons, hcons, List.cons_append, List.cons_prefix_cons, List.cons_prefix_cons]
      simp only [true_and, List.append_assoc, ne_eq, List.cons.injEq, not_and]
      -- what follows `d` starts with a slash, and what follows `e` does or is empty
      obtain ⟨more, hmore⟩ : ∃ more, slashed p ++ ['/'] = '/' :: more := by
        cases p with
        | nil => exact ⟨[], rfl⟩
        | cons f p => exact ⟨_, rfl⟩
      constructor
      · intro h
        have hsame : d = e := by
          obtain ⟨t, ht⟩ := h
          rw [hmore, List.append_assoc, List.cons_append] at ht
          cases hrest : slashed q with
          | nil =>
            rw [hrest, List.append_nil] at ht
            exact absurd (by rw [← ht]; simp) he
          | cons c rest =>
            obtain rfl := slashed_head hrest
            rw [hrest] at ht
            exact String.toList_injective (Separator.split_first hd he ht).1
        subst hsame
        obtain ⟨hpre, hne⟩ := ih.mp ((List.prefix_append_right_inj _).mp h)
        exact ⟨⟨rfl, hpre⟩, fun _ => hne⟩
      · rintro ⟨⟨rfl, hpre⟩, hne⟩
        exact (List.prefix_append_right_inj _).mpr (ih.mpr ⟨hpre, hne rfl⟩)

/-- `under` is a prefix of the written path that ends in a separator. -/
theorem under_iff_text {p q : List String} (hp : ∀ c ∈ p, Ordinary c) (hq : ∀ c ∈ q, Ordinary c) :
    under p q = true ↔ text p ++ ['/'] <+: text q := by
  have hpre := slashed_prefix_iff (fun c hc => (hp c hc).slash) fun c hc => (hq c hc).slash
  rw [under_iff]
  unfold text
  by_cases hpnil : p = []
  · subst hpnil
    refine iff_of_false (fun h => h.1 rfl) ?_
    intro h
    cases q with
    | nil => simp at h
    | cons c q =>
      have hc := hq c List.mem_cons_self
      obtain ⟨x, xs, hx⟩ := List.exists_cons_of_ne_nil
        (fun h => hc.nonempty (String.toList_injective h) : c.toList ≠ [])
      have h : ['/', '/'] <+: '/' :: (c.toList ++ slashed q) := h
      rw [hx] at h
      obtain rfl : '/' = x := by simpa using h
      exact hc.slash (by rw [hx]; simp)
  · by_cases hqnil : q = []
    · subst hqnil
      refine iff_of_false (fun h => hpnil (List.prefix_nil.mp h.2.1)) ?_
      intro h
      have hlen := h.length_le
      cases p with
      | nil => exact hpnil rfl
      | cons c p => simp [slashed] at hlen
    · rw [if_neg hpnil, if_neg hqnil, hpre]
      exact ⟨fun h => ⟨h.2.1, h.2.2⟩, fun h => ⟨hpnil, h.1, h.2⟩⟩

end FilePath
