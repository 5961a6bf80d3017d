import Marshal.Lib.Regex

/-! What a match takes, and how far a text decides it.

A match takes characters that the pattern accepts (`ends_taken`). Where it stays inside the
front of a text, the rest is felt only as a word character behind the front or none
(`endsIn_congr`). So a character that a pattern never takes cuts a text in two that are
replaced apart (`replaceFrom_cut`). -/
namespace Regex

/-! ### What a match takes -/

/-- Some part of the pattern accepts the character. -/
def Pat.takes : Pat → Char → Bool
  | .empty, _ | .start, _ | .boundary, _ => false
  | .one accepts, c => accepts c
  | .seq p q, c | .or p q, c => p.takes c || q.takes c
  | .star p, c | .group p, c => p.takes c

/-- The characters between two places. -/
def Taken (accepts : Char → Bool) (s t : Place) : Prop :=
  ∃ l, s.ahead = l ++ t.ahead ∧ (∀ c ∈ l, accepts c = true) ∧ t.behind = l.getLast?.or s.behind

theorem Taken.rfl {accepts : Char → Bool} {s : Place} : Taken accepts s s :=
  ⟨[], List.nil_append _, fun _ hc => absurd hc List.not_mem_nil, Option.none_or.symm⟩

theorem Taken.trans {accepts : Char → Bool} {s t u : Place} (hst : Taken accepts s t)
    (htu : Taken accepts t u) : Taken accepts s u := by
  obtain ⟨l, hl, hlc, hlb⟩ := hst
  obtain ⟨l', hl', hlc', hlb'⟩ := htu
  refine ⟨l ++ l', by rw [hl, hl', List.append_assoc], List.forall_mem_append.mpr ⟨hlc, hlc'⟩, ?_⟩
  rw [hlb', hlb, List.getLast?_append]
  exact Option.or_assoc.symm

theorem Taken.mono {accepts accepts' : Char → Bool} {s t : Place} (h : Taken accepts s t)
    (himp : ∀ c, accepts c = true → accepts' c = true) : Taken accepts' s t := by
  obtain ⟨l, hl, hlc, hlb⟩ := h
  exact ⟨l, hl, fun c hc => himp c (hlc c hc), hlb⟩

theorem Taken.length_le {accepts : Char → Bool} {s t : Place} (h : Taken accepts s t) :
    t.ahead.length ≤ s.ahead.length := by
  obtain ⟨l, hl, -, -⟩ := h
  rw [hl, List.length_append]
  exact Nat.le_add_left _ _

/-- Repeating keeps to what one step keeps to. -/
theorem iterate_rel {r : Place → Place → Prop} (hrefl : ∀ s, r s s)
    (htrans : ∀ s t u, r s t → r t u → r s u) {next : Place → List Place}
    (hnext : ∀ s, ∀ t ∈ next s, r s t) (n : Nat) (s : Place) : ∀ t ∈ iterate next n s, r s t := by
  induction n generalizing s with
  | zero =>
    intro t ht
    rw [List.mem_singleton.mp ht]
    exact hrefl s
  | succ n ih =>
    intro t ht
    rcases List.mem_append.mp ht with ht | ht
    · obtain ⟨u, hu, ht⟩ := List.mem_flatMap.mp ht
      exact htrans s u t (hnext s u (List.mem_filter.mp hu).1) (ih u t ht)
    · rw [List.mem_singleton.mp ht]
      exact hrefl s

theorem ends_taken (p : Pat) (s : Place) : ∀ t ∈ p.ends s, Taken p.takes s t := by
  induction p generalizing s with
  | empty =>
    intro t ht
    rw [List.mem_singleton.mp ht]
    exact Taken.rfl
  | start =>
    intro t ht
    rw [Pat.ends] at ht
    split at ht
    · rw [List.mem_singleton.mp ht]
      exact Taken.rfl
    · exact absurd ht List.not_mem_nil
  | boundary =>
    intro t ht
    rw [Pat.ends] at ht
    split at ht
    · rw [List.mem_singleton.mp ht]
      exact Taken.rfl
    · exact absurd ht List.not_mem_nil
  | one accepts =>
    intro t ht
    rw [Pat.ends] at ht
    split at ht
    · exact absurd ht List.not_mem_nil
    · rename_i c rest hahead
      split at ht
      · rename_i hc
        rw [List.mem_singleton.mp ht]
        refine ⟨[c], hahead, ?_, rfl⟩
        intro d hd
        rw [List.mem_singleton.mp hd]
        exact hc
      · exact absurd ht List.not_mem_nil
  | seq p q ihp ihq =>
    intro t ht
    obtain ⟨u, hu, ht⟩ := List.mem_flatMap.mp ht
    refine ((ihp s u hu).mono ?_).trans ((ihq u t ht).mono ?_)
    · intro c hc
      simp [Pat.takes, hc]
    · intro c hc
      simp [Pat.takes, hc]
  | or p q ihp ihq =>
    intro t ht
    rcases List.mem_append.mp ht with ht | ht
    · refine (ihp s t ht).mono fun c hc => ?_
      simp [Pat.takes, hc]
    · refine (ihq s t ht).mono fun c hc => ?_
      simp [Pat.takes, hc]
  | star p ih =>
    exact iterate_rel (fun _ => Taken.rfl) (fun _ _ _ => Taken.trans) ih _ s
  | group p ih =>
    intro t ht
    obtain ⟨u, hu, rfl⟩ := List.mem_map.mp ht
    exact ih s u hu

/-! ### Inside the front of a text -/

def Place.extend (rest : List Char) (s : Place) : Place := { s with ahead := s.ahead ++ rest }

/-- The place as one of the front, if it is not past its end. -/
def Place.inside (rest : List Char) (s : Place) : Option Place :=
  if rest.length ≤ s.ahead.length then some { s with ahead := s.ahead.take (s.ahead.length - rest.length) }
  else none

/-- The ends of matches that stay inside the front of a text. -/
def Pat.endsIn (p : Pat) (rest : List Char) (s : Place) : List Place :=
  (p.ends (s.extend rest)).filterMap (Place.inside rest)

theorem inside_extend (rest : List Char) (s : Place) : (s.extend rest).inside rest = some s := by
  have hlength : (s.ahead ++ rest).length - rest.length = s.ahead.length := by
    rw [List.length_append, Nat.add_sub_cancel]
  rw [Place.inside, Place.extend, if_pos (by simp), hlength, List.take_left]

theorem inside_none {rest : List Char} {s : Place} (h : s.ahead.length < rest.length) : s.inside rest = none :=
  if_neg (Nat.not_le_of_lt h)

/-- A place reached from the front is past its end or one of the front. -/
theorem Taken.inside {accepts : Char → Bool} {rest : List Char} {s t : Place}
    (h : Taken accepts (s.extend rest) t) :
    t.ahead.length < rest.length ∨ ∃ u : Place, t = u.extend rest ∧ u.ahead.length ≤ s.ahead.length := by
  obtain ⟨l, hl, -, -⟩ := h
  have htext : s.ahead ++ rest = l ++ t.ahead := hl
  rcases List.append_eq_append_iff.mp htext with ⟨l', -, hrest⟩ | ⟨l', hahead, hrest⟩
  · cases l' with
    | nil =>
      refine .inr ⟨{ t with ahead := [] }, ?_, Nat.zero_le _⟩
      rw [List.nil_append] at hrest
      rw [Place.extend, List.nil_append, hrest]
    | cons c l' =>
      refine .inl ?_
      rw [hrest, List.cons_append, List.length_cons, List.length_append]
      omega
  · refine .inr ⟨{ t with ahead := l' }, ?_, ?_⟩
    · rw [Place.extend, ← hrest]
    · rw [hahead, List.length_append]
      exact Nat.le_add_left _ _

theorem inside_flatMap {p : Pat} {rest : List Char} {s : Place} {next : Place → List Place}
    (hnext : ∀ t, ∀ u ∈ next t, u.ahead.length ≤ t.ahead.length) :
    ((p.ends (s.extend rest)).flatMap next).filterMap (Place.inside rest) =
      (p.endsIn rest s).flatMap fun t => (next (t.extend rest)).filterMap (Place.inside rest) := by
  have hends := ends_taken p (s.extend rest)
  rw [Pat.endsIn, List.filterMap_flatMap]
  generalize p.ends (s.extend rest) = l at hends
  induction l with
  | nil => rfl
  | cons t l ih =>
    have hrest := ih fun u hu => hends u (List.mem_cons_of_mem t hu)
    rw [List.flatMap_cons, hrest]
    rcases (hends t List.mem_cons_self).inside with hpast | ⟨u, rfl, -⟩
    · have hnone : (next t).filterMap (Place.inside rest) = [] := by
        refine List.filterMap_eq_nil_iff.mpr fun u hu => inside_none ?_
        exact Nat.lt_of_le_of_lt (hnext t u hu) hpast
      rw [hnone, List.filterMap_cons, inside_none hpast, List.nil_append]
    · rw [List.filterMap_cons, inside_extend, List.flatMap_cons]

theorem endsIn_seq (p q : Pat) (rest : List Char) (s : Place) :
    (Pat.seq p q).endsIn rest s = (p.endsIn rest s).flatMap (q.endsIn rest) :=
  inside_flatMap fun t u hu => (ends_taken q t u hu).length_le

theorem endsIn_or (p q : Pat) (rest : List Char) (s : Place) :
    (Pat.or p q).endsIn rest s = p.endsIn rest s ++ q.endsIn rest s :=
  List.filterMap_append

theorem endsIn_length_le (p : Pat) (rest : List Char) (s : Place) :
    ∀ t ∈ p.endsIn rest s, t.ahead.length ≤ s.ahead.length := by
  intro t ht
  obtain ⟨u, hu, hinside⟩ := List.mem_filterMap.mp ht
  rcases (ends_taken p _ u hu).inside with hpast | ⟨v, rfl, hv⟩
  · rw [inside_none hpast] at hinside
    cases hinside
  · rw [inside_extend] at hinside
    cases hinside
    exact hv

/-- More rounds than there are characters make no difference. -/
theorem iterate_rounds (next : Place → List Place) {n : Nat} {s : Place} (h : s.ahead.length ≤ n) :
    iterate next n s = iterate next s.ahead.length s := by
  induction n using Nat.strongRecOn generalizing s with
  | _ n ih =>
    cases n with
    | zero => rw [Nat.le_zero.mp h]
    | succ n =>
      cases hlength : s.ahead.length with
      | zero =>
        simp [iterate, hlength]
      | succ m =>
        simp only [iterate, hlength]
        congr 1
        refine List.flatMap_congr fun t ht => ?_
        have hshort := of_decide_eq_true (List.mem_filter.mp ht).2
        rw [ih n (Nat.lt_succ_self n) (by omega), ih m (by omega) (by omega)]

theorem flatMap_filter_eq (l : List Place) (keep : Place → Bool) (next : Place → List Place) :
    (l.filter keep).flatMap next = l.flatMap fun t => if keep t then next t else [] := by
  induction l with
  | nil => rfl
  | cons t l ih =>
    by_cases hkeep : keep t = true
    · simp [hkeep, ih]
    · simp [hkeep, ih]

theorem iterate_inside (p : Pat) (rest : List Char) {n : Nat} {s : Place} (h : s.ahead.length ≤ n) :
    (iterate p.ends n (s.extend rest)).filterMap (Place.inside rest) =
      iterate (p.endsIn rest) s.ahead.length s := by
  have hself : ∀ s : Place, [s.extend rest].filterMap (Place.inside rest) = [s] := by
    intro s
    rw [List.filterMap_cons, inside_extend, List.filterMap_nil]
  have hextend : ∀ t : Place, (t.extend rest).ahead.length = t.ahead.length + rest.length :=
    fun t => List.length_append
  induction n generalizing s with
  | zero =>
    rw [Nat.le_zero.mp h]
    exact hself s
  | succ n ih =>
    have hnext : ∀ t, ∀ u ∈ (if t.ahead.length < (s.extend rest).ahead.length then iterate p.ends n t else []),
        u.ahead.length ≤ t.ahead.length := by
      intro t u hu
      split at hu
      · exact (iterate_rel (fun _ => Taken.rfl) (fun _ _ _ => Taken.trans) (ends_taken p) n t u hu).length_le
      · exact absurd hu List.not_mem_nil
    rw [iterate, List.filterMap_append, hself, flatMap_filter_eq]
    simp only [decide_eq_true_eq]
    rw [inside_flatMap hnext]
    cases hlength : s.ahead.length with
    | zero =>
      have hnone : ∀ t ∈ p.endsIn rest s, ¬ (t.extend rest).ahead.length < (s.extend rest).ahead.length := by
        intro t ht
        rw [hextend, hextend]
        have := endsIn_length_le p rest s t ht
        omega
      rw [iterate, List.flatMap_congr fun t ht => by rw [if_neg (hnone t ht)]]
      simp
    | succ m =>
      rw [iterate, flatMap_filter_eq]
      congr 1
      refine List.flatMap_congr fun t ht => ?_
      by_cases hshort : t.ahead.length < s.ahead.length
      · have hlonger : (t.extend rest).ahead.length < (s.extend rest).ahead.length := by
          rw [hextend, hextend]
          omega
        rw [if_pos hlonger, if_pos (decide_eq_true hshort), ih (by omega),
          iterate_rounds (n := m) _ (by omega)]
      · have hlonger : ¬ (t.extend rest).ahead.length < (s.extend rest).ahead.length := by
          rw [hextend, hextend]
          omega
        rw [if_neg hlonger, if_neg (by simpa using hshort)]
        rfl

theorem endsIn_star (p : Pat) (rest : List Char) (s : Place) :
    (Pat.star p).endsIn rest s = iterate (p.endsIn rest) s.ahead.length s := by
  refine iterate_inside p rest ?_
  rw [Place.extend, List.length_append]
  exact Nat.le_add_right _ _

/-- A place that passes a test, or none. -/
theorem endsIn_test {p : Pat} {rest : List Char} {s : Place} (test : Bool)
    (h : p.ends (s.extend rest) = if test then [s.extend rest] else []) :
    p.endsIn rest s = if test then [s] else [] := by
  rw [Pat.endsIn, h]
  cases test with
  | false => rfl
  | true =>
    rw [if_pos rfl, if_pos rfl, List.filterMap_cons, inside_extend]
    rfl

theorem endsIn_one (accepts : Char → Bool) (rest : List Char) (s : Place) :
    (Pat.one accepts).endsIn rest s = (Pat.one accepts).ends s := by
  cases hahead : s.ahead with
  | nil =>
    cases rest with
    | nil => simp [Pat.endsIn, Pat.ends, Place.extend, hahead]
    | cons c rest =>
      simp only [Pat.endsIn, Pat.ends, Place.extend, hahead, List.nil_append]
      split <;> simp [Place.inside]
  | cons c ahead =>
    simp only [Pat.endsIn, Pat.ends, Place.extend, hahead, List.cons_append]
    split
    · exact List.filterMap_cons_some (inside_extend rest { s with behind := some c, ahead := ahead })
    · rfl

theorem atBoundary_extend {rest rest' : List Char} (h : rest.head?.any word = rest'.head?.any word) (s : Place) :
    (s.extend rest).atBoundary = (s.extend rest').atBoundary := by
  cases hahead : s.ahead with
  | nil => simp [Place.atBoundary, Place.extend, hahead, h]
  | cons c ahead => simp [Place.atBoundary, Place.extend, hahead]

theorem endsIn_group (p : Pat) (rest : List Char) (s : Place) :
    (Pat.group p).endsIn rest s = (p.endsIn rest s).map fun t =>
      { t with groups := t.groups ++ [s.ahead.take (s.ahead.length - t.ahead.length)] } := by
  have hends := ends_taken p (s.extend rest)
  rw [Pat.endsIn, Pat.endsIn, Pat.ends, List.filterMap_map, List.map_filterMap]
  refine List.filterMap_congr fun t ht => ?_
  rcases (hends t ht).inside with hpast | ⟨u, rfl, hu⟩
  · rw [inside_none hpast]
    exact inside_none hpast
  · have hcount : (s.ahead ++ rest).length - (u.ahead ++ rest).length = s.ahead.length - u.ahead.length := by
      rw [List.length_append, List.length_append, Nat.add_sub_add_right]
    have htake : (s.ahead ++ rest).take ((s.ahead ++ rest).length - (u.ahead ++ rest).length) =
        s.ahead.take (s.ahead.length - u.ahead.length) := by
      rw [hcount, List.take_append_of_le_length (Nat.sub_le _ _)]
    rw [inside_extend]
    have hgroup := inside_extend rest
      { u with groups := u.groups ++ [s.ahead.take (s.ahead.length - u.ahead.length)] }
    rw [← htake] at hgroup
    rw [Function.comp_apply, Option.map_some, ← htake]
    exact hgroup

/-- What stands behind the front is felt only as a word character or none. -/
theorem endsIn_congr (p : Pat) {rest rest' : List Char} (h : rest.head?.any word = rest'.head?.any word)
    (s : Place) : p.endsIn rest s = p.endsIn rest' s := by
  induction p generalizing s with
  | empty => rw [endsIn_test true rfl, endsIn_test true rfl]
  | start => rw [endsIn_test (s := s) _ rfl, endsIn_test (s := s) _ rfl, Place.extend, Place.extend]
  | boundary => rw [endsIn_test (s := s) _ rfl, endsIn_test (s := s) _ rfl, atBoundary_extend h]
  | one accepts => rw [endsIn_one, endsIn_one]
  | seq p q ihp ihq => rw [endsIn_seq, endsIn_seq, ihp, funext ihq]
  | or p q ihp ihq => rw [endsIn_or, endsIn_or, ihp, ihq]
  | star p ih => rw [endsIn_star, endsIn_star, funext ih]
  | group p ih => rw [endsIn_group, endsIn_group, ih]

/-- Matches that all stay inside the front are matches of the front. -/
theorem ends_extend {p : Pat} {rest : List Char} {s : Place}
    (h : ∀ t ∈ p.ends (s.extend rest), rest.length ≤ t.ahead.length) :
    p.ends (s.extend rest) = (p.endsIn rest s).map (Place.extend rest) := by
  have hends := ends_taken p (s.extend rest)
  rw [Pat.endsIn]
  generalize p.ends (s.extend rest) = l at h hends
  induction l with
  | nil => rfl
  | cons t l ih =>
    have hrest := ih (fun u hu => h u (List.mem_cons_of_mem t hu)) fun u hu => hends u (List.mem_cons_of_mem t hu)
    rcases (hends t List.mem_cons_self).inside with hpast | ⟨u, rfl, -⟩
    · exact absurd (h t List.mem_cons_self) (Nat.not_le_of_lt hpast)
    · rw [List.filterMap_cons, inside_extend, List.map_cons, ← hrest]

/-! ### Texts cut at a character -/

/-- No match goes past a character that the pattern never takes. -/
theorem ends_before {p : Pat} {c : Char} (hc : p.takes c = false) {front rest : List Char} {s : Place}
    (h : s.ahead = front ++ c :: rest) : ∀ t ∈ p.ends s, ∃ front', t.ahead = front' ++ c :: rest ∧ front' <:+ front := by
  intro t ht
  obtain ⟨l, hl, hlc, -⟩ := ends_taken p s t ht
  rw [h] at hl
  rcases List.append_eq_append_iff.mp hl with ⟨l', hbefore, hafter⟩ | ⟨front', hbefore, hafter⟩
  · cases l' with
    | nil => exact ⟨[], hafter.symm, List.nil_suffix⟩
    | cons d l' =>
      have hd : d = c := (List.cons.inj hafter).1.symm
      have htakes := hlc d (by rw [hbefore]; simp)
      rw [hd, hc] at htakes
      cases htakes
  · exact ⟨front', hafter, ⟨l, hbefore.symm⟩⟩

theorem length_le_of_takes {p : Pat} {c : Char} (hc : p.takes c = false) (rest : List Char) {s : Place} :
    ∀ t ∈ p.ends (s.extend (c :: rest)), (c :: rest).length ≤ t.ahead.length := by
  intro t ht
  obtain ⟨front', hahead, -⟩ := ends_before hc (s := s.extend (c :: rest)) rfl t ht
  rw [hahead, List.length_append]
  exact Nat.le_add_left _ _

/-- So many characters a match takes. -/
def Pat.width (p : Pat) (behind : Option Char) (text : List Char) : Option Nat :=
  (p.here behind text).map fun s => text.length - s.ahead.length

theorem width_none {p : Pat} {behind : Option Char} {text : List Char}
    (h : p.ends { behind := behind, ahead := text } = []) : p.width behind text = none := by
  rw [Pat.width, Pat.here, h]
  rfl

theorem width_cut {p : Pat} {c : Char} (hc : p.takes c = false) (behind : Option Char) (front rest rest' : List Char) :
    p.width behind (front ++ c :: rest) = p.width behind (front ++ c :: rest') ∧
      ∀ n ∈ p.width behind (front ++ c :: rest), n ≤ front.length := by
  have hends : ∀ rest, p.ends { behind := behind, ahead := front ++ c :: rest } =
      (p.endsIn [c] { behind := behind, ahead := front }).map (Place.extend (c :: rest)) := by
    intro rest
    have h := ends_extend (s := { behind := behind, ahead := front }) (length_le_of_takes hc rest)
    rw [endsIn_congr p (show (c :: rest).head?.any word = [c].head?.any word from rfl)] at h
    exact h
  have hwidth : ∀ rest, p.width behind (front ++ c :: rest) =
      (p.endsIn [c] { behind := behind, ahead := front }).head?.map fun s => front.length - s.ahead.length := by
    intro rest
    rw [Pat.width, Pat.here, hends, List.head?_map, Option.map_map]
    congr 1
    funext s
    simp only [Function.comp_apply, Place.extend, List.length_append]
    omega
  refine ⟨(hwidth rest).trans (hwidth rest').symm, ?_⟩
  intro n hn
  rw [hwidth, Option.mem_def, Option.map_eq_some_iff] at hn
  obtain ⟨s, -, rfl⟩ := hn
  exact Nat.sub_le _ _

theorem replaceFrom_cons (p : Pat) (new : List Char) (behind : Option Char) (c : Char) (rest : List Char) :
    p.replaceFrom new behind 0 (c :: rest) = match p.width behind (c :: rest) with
      | some (k + 1) => new ++ p.replaceFrom new (some c) k rest
      | some 0 | none => c :: p.replaceFrom new (some c) 0 rest := rfl

theorem getLast?_cons_or (c : Char) (l : List Char) (o : Option Char) :
    (c :: l).getLast?.or o = l.getLast?.or (some c) := by
  rw [List.getLast?_cons]
  cases l.getLast? with
  | none => rfl
  | some d => rfl

/-- Inside a match that has been replaced. -/
theorem replaceFrom_skip (p : Pat) (new : List Char) (behind : Option Char) (l rest : List Char) :
    p.replaceFrom new behind l.length (l ++ rest) = p.replaceFrom new (l.getLast?.or behind) 0 rest := by
  induction l generalizing behind with
  | nil => rfl
  | cons c l ih =>
    rw [getLast?_cons_or, ← ih (some c)]
    rfl

theorem replaceFrom_untaken {p : Pat} {c : Char} (hc : p.takes c = false) (new : List Char)
    (behind : Option Char) (rest : List Char) :
    p.replaceFrom new behind 0 (c :: rest) = c :: p.replaceFrom new (some c) 0 rest := by
  have hwidth := (width_cut hc behind [] rest rest).2
  rw [replaceFrom_cons]
  split
  · rename_i k hk
    exact absurd (hwidth (k + 1) hk) (Nat.not_succ_le_zero k)
  · rfl
  · rfl

/-- A match that takes a text whole. -/
theorem replaceFrom_match {p : Pat} {behind : Option Char} {l : List Char} (hl : l ≠ []) {rest : List Char}
    (h : p.width behind (l ++ rest) = some l.length) (new : List Char) :
    p.replaceFrom new behind 0 (l ++ rest) = new ++ p.replaceFrom new l.getLast? 0 rest := by
  cases l with
  | nil => exact absurd rfl hl
  | cons c l =>
    rw [List.cons_append] at h ⊢
    rw [replaceFrom_cons, h]
    have hlast := getLast?_cons_or c l none
    rw [Option.or_none] at hlast
    rw [hlast, ← replaceFrom_skip p new (some c) l rest]
    rfl

/-- A character that a pattern never takes cuts a text in two that are replaced apart. -/
theorem replaceFrom_cut {p : Pat} {c : Char} (hc : p.takes c = false) (new front : List Char) {skip : Nat}
    (hskip : skip ≤ front.length) (behind : Option Char) :
    ∃ front', ∀ rest, p.replaceFrom new behind skip (front ++ c :: rest) =
      front' ++ c :: p.replaceFrom new (some c) 0 rest := by
  induction front generalizing skip behind with
  | nil =>
    rw [Nat.le_zero.mp hskip]
    exact ⟨[], fun rest => replaceFrom_untaken hc new behind rest⟩
  | cons d front ih =>
    cases skip with
    | succ k =>
      obtain ⟨front', hfront⟩ := ih (Nat.le_of_succ_le_succ hskip) (some d)
      exact ⟨front', hfront⟩
    | zero =>
      have hwidth : ∀ rest, p.width behind (d :: (front ++ c :: rest)) = p.width behind (d :: (front ++ [c])) :=
        fun rest => (width_cut hc behind (d :: front) rest []).1
      have hbound : ∀ n ∈ p.width behind (d :: (front ++ [c])), n ≤ front.length + 1 :=
        (width_cut hc behind (d :: front) [] []).2
      simp only [List.cons_append, replaceFrom_cons, hwidth]
      split
      · rename_i k hw
        obtain ⟨front', hfront⟩ := ih (Nat.le_of_succ_le_succ (hbound (k + 1) hw)) (some d)
        exact ⟨new ++ front', fun rest => by rw [hfront, List.append_assoc]⟩
      all_goals
        obtain ⟨front', hfront⟩ := ih (Nat.zero_le _) (some d)
        exact ⟨d :: front', fun rest => by rw [hfront, List.cons_append]⟩

/-! ### Patterns that only match at the start -/

theorem replaceFrom_start {p : Pat} (h : ∀ c text groups, p.ends ⟨some c, text, groups⟩ = []) (new : List Char)
    (c : Char) (skip : Nat) (text : List Char) : p.replaceFrom new (some c) skip text = text.drop skip := by
  induction text generalizing c skip with
  | nil => cases skip <;> rfl
  | cons d text ih =>
    cases skip with
    | succ k => exact ih d k
    | zero =>
      have hnone : p.width (some c) (d :: text) = none := by rw [Pat.width, Pat.here, h]; rfl
      rw [replaceFrom_cons, hnone]
      exact congrArg (d :: ·) (ih d 0)

/-- Such a match is cut off, once. -/
theorem replaceAll_start {p : Pat} (h : ∀ c text groups, p.ends ⟨some c, text, groups⟩ = []) (text : List Char) :
    p.replaceAll text [] = text.drop ((p.width none text).getD 0) := by
  cases text with
  | nil => rw [List.drop_nil]; rfl
  | cons c text =>
    rw [Pat.replaceAll, replaceFrom_cons]
    split
    · rename_i k hk
      rw [hk, replaceFrom_start h]
      rfl
    · rename_i hk
      rw [hk, replaceFrom_start h]
      rfl
    · rename_i hk
      rw [hk, replaceFrom_start h]
      rfl

/-! ### The preferred end -/

def Pat.first (p : Pat) (s : Place) : Option Place := (p.ends s).head?

def Place.after (s : Place) (l rest : List Char) : Place :=
  { s with behind := l.getLast?.or s.behind, ahead := rest }

theorem first_seq {p q : Pat} {s t u : Place} (hp : p.first s = some t) (hq : q.first t = some u) :
    (Pat.seq p q).first s = some u := by
  obtain ⟨ts, hts⟩ := List.head?_eq_some_iff.mp hp
  obtain ⟨us, hus⟩ := List.head?_eq_some_iff.mp hq
  rw [Pat.first, Pat.ends, hts, List.flatMap_cons, hus]
  rfl

/-- The preferred end is reached from some end of the first part. -/
theorem first_seq_some {p q : Pat} {s u : Place} (h : (Pat.seq p q).first s = some u) :
    ∃ t ∈ p.ends s, q.first t = some u := by
  rw [Pat.first, Pat.ends, List.head?_flatMap] at h
  exact List.exists_of_findSome?_eq_some h

theorem first_or_right {p q : Pat} {s : Place} (h : p.ends s = []) : (Pat.or p q).first s = q.first s := by
  rw [Pat.first, Pat.ends, h, List.nil_append, Pat.first]

theorem first_or_left {p q : Pat} {s t : Place} (h : p.first s = some t) : (Pat.or p q).first s = some t := by
  obtain ⟨ts, hts⟩ := List.head?_eq_some_iff.mp h
  rw [Pat.first, Pat.ends, hts]
  rfl

theorem first_opt {p : Pat} {s : Place} (h : p.ends s = []) : (Pat.opt p).first s = some s := first_or_right h

theorem first_one (accepts : Char → Bool) {s : Place} {c : Char} {rest : List Char} (h : s.ahead = c :: rest)
    (hc : accepts c = true) : (Pat.one accepts).first s = some (s.after [c] rest) := by
  rw [Pat.first, Pat.ends, h]
  simp only [hc, if_true]
  rfl

theorem first_boundary {s : Place} (h : s.atBoundary = true) : Pat.boundary.first s = some s := by
  rw [Pat.first, Pat.ends, h]
  rfl

theorem after_nil {s : Place} {rest : List Char} (h : s.ahead = rest) : s.after [] rest = s := by
  subst h
  rfl

theorem after_cons (s : Place) (c : Char) (l rest rest' : List Char) :
    (s.after [c] rest').after l rest = s.after (c :: l) rest := by
  simp only [Place.after, getLast?_cons_or, List.getLast?_nil, Option.none_or]

theorem after_append (s : Place) (l l' rest rest' : List Char) :
    (s.after l rest').after l' rest = s.after (l ++ l') rest := by
  simp only [Place.after, List.getLast?_append, Option.or_assoc]

theorem width_of_first {p : Pat} {behind : Option Char} {l rest : List Char}
    (h : p.first { behind := behind, ahead := l ++ rest } =
      some (Place.after { behind := behind, ahead := l ++ rest } l rest)) :
    p.width behind (l ++ rest) = some l.length := by
  have hcount : (l ++ rest).length - rest.length = l.length := by
    rw [List.length_append, Nat.add_sub_cancel]
  rw [Pat.width, Pat.here, ← Pat.first, h, Option.map_some, Place.after, hcount]

theorem first_times (accepts : Char → Bool) {l : List Char} (rest : List Char) (hl : ∀ c ∈ l, accepts c = true) {s : Place}
    (h : s.ahead = l ++ rest) : (Pat.times l.length (.one accepts)).first s = some (s.after l rest) := by
  induction l generalizing s with
  | nil =>
    rw [List.nil_append] at h
    rw [after_nil h]
    rfl
  | cons c l ih =>
    obtain ⟨hc, hl⟩ := List.forall_mem_cons.mp hl
    have hrest := ih hl (s := s.after [c] (l ++ rest)) rfl
    rw [after_cons] at hrest
    exact first_seq (first_one _ h hc) hrest

/-- A repetition takes as much as it can. -/
theorem first_star (accepts : Char → Bool) {l : List Char} (rest : List Char) (hl : ∀ c ∈ l, accepts c = true)
    (hrest : rest.head?.any accepts = false) {s : Place} (h : s.ahead = l ++ rest) :
    (Pat.star (.one accepts)).first s = some (s.after l rest) := by
  have hstep : ∀ n s, s.ahead = l ++ rest → l.length ≤ n →
      (iterate (Pat.one accepts).ends n s).head? = some (s.after l rest) := by
    clear h
    induction l with
    | nil =>
      intro n s h hn
      rw [List.nil_append] at h
      have hnone : (Pat.one accepts).ends s = [] := by
        rw [Pat.ends, h]
        cases rest with
        | nil => rfl
        | cons c rest =>
          have hc : accepts c = false := hrest
          simp [hc]
      rw [after_nil h]
      cases n with
      | zero => rfl
      | succ n => simp [iterate, hnone]
    | cons c l ih =>
      intro n s h hn
      obtain ⟨hc, hl⟩ := List.forall_mem_cons.mp hl
      cases n with
      | zero => exact absurd hn (Nat.not_succ_le_zero _)
      | succ n =>
        have hone : (Pat.one accepts).ends s = [s.after [c] (l ++ rest)] := by
          rw [Pat.ends, h]
          simp only [List.cons_append, hc, if_true]
          rfl
        have hshort : (s.after [c] (l ++ rest)).ahead.length < s.ahead.length := by
          rw [h]
          exact Nat.lt_succ_self _
        have hmore := ih hl n (s.after [c] (l ++ rest)) rfl (Nat.le_of_succ_le_succ hn)
        rw [after_cons] at hmore
        rw [iterate, hone, List.filter_cons_of_pos (by simpa using hshort), List.filter_nil, List.flatMap_singleton,
          List.head?_append, hmore]
        rfl
  refine hstep _ s h ?_
  rw [h, List.length_append]
  exact Nat.le_add_right _ _

theorem exists_greedy (accepts : Char → Bool) (text : List Char) :
    ∃ l rest, text = l ++ rest ∧ (∀ c ∈ l, accepts c = true) ∧ rest.head?.any accepts = false := by
  refine ⟨text.takeWhile accepts, text.dropWhile accepts, List.takeWhile_append_dropWhile.symm,
    List.all_eq_true.mp List.all_takeWhile, ?_⟩
  have hhead := List.head?_dropWhile_not accepts text
  cases hrest : (text.dropWhile accepts).head? with
  | none => rfl
  | some c =>
    rw [hrest] at hhead
    exact hhead

theorem first_plus (accepts : Char → Bool) {l : List Char} (hne : l ≠ []) (rest : List Char)
    (hl : ∀ c ∈ l, accepts c = true) (hrest : rest.head?.any accepts = false) {s : Place} (h : s.ahead = l ++ rest) :
    (Pat.plus (.one accepts)).first s = some (s.after l rest) := by
  cases l with
  | nil => exact absurd rfl hne
  | cons c l =>
    obtain ⟨hc, hl⟩ := List.forall_mem_cons.mp hl
    have hmore := first_star accepts rest hl hrest (s := s.after [c] (l ++ rest)) rfl
    rw [after_cons] at hmore
    exact first_seq (first_one accepts h hc) hmore

/-- Where one character is found, all that follow of its kind are taken. -/
theorem first_plus_greedy {accepts : Char → Bool} {s t : Place} (ht : t ∈ (Pat.plus (.one accepts)).ends s) :
    ∃ l rest, l ≠ [] ∧ s.ahead = l ++ rest ∧ (∀ c ∈ l, accepts c = true) ∧ rest.head?.any accepts = false ∧
      (Pat.plus (.one accepts)).first s = some (s.after l rest) := by
  obtain ⟨l, rest, hahead, hl, hrest⟩ := exists_greedy accepts s.ahead
  have hne : l ≠ [] := by
    intro hnil
    obtain ⟨u, hu, -⟩ := List.mem_flatMap.mp ht
    rw [hnil, List.nil_append] at hahead
    rw [Pat.ends, hahead] at hu
    cases rest with
    | nil => exact absurd hu List.not_mem_nil
    | cons c rest =>
      have hc : accepts c = false := hrest
      simp [hc] at hu
  exact ⟨l, rest, hne, hahead, hl, hrest, first_plus accepts hne rest hl hrest hahead⟩

/-! ### Patterns without a match -/

/-- A match takes at least one character. -/
def Pat.consumes : Pat → Bool
  | .empty | .start | .boundary | .star _ => false
  | .one _ => true
  | .seq p q => p.consumes || q.consumes
  | .or p q => p.consumes && q.consumes
  | .group p => p.consumes

theorem length_lt_of_consumes {p : Pat} (h : p.consumes = true) {s : Place} :
    ∀ t ∈ p.ends s, t.ahead.length < s.ahead.length := by
  induction p generalizing s with
  | empty | start | boundary | star => cases h
  | one accepts =>
    intro t ht
    rw [Pat.ends] at ht
    split at ht
    · exact absurd ht List.not_mem_nil
    · rename_i c rest hahead
      split at ht
      · rw [List.mem_singleton.mp ht, hahead]
        exact Nat.lt_succ_self _
      · exact absurd ht List.not_mem_nil
  | seq p q ihp ihq =>
    intro t ht
    obtain ⟨u, hu, ht⟩ := List.mem_flatMap.mp ht
    have hpu := (ends_taken p s u hu).length_le
    have hqt := (ends_taken q u t ht).length_le
    rcases (Bool.or_eq_true _ _).mp h with hp | hq
    · exact Nat.lt_of_le_of_lt hqt (ihp hp u hu)
    · exact Nat.lt_of_lt_of_le (ihq hq t ht) hpu
  | or p q ihp ihq =>
    intro t ht
    obtain ⟨hp, hq⟩ := (Bool.and_eq_true _ _).mp h
    rcases List.mem_append.mp ht with ht | ht
    · exact ihp hp t ht
    · exact ihq hq t ht
  | group p ih =>
    intro t ht
    obtain ⟨u, hu, rfl⟩ := List.mem_map.mp ht
    exact ih h u hu

theorem times_taken {accepts : Char → Bool} {n : Nat} {s : Place} :
    ∀ t ∈ (Pat.times n (.one accepts)).ends s, ∃ l, l.length = n ∧ s.ahead = l ++ t.ahead ∧
      ∀ c ∈ l, accepts c = true := by
  induction n generalizing s with
  | zero =>
    intro t ht
    rw [List.mem_singleton.mp ht]
    exact ⟨[], rfl, rfl, fun c hc => absurd hc List.not_mem_nil⟩
  | succ n ih =>
    intro t ht
    obtain ⟨u, hu, ht⟩ := List.mem_flatMap.mp ht
    obtain ⟨l, hlength, hl, hlc⟩ := ih t ht
    obtain ⟨l', hl', hlc', -⟩ := ends_taken _ s u hu
    have hone : l'.length = 1 := by
      rw [Pat.ends] at hu
      split at hu
      · exact absurd hu List.not_mem_nil
      · rename_i c rest hahead
        split at hu
        · rw [List.mem_singleton.mp hu, hahead] at hl'
          have hcount := congrArg List.length hl'
          simp only [List.length_cons, List.length_append] at hcount
          omega
        · exact absurd hu List.not_mem_nil
    refine ⟨l' ++ l, by rw [List.length_append, hone, hlength, Nat.add_comm], ?_, ?_⟩
    · rw [hl', hl, List.append_assoc]
    · exact List.forall_mem_append.mpr ⟨hlc', hlc⟩

/-! ### What holds at the ends -/

/-- A match from a place with the one property ends at a place with the other. -/
def Leads (p : Pat) (before after : Place → Prop) : Prop := ∀ s, before s → ∀ t ∈ p.ends s, after t

theorem Leads.seq {p q : Pat} {before between after : Place → Prop} (hp : Leads p before between)
    (hq : Leads q between after) : Leads (.seq p q) before after := by
  intro s hs t ht
  obtain ⟨u, hu, ht⟩ := List.mem_flatMap.mp ht
  exact hq u (hp s hs u hu) t ht

theorem Leads.empty (before : Place → Prop) : Leads .empty before before := by
  intro s hs t ht
  rw [List.mem_singleton.mp ht]
  exact hs

theorem Leads.weaken {p : Pat} {before before' after : Place → Prop} (h : Leads p before after)
    (hweak : ∀ s, before' s → before s) : Leads p before' after := fun s hs => h s (hweak s hs)

theorem mem_all_cons {p : Pat} {ps : List Pat} {s t : Place} :
    t ∈ (Pat.all (p :: ps)).ends s ↔ ∃ u ∈ p.ends s, t ∈ (Pat.all ps).ends u := List.mem_flatMap

end Regex
