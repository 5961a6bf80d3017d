import Marshal.Lib.FilePath

/-! The text of a cleaned path.

`Clean` writes what is left of a path once its `.` and `..` are taken in. A relative text that does not
begin with `..` climbs nowhere (`climbs_iff`), and a clean directory joined with a text is the directory with
the text's components entered (`Clean_join`). -/
namespace FilePath

/-- A path that climbs and descends, as it is written. -/
def relText (r : Nat × List String) : List Char :=
  match List.replicate r.1 ".." ++ r.2 with
  | [] => ['.']
  | c :: rest => c.toList ++ slashed rest

def Clean (s : String) : List Char := if IsAbs s then text (join [] s) else relText (relative s)

/-! ### A text that climbs -/

theorem relStep_clean {r : Nat × List String} {c : String} (hr : ∀ d ∈ r.2, Ordinary d) (hc : '/' ∉ c.toList) :
    ∀ d ∈ (relStep r c).2, Ordinary d := by
  unfold relStep
  split
  · exact hr
  · rename_i hdot
    rw [not_or] at hdot
    split
    · split
      · simp
      · exact fun d hd => hr d (List.mem_of_mem_dropLast hd)
    · rename_i hdotdot
      intro d hd
      rcases List.mem_append.mp hd with hd | hd
      · exact hr d hd
      · rw [List.mem_singleton.mp hd]
        exact ⟨hdot.1, hdot.2, hdotdot, hc⟩

theorem relative_clean (s : String) : ∀ d ∈ (relative s).2, Ordinary d := by
  have hfold : ∀ (cs : List String) (r : Nat × List String), (∀ c ∈ cs, '/' ∉ c.toList) →
      (∀ d ∈ r.2, Ordinary d) → ∀ d ∈ (cs.foldl relStep r).2, Ordinary d := by
    intro cs
    induction cs with
    | nil => exact fun r _ hr => hr
    | cons c rest ih =>
      exact fun r hcs hr => ih _ (fun d hd => hcs d (List.mem_cons_of_mem c hd))
        (relStep_clean hr (hcs c List.mem_cons_self))
  exact hfold _ _ (fun c hc => slash_notMem_split hc) (by simp)

/-- A component and what is after it begin with `..` and a slash, or are `..`, only if the component is. -/
theorem dotdot_iff {c : String} (hc : '/' ∉ c.toList) (rest : List String) :
    (c.toList ++ slashed rest = "..".toList ∨ "../".toList <+: c.toList ++ slashed rest) ↔ c = ".." := by
  have hdots : '/' ∉ "..".toList := by decide
  cases rest with
  | nil =>
    rw [show slashed [] = [] from rfl, List.append_nil, String.toList_inj]
    refine or_iff_left fun h => hc (h.subset ?_)
    decide
  | cons d rest =>
    have hslash : slashed (d :: rest) = '/' :: (d.toList ++ slashed rest) := rfl
    rw [hslash]
    constructor
    · intro h
      rcases h with h | h
      · have hmem : '/' ∈ "..".toList := by
          rw [← h]
          simp
        exact absurd hmem hdots
      · obtain ⟨t, ht⟩ := h
        have hsplit : "..".toList ++ '/' :: t = c.toList ++ '/' :: (d.toList ++ slashed rest) := ht
        exact (String.toList_inj.mp (Separator.split_first hdots hc hsplit).1).symm
    · rintro rfl
      exact .inr ⟨d.toList ++ slashed rest, rfl⟩

/-- A relative path climbs exactly if it is cleaned to `..` or to something below it. -/
theorem climbs_iff {s : String} (h : IsAbs s = false) :
    (Clean s = "..".toList ∨ "../".toList <+: Clean s) ↔ (relative s).1 ≠ 0 := by
  have hclean := relative_clean s
  rw [Clean, h]
  generalize relative s = r at hclean ⊢
  obtain ⟨k, cs⟩ := r
  simp only [Bool.false_eq_true, if_false, relText]
  cases k with
  | zero =>
    refine iff_of_false ?_ (by simp)
    cases cs with
    | nil => decide
    | cons c rest =>
      have hc := hclean c List.mem_cons_self
      exact fun h => hc.dotdot ((dotdot_iff hc.slash rest).mp h)
  | succ k =>
    refine iff_of_true ?_ (by simp)
    exact (dotdot_iff (by decide) (List.replicate k ".." ++ cs)).mpr rfl

/-! ### A directory and a text below it -/

theorem split_line {c : List Char} (hc : '/' ∉ c) (s : List Char) :
    split (String.ofList (c ++ '/' :: s)) = String.ofList c :: split (String.ofList s) := by
  simp only [split, String.toList_ofList, Lines.splitOn_eq, Lines.cut_line hc, List.map_append,
    List.map_cons, List.cons_append]

theorem split_slashed {p : List String} (hp : ∀ c ∈ p, '/' ∉ c.toList) (s : List Char) :
    split (String.ofList (slashed p ++ '/' :: s)) = "" :: (p ++ split (String.ofList s)) := by
  induction p with
  | nil => exact split_line (c := []) (by simp) s
  | cons d p ih =>
    have ih := ih fun c hc => hp c (List.mem_cons_of_mem d hc)
    obtain ⟨w, hw⟩ : ∃ w, slashed p ++ '/' :: s = '/' :: w := by
      cases p with
      | nil => exact ⟨s, rfl⟩
      | cons e p => exact ⟨_, rfl⟩
    have hcons : slashed (d :: p) ++ '/' :: s = [] ++ '/' :: (d.toList ++ '/' :: w) := by
      rw [← hw, List.nil_append, ← List.append_assoc]
      rfl
    rw [hw] at ih
    have hfirst : split (String.ofList ('/' :: w)) = "" :: split (String.ofList w) :=
      split_line (c := []) (by simp) w
    rw [hfirst, List.cons.injEq] at ih
    rw [hcons, split_line (by simp), split_line (hp d List.mem_cons_self), ih.2, String.ofList_toList]
    rfl

/-- Cleaning a clean directory with a text after it enters the text's components. -/
theorem Clean_join (p : CleanPath) (hp : p.1 ≠ []) (s : String) :
    Clean (String.ofList (text p.1 ++ '/' :: s.toList)) = text (join p.1 s) := by
  have hslash : ∀ c ∈ p.1, '/' ∉ c.toList := fun c hc => (p.2 c hc).slash
  have htext : text p.1 = slashed p.1 := if_neg hp
  have habs : IsAbs (String.ofList (text p.1 ++ '/' :: s.toList)) = true := by
    obtain ⟨⟨⟩ | ⟨d, rest⟩, hclean⟩ := p
    · exact absurd rfl hp
    · simp [IsAbs, htext, slashed]
  have henter : p.1.foldl enter [] = p.1 := by
    have hfold : ∀ (q r : List String), (∀ c ∈ r, Ordinary c) → r.foldl enter q = q ++ r := by
      intro q r
      induction r generalizing q with
      | nil => simp
      | cons c r ih =>
        intro hr
        rw [List.foldl_cons, enter_ordinary (hr c List.mem_cons_self),
          ih _ fun d hd => hr d (List.mem_cons_of_mem c hd), List.append_assoc, List.singleton_append]
    exact hfold [] p.1 p.2
  rw [Clean, habs, if_pos rfl, join, htext, split_slashed hslash, List.foldl_cons, List.foldl_append]
  show text ((split (String.ofList s.toList)).foldl enter (p.1.foldl enter [])) = _
  rw [henter, String.ofList_toList]
  rfl

end FilePath
