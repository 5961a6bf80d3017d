import Mathlib.Order.Lattice
import Mathlib.Data.List.Basic

/-! Shipping the rows of a growing log past a watermark.

A log holds rows with times in a linear order and only grows by rows newer than all it
has (`Newer`). What lies past `a` and up to `b` is a `segment`; a connection ships
consecutive segments (`Chain`). A receiver keeps a `Prefix` when it holds everything
up to the newest row it holds, and extends it by what follows a time it has `Covered`. -/
namespace Watermark

variable {ρ τ : Type*} [LinearOrder τ] (ts : ρ → τ)

/-- The rows past `a` up to `b`. -/
def segment (rows : List ρ) (a b : τ) : List ρ := rows.filter fun r => decide (a < ts r ∧ ts r ≤ b)

/-- The new rows are newer than all there are. -/
def Newer (rows new : List ρ) : Prop := ∀ q ∈ new, ∀ r ∈ rows, ts r < ts q

/-- A watermark is where the log starts, or the time of a row. -/
def Mark (z : τ) (rows : List ρ) (t : τ) : Prop := t = z ∨ ∃ r ∈ rows, ts r = t

/-- Every row past `z` up to `t` is stored. -/
def Covered (z : τ) (rows stored : List ρ) (t : τ) : Prop :=
  ∀ q ∈ rows, z < ts q → ts q ≤ t → q ∈ stored

/-- What is stored are rows past `z`, and with a row every older one. -/
structure Prefix (z : τ) (rows stored : List ρ) : Prop where
  mem : ∀ r ∈ stored, r ∈ rows ∧ z < ts r
  closed : ∀ r ∈ stored, Covered ts z rows stored (ts r)

/-- Batches that follow one another from `a` to `c`, each a segment up to a row's time. -/
def Chain (rows : List ρ) : τ → List (List ρ) → τ → Prop
  | a, [], c => a = c
  | a, batch :: rest, c => ∃ b, a < b ∧ (∃ r ∈ rows, ts r = b) ∧ batch.Perm (segment ts rows a b) ∧
      Chain rows b rest c

section
variable {ts} {z a b c t : τ} {rows stored new : List ρ} {bs cs : List (List ρ)} {q : ρ}

@[simp] theorem mem_segment : q ∈ segment ts rows a b ↔ q ∈ rows ∧ a < ts q ∧ ts q ≤ b := by
  simp [segment]

/-- Two consecutive segments are one. -/
theorem segment_append (hab : a ≤ b) (hbc : b ≤ c) :
    (segment ts rows a b ++ segment ts rows b c).Perm (segment ts rows a c) := by
  have hsplit := List.filter_append_perm (fun r => decide (ts r ≤ b)) (segment ts rows a c)
  refine .trans ?_ hsplit
  simp only [segment, List.filter_filter]
  refine List.Perm.append (.of_eq ?_) (.of_eq ?_)
  · refine List.filter_congr fun r _ => ?_
    simp only [← Bool.decide_and, decide_eq_decide]
    exact ⟨fun h => ⟨h.2, h.1, h.2.trans hbc⟩, fun h => ⟨h.2.1, h.1⟩⟩
  · refine List.filter_congr fun r _ => ?_
    simp only [← decide_not, ← Bool.decide_and, decide_eq_decide, not_le]
    exact ⟨fun h => ⟨h.1, hab.trans_lt h.1, h.2⟩, fun h => ⟨h.1, h.2.2⟩⟩

@[simp] theorem segment_self : segment ts rows a a = [] := by
  refine List.filter_eq_nil_iff.mpr fun r _ => ?_
  simp

/-- In a log in time order, what lies up to a time is what comes first. -/
theorem segment_prefix (hsorted : rows.Pairwise fun r q => ts r ≤ ts q) (hz : ∀ r ∈ rows, z < ts r) :
    segment ts rows z t <+: rows := by
  induction rows with
  | nil => exact List.prefix_rfl
  | cons r rest ih =>
    obtain ⟨hr, hrest⟩ := List.pairwise_cons.mp hsorted
    have hzr := hz r (by simp)
    by_cases hrt : ts r ≤ t
    · rw [segment, List.filter_cons_of_pos (by simp [hzr, hrt]), List.prefix_cons_inj]
      exact ih hrest fun q hq => hz q (by simp [hq])
    · have hnone : segment ts (r :: rest) z t = [] := by
        refine List.filter_eq_nil_iff.mpr fun q hq => ?_
        rcases List.mem_cons.mp hq with rfl | hq
        · simp [hrt]
        · simp [not_le.mpr ((not_le.mp hrt).trans_le (hr q hq))]
      rw [hnone]
      exact List.nil_prefix

/-! ### Growing -/

omit [LinearOrder τ] in
theorem Mark.grow (h : Mark ts z rows t) : Mark ts z (rows ++ new) t := by
  refine h.imp_right ?_
  rintro ⟨r, hr, ht⟩
  exact ⟨r, List.mem_append_left _ hr, ht⟩

/-- Segments up to a row's time are settled. -/
theorem segment_grow (hnew : Newer ts rows new) (hb : ∃ r ∈ rows, ts r = b) :
    segment ts (rows ++ new) a b = segment ts rows a b := by
  obtain ⟨r, hr, rfl⟩ := hb
  have hnone : segment ts new a (ts r) = [] := by
    refine List.filter_eq_nil_iff.mpr fun q hq => ?_
    have hlt := hnew q hq r hr
    simpa using fun _ => hlt
  rw [segment, List.filter_append]
  show segment ts rows a (ts r) ++ segment ts new a (ts r) = _
  rw [hnone, List.append_nil]

/-- So is everything up to a watermark. -/
theorem segment_mark_grow (hnew : Newer ts rows new) (ht : Mark ts z rows t) :
    segment ts (rows ++ new) z t = segment ts rows z t := by
  rcases ht with rfl | ht
  · rw [segment_self, segment_self]
  · exact segment_grow hnew ht

theorem Covered.grow (hnew : Newer ts rows new) (ht : Mark ts z rows t) (h : Covered ts z rows stored t) :
    Covered ts z (rows ++ new) stored t := by
  intro q hq hz hqt
  rcases List.mem_append.mp hq with hold | hq
  · exact h q hold hz hqt
  · rcases ht with rfl | ⟨r, hr, rfl⟩
    · exact absurd hz (not_lt.mpr hqt)
    · exact absurd (hnew q hq r hr) (not_lt.mpr hqt)

theorem Prefix.grow (hnew : Newer ts rows new) (h : Prefix ts z rows stored) :
    Prefix ts z (rows ++ new) stored where
  mem r hr := ⟨List.mem_append_left _ (h.mem r hr).1, (h.mem r hr).2⟩
  closed r hr := (h.closed r hr).grow hnew (.inr ⟨r, (h.mem r hr).1, rfl⟩)

theorem Chain.grow (hnew : Newer ts rows new) (h : Chain ts rows a bs c) : Chain ts (rows ++ new) a bs c := by
  induction bs generalizing a with
  | nil => exact h
  | cons batch rest ih =>
    obtain ⟨b, hab, hb, hperm, hrest⟩ := h
    refine ⟨b, hab, ?_, ?_, ih hrest⟩
    · obtain ⟨r, hr, ht⟩ := hb
      exact ⟨r, List.mem_append_left _ hr, ht⟩
    · rwa [segment_grow hnew hb]

/-! ### Batches in a row -/

theorem chain_append : Chain ts rows a (bs ++ cs) c ↔ ∃ b, Chain ts rows a bs b ∧ Chain ts rows b cs c := by
  induction bs generalizing a with
  | nil => simp [Chain]
  | cons batch rest ih =>
    simp only [List.cons_append, Chain, ih]
    constructor
    · rintro ⟨m, ham, hm, hperm, b, hrest, hcs⟩
      exact ⟨b, ⟨m, ham, hm, hperm, hrest⟩, hcs⟩
    · rintro ⟨b, ⟨m, ham, hm, hperm, hrest⟩, hcs⟩
      exact ⟨m, ham, hm, hperm, b, hrest, hcs⟩

theorem Chain.le (h : Chain ts rows a bs c) : a ≤ c := by
  induction bs generalizing a with
  | nil => exact le_of_eq h
  | cons batch rest ih =>
    obtain ⟨b, hab, -, -, hrest⟩ := h
    exact hab.le.trans (ih hrest)

theorem Chain.mark (h : Chain ts rows a bs c) (ha : Mark ts z rows a) : Mark ts z rows c := by
  induction bs generalizing a with
  | nil => exact h ▸ ha
  | cons batch rest ih =>
    obtain ⟨b, -, hb, -, hrest⟩ := h
    exact ih hrest (.inr hb)

/-- The batches of a chain hold the rows past its start up to its end. -/
theorem Chain.mem_iff (h : Chain ts rows a bs c) :
    (∃ batch ∈ bs, q ∈ batch) ↔ q ∈ rows ∧ a < ts q ∧ ts q ≤ c := by
  induction bs generalizing a with
  | nil =>
    obtain rfl : a = c := h
    simp
  | cons batch rest ih =>
    obtain ⟨b, hab, -, hperm, hrest⟩ := h
    have hbatch : q ∈ batch ↔ q ∈ rows ∧ a < ts q ∧ ts q ≤ b := by rw [hperm.mem_iff, mem_segment]
    simp only [List.mem_cons, exists_eq_or_imp, ih hrest, hbatch]
    constructor
    · rintro (⟨hq, haq, hqb⟩ | ⟨hq, hbq, hqc⟩)
      · exact ⟨hq, haq, hqb.trans hrest.le⟩
      · exact ⟨hq, hab.trans hbq, hqc⟩
    · rintro ⟨hq, haq, hqc⟩
      rcases le_or_gt (ts q) b with hqb | hbq
      · exact .inl ⟨hq, haq, hqb⟩
      · exact .inr ⟨hq, hbq, hqc⟩

/-! ### Storing -/

theorem Covered.mono {more : List ρ} (h : Covered ts z rows stored t) (hsub : ∀ q ∈ stored, q ∈ more) :
    Covered ts z rows more t := fun q hq hz hqt => hsub q (h q hq hz hqt)

/-- What is covered reaches the end of a chain whose batches are stored. -/
theorem Covered.chain (h : Covered ts z rows stored a) (hchain : Chain ts rows a bs c)
    (hstored : ∀ batch ∈ bs, ∀ q ∈ batch, q ∈ stored) : Covered ts z rows stored c := by
  intro q hq hz hqc
  rcases le_or_gt (ts q) a with hqa | haq
  · exact h q hq hz hqa
  · obtain ⟨batch, hbatch, hqb⟩ := hchain.mem_iff.mpr ⟨hq, haq, hqc⟩
    exact hstored batch hbatch q hqb

/-- A prefix is extended by the oldest rows past a time it covers. -/
theorem Prefix.extend (h : Prefix ts z rows stored) (hza : z ≤ a) (hcovered : Covered ts z rows stored a)
    (hmem : ∀ q ∈ new, q ∈ rows ∧ a < ts q)
    (holdest : ∀ r ∈ new, ∀ q ∈ rows, a < ts q → ts q ≤ ts r → q ∈ new) :
    Prefix ts z rows (stored ++ new) := by
  constructor
  case mem =>
    intro r hr
    rcases List.mem_append.mp hr with hr | hr
    · exact h.mem r hr
    · exact ⟨(hmem r hr).1, hza.trans_lt (hmem r hr).2⟩
  case closed =>
    intro r hr q hq hz hqr
    rcases List.mem_append.mp hr with hr | hr
    · exact List.mem_append_left _ (h.closed r hr q hq hz hqr)
    · rcases le_or_gt (ts q) a with hqa | haq
      · exact List.mem_append_left _ (hcovered q hq hz hqa)
      · exact List.mem_append_right _ (holdest r hr q hq haq hqr)

end

end Watermark
