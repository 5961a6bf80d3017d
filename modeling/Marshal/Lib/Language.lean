import Mathlib.Computability.Language
import Mathlib.Order.CompletePartialOrder
import Marshal.Lib.Matching

/-! The language of a pattern.

A pattern without anchors and groups matches from a place exactly the texts of its language,
whatever stands around them (`mem_ends_plain`). -/
namespace Regex
open scoped Computability

namespace Pat

/-- Without anchors and groups. -/
def plain : Pat → Bool
  | .empty | .one _ => true
  | .start | .boundary | .group _ => false
  | .seq p q | .or p q => p.plain && q.plain
  | .star p => p.plain

def language : Pat → Language Char
  | .empty => 1
  | .start | .boundary | .group _ => 0
  | .one accepts => {l | ∃ c, accepts c = true ∧ l = [c]}
  | .seq p q => p.language * q.language
  | .or p q => p.language + q.language
  | .star p => p.language∗

end Pat

/-- The places are apart by a text of the language. -/
def Spelled (L : Language Char) (s t : Place) : Prop := ∃ l ∈ L, ∃ rest, s.ahead = l ++ rest ∧ t = s.after l rest

theorem Spelled.mul {L M : Language Char} {s t : Place} :
    Spelled (L * M) s t ↔ ∃ u, Spelled L s u ∧ Spelled M u t := by
  constructor
  · intro h
    obtain ⟨l, hl, rest, hahead, rfl⟩ := h
    obtain ⟨a, ha, b, hb, rfl⟩ := Language.mem_mul.mp hl
    rw [List.append_assoc] at hahead
    refine ⟨s.after a (b ++ rest), ⟨a, ha, _, hahead, rfl⟩, b, hb, rest, rfl, ?_⟩
    rw [after_append]
  · intro h
    obtain ⟨u, ⟨a, ha, rest, hahead, rfl⟩, b, hb, rest', hrest, rfl⟩ := h
    refine ⟨a ++ b, Language.mem_mul.mpr ⟨a, ha, b, hb, rfl⟩, rest', ?_, by rw [after_append]⟩
    replace hrest : rest = b ++ rest' := hrest
    rw [hahead, hrest, List.append_assoc]

theorem Spelled.add {L M : Language Char} {s t : Place} : Spelled (L + M) s t ↔ Spelled L s t ∨ Spelled M s t := by
  constructor
  · intro h
    obtain ⟨l, hl, hrest⟩ := h
    exact hl.imp (fun hl => ⟨l, hl, hrest⟩) fun hl => ⟨l, hl, hrest⟩
  · intro h
    rcases h with ⟨l, hl, hrest⟩ | ⟨l, hl, hrest⟩
    · exact ⟨l, .inl hl, hrest⟩
    · exact ⟨l, .inr hl, hrest⟩

theorem Spelled.one {s t : Place} : Spelled 1 s t ↔ t = s := by
  constructor
  · intro h
    obtain ⟨l, hl, rest, hahead, rfl⟩ := h
    rw [(Language.mem_one l).mp hl] at hahead ⊢
    exact after_nil hahead
  · intro h
    exact ⟨[], Language.nil_mem_one, s.ahead, rfl, by rw [h, after_nil rfl]⟩

theorem Spelled.mono {L M : Language Char} (h : L ≤ M) {s t : Place} (hL : Spelled L s t) : Spelled M s t := by
  obtain ⟨l, hl, hrest⟩ := hL
  exact ⟨l, h hl, hrest⟩

/-- Rounds of a repetition and texts of the language in a row. -/
theorem mem_iterate {next : Place → List Place} {L : Language Char} (hnext : ∀ s t, t ∈ next s ↔ Spelled L s t)
    {n : Nat} {s : Place} (hn : s.ahead.length ≤ n) (t : Place) : t ∈ iterate next n s ↔ Spelled L∗ s t := by
  constructor
  · refine iterate_rel (r := Spelled L∗) ?_ ?_ ?_ n s t
    · exact fun s => Spelled.one.mpr rfl |>.mono one_le_kstar
    · intro s t u hst htu
      have hmul := Spelled.mul.mpr ⟨t, hst, htu⟩
      rw [kstar_mul_kstar] at hmul
      exact hmul
    · exact fun s t ht => ((hnext s t).mp ht).mono le_kstar
  · intro h
    obtain ⟨l, hl, rest, hahead, rfl⟩ := h
    obtain ⟨parts, rfl, hparts⟩ := Language.mem_kstar_iff_exists_nonempty.mp hl
    clear hl
    induction parts generalizing n s with
    | nil =>
      have hself : s ∈ iterate next n s := by
        cases n with
        | zero => exact List.mem_singleton.mpr rfl
        | succ n => exact List.mem_append_right _ (List.mem_singleton.mpr rfl)
      rw [List.flatten_nil, List.nil_append] at hahead
      rw [List.flatten_nil, after_nil hahead]
      exact hself
    | cons l parts ih =>
      obtain ⟨⟨hl, hne⟩, hparts⟩ := List.forall_mem_cons.mp hparts
      rw [List.flatten_cons, List.append_assoc] at hahead
      have hlength : 0 < l.length := List.length_pos_iff.mpr hne
      have hshort : (parts.flatten ++ rest).length < s.ahead.length := by
        rw [hahead, @List.length_append _ l]
        omega
      cases n with
      | zero => exact absurd hshort (by omega)
      | succ n =>
        refine List.mem_append_left _ (List.mem_flatMap.mpr ⟨s.after l (parts.flatten ++ rest), ?_, ?_⟩)
        · refine List.mem_filter.mpr ⟨(hnext s _).mpr ⟨l, hl, _, hahead, rfl⟩, ?_⟩
          exact decide_eq_true hshort
        · have hrounds := Nat.le_of_lt_succ (Nat.lt_of_lt_of_le hshort hn)
          have hmore := ih (s := s.after l (parts.flatten ++ rest)) hrounds hparts rfl
          rw [after_append] at hmore
          exact hmore

theorem mem_one {accepts : Char → Bool} {s t : Place} :
    t ∈ (Pat.one accepts).ends s ↔ Spelled (Pat.one accepts).language s t := by
  constructor
  · intro ht
    rw [Pat.ends] at ht
    split at ht
    · exact absurd ht List.not_mem_nil
    · rename_i c rest hahead
      split at ht
      · rename_i hc
        rw [List.mem_singleton.mp ht]
        exact ⟨[c], ⟨c, hc, rfl⟩, rest, hahead, rfl⟩
      · exact absurd ht List.not_mem_nil
  · intro h
    obtain ⟨l, ⟨c, hc, rfl⟩, rest, hahead, rfl⟩ := h
    have hfirst := first_one _ hahead hc
    exact List.mem_of_mem_head? hfirst

/-- A match of a plain pattern is a text of its language. -/
theorem mem_ends_plain {p : Pat} (hp : p.plain = true) {s t : Place} : t ∈ p.ends s ↔ Spelled p.language s t := by
  induction p generalizing s t with
  | empty => exact List.mem_singleton.trans Spelled.one.symm
  | start | boundary | group => cases hp
  | one accepts => exact mem_one
  | seq p q ihp ihq =>
    obtain ⟨hp, hq⟩ := (Bool.and_eq_true _ _).mp hp
    refine List.mem_flatMap.trans (Iff.trans ?_ Spelled.mul.symm)
    exact exists_congr fun u => and_congr (ihp hp) (ihq hq)
  | or p q ihp ihq =>
    obtain ⟨hp, hq⟩ := (Bool.and_eq_true _ _).mp hp
    exact List.mem_append.trans (Iff.trans (or_congr (ihp hp) (ihq hq)) Spelled.add.symm)
  | star p ih => exact mem_iterate (fun _ _ => ih hp) (Nat.le_refl _) t

/-! ### The languages of the derived patterns -/

theorem mem_language_one {accepts : Char → Bool} {l : List Char} :
    l ∈ (Pat.one accepts).language ↔ ∃ c, accepts c = true ∧ l = [c] := Iff.rfl

theorem mem_language_char {c : Char} {l : List Char} : l ∈ (Pat.char c).language ↔ l = [c] := by
  refine mem_language_one.trans ⟨fun h => ?_, fun h => ⟨c, beq_self_eq_true c, h⟩⟩
  obtain ⟨d, hd, rfl⟩ := h
  rw [eq_of_beq hd]

/-- One character of a kind, and texts of the rest. -/
theorem mem_language_seq_one {accepts : Char → Bool} {p : Pat} {l : List Char} :
    l ∈ (Pat.seq (.one accepts) p).language ↔ ∃ c l', l = c :: l' ∧ accepts c = true ∧ l' ∈ p.language := by
  refine Language.mem_mul.trans ⟨fun h => ?_, fun h => ?_⟩
  · obtain ⟨_, ⟨c, hc, rfl⟩, l', hl', rfl⟩ := h
    exact ⟨c, l', rfl, hc, hl'⟩
  · obtain ⟨c, l', rfl, hc, hl'⟩ := h
    exact ⟨[c], ⟨c, hc, rfl⟩, l', hl', rfl⟩

theorem mem_language_star {accepts : Char → Bool} {l : List Char} :
    l ∈ (Pat.star (.one accepts)).language ↔ ∀ c ∈ l, accepts c = true := by
  refine Language.mem_kstar.trans ⟨fun h => ?_, fun h => ?_⟩
  · obtain ⟨parts, rfl, hparts⟩ := h
    intro c hc
    obtain ⟨part, hpart, hc⟩ := List.mem_flatten.mp hc
    obtain ⟨d, hd, rfl⟩ := hparts part hpart
    rw [List.mem_singleton.mp hc]
    exact hd
  · refine ⟨l.map fun c => [c], by rw [← List.flatMap_def, List.flatMap_singleton'], fun part hpart => ?_⟩
    obtain ⟨c, hc, rfl⟩ := List.mem_map.mp hpart
    exact ⟨c, h c hc, rfl⟩

theorem mem_language_plus {accepts : Char → Bool} {l : List Char} :
    l ∈ (Pat.plus (.one accepts)).language ↔ l ≠ [] ∧ ∀ c ∈ l, accepts c = true := by
  refine mem_language_seq_one.trans ⟨fun h => ?_, fun h => ?_⟩
  · obtain ⟨c, l', rfl, hc, hl'⟩ := h
    exact ⟨List.cons_ne_nil c l', List.forall_mem_cons.mpr ⟨hc, mem_language_star.mp hl'⟩⟩
  · obtain ⟨hne, hl⟩ := h
    cases l with
    | nil => exact absurd rfl hne
    | cons c l =>
      obtain ⟨hc, hl⟩ := List.forall_mem_cons.mp hl
      exact ⟨c, l, rfl, hc, mem_language_star.mpr hl⟩

theorem mem_language_times {accepts : Char → Bool} {n : Nat} {l : List Char} :
    l ∈ (Pat.times n (.one accepts)).language ↔ l.length = n ∧ ∀ c ∈ l, accepts c = true := by
  induction n generalizing l with
  | zero =>
    refine (Language.mem_one l).trans ⟨fun h => ?_, fun h => List.eq_nil_of_length_eq_zero h.1⟩
    subst h
    exact ⟨rfl, fun c hc => absurd hc List.not_mem_nil⟩
  | succ n ih =>
    refine mem_language_seq_one.trans ⟨fun h => ?_, fun h => ?_⟩
    · obtain ⟨c, l', rfl, hc, hl'⟩ := h
      obtain ⟨hlength, hl'⟩ := ih.mp hl'
      exact ⟨by rw [List.length_cons, hlength], List.forall_mem_cons.mpr ⟨hc, hl'⟩⟩
    · obtain ⟨hlength, hl⟩ := h
      cases l with
      | nil => cases hlength
      | cons c l =>
        obtain ⟨hc, hl⟩ := List.forall_mem_cons.mp hl
        exact ⟨c, l, rfl, hc, ih.mpr ⟨Nat.succ.inj hlength, hl⟩⟩

theorem plain_times (n : Nat) {p : Pat} (hp : p.plain = true) : (Pat.times n p).plain = true := by
  induction n with
  | zero => rfl
  | succ n ih => exact (Bool.and_eq_true _ _).mpr ⟨hp, ih⟩

/-- Character by character the text without its case. -/
def Folds (m l : List Char) : Prop := List.Forall₂ (fun c d => foldsTo c d = true) m l

theorem mem_language_caseless {m : String} {l : List Char} : l ∈ (Pat.caseless m).language ↔ Folds m.toList l := by
  rw [Pat.caseless, Folds]
  induction m.toList generalizing l with
  | nil => exact (Language.mem_one l).trans List.forall₂_nil_left_iff.symm
  | cons c m ih =>
    refine mem_language_seq_one.trans (Iff.trans ?_ List.forall₂_cons_left_iff.symm)
    constructor
    · intro h
      obtain ⟨d, l', rfl, hd, hl'⟩ := h
      exact ⟨d, l', hd, ih.mp hl', rfl⟩
    · intro h
      obtain ⟨d, l', hd, hl', rfl⟩ := h
      exact ⟨d, l', rfl, hd, ih.mpr hl'⟩

theorem mem_language_text {m : String} {l : List Char} : l ∈ (Pat.text m).language ↔ l = m.toList := by
  rw [Pat.text]
  induction m.toList generalizing l with
  | nil => exact Language.mem_one l
  | cons c m ih =>
    refine mem_language_seq_one.trans ⟨fun h => ?_, fun h => ?_⟩
    · obtain ⟨d, l', rfl, hd, hl'⟩ := h
      rw [eq_of_beq hd, ih.mp hl']
    · exact ⟨c, m, h, beq_self_eq_true c, ih.mpr rfl⟩

theorem mem_language_any {ps : List Pat} {l : List Char} :
    l ∈ (Pat.any ps).language ↔ ∃ p ∈ ps, l ∈ p.language := by
  induction ps with
  | nil =>
    refine mem_language_one.trans ⟨fun h => ?_, fun h => ?_⟩
    · obtain ⟨c, hc, -⟩ := h
      cases hc
    · obtain ⟨p, hp, -⟩ := h
      exact absurd hp List.not_mem_nil
  | cons p ps ih =>
    cases ps with
    | nil => simp [Pat.any]
    | cons q ps =>
      have hchoice : l ∈ (Pat.any (p :: q :: ps)).language ↔ l ∈ p.language ∨ l ∈ (Pat.any (q :: ps)).language :=
        Language.mem_add _ _ l
      simp only [hchoice, ih, List.mem_cons, exists_eq_or_imp]

theorem mem_all_append {ps qs : List Pat} {s t : Place} :
    t ∈ (Pat.all (ps ++ qs)).ends s ↔ ∃ u ∈ (Pat.all ps).ends s, t ∈ (Pat.all qs).ends u := by
  induction ps generalizing s with
  | nil => exact ⟨fun h => ⟨s, List.mem_singleton.mpr rfl, h⟩, fun h => by
      obtain ⟨u, hu, ht⟩ := h
      rw [List.mem_singleton.mp hu] at ht
      exact ht⟩
  | cons p ps ih =>
    rw [List.cons_append, mem_all_cons]
    simp only [ih, mem_all_cons]
    constructor
    · intro h
      obtain ⟨u, hu, v, hv, ht⟩ := h
      exact ⟨v, ⟨u, hu, hv⟩, ht⟩
    · intro h
      obtain ⟨v, ⟨u, hu, hv⟩, ht⟩ := h
      exact ⟨u, hu, v, hv, ht⟩

/-- A plain pattern in front takes a text of its language. -/
theorem mem_all_plain {p : Pat} (hp : p.plain = true) {ps : List Pat} {behind : Option Char} {text : List Char}
    {groups : List (List Char)} {t : Place} :
    t ∈ (Pat.all (p :: ps)).ends ⟨behind, text, groups⟩ ↔
      ∃ l ∈ p.language, ∃ rest, text = l ++ rest ∧ t ∈ (Pat.all ps).ends ⟨l.getLast?.or behind, rest, groups⟩ := by
  constructor
  · intro ht
    obtain ⟨u, hu, ht⟩ := mem_all_cons.mp ht
    obtain ⟨l, hl, rest, hahead, rfl⟩ := (mem_ends_plain hp).mp hu
    exact ⟨l, hl, rest, hahead, ht⟩
  · intro h
    obtain ⟨l, hl, rest, rfl, ht⟩ := h
    exact mem_all_cons.mpr ⟨_, (mem_ends_plain hp).mpr ⟨l, hl, rest, rfl, rfl⟩, ht⟩

theorem mem_all_boundary {ps : List Pat} {behind : Option Char} {text : List Char} {groups : List (List Char)}
    {t : Place} : t ∈ (Pat.all (.boundary :: ps)).ends ⟨behind, text, groups⟩ ↔
      behind.any word ≠ text.head?.any word ∧ t ∈ (Pat.all ps).ends ⟨behind, text, groups⟩ := by
  have hboundary : ∀ u, u ∈ Pat.boundary.ends ⟨behind, text, groups⟩ ↔
      behind.any word ≠ text.head?.any word ∧ u = ⟨behind, text, groups⟩ := by
    intro u
    rw [Pat.ends, Place.atBoundary]
    by_cases h : behind.any word = text.head?.any word
    · simp [h]
    · simp [h]
  rw [mem_all_cons]
  constructor
  · intro h
    obtain ⟨u, hu, ht⟩ := h
    obtain ⟨hstart, rfl⟩ := (hboundary u).mp hu
    exact ⟨hstart, ht⟩
  · intro h
    exact ⟨_, (hboundary _).mpr ⟨h.1, rfl⟩, h.2⟩

end Regex
