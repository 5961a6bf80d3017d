import Mathlib.Data.List.Infix
import Marshal.Lib.Matching

/-! What a replacement leaves.

In a text whose matches have been replaced, a piece that no replacement can overlap stood
there before (`replaceAll_split`). No match began at it, and beside it stands what stood
there, or a match ended or began. -/
namespace Regex

/-! ### A replacement, match by match -/

/-- The matches from a place on are replaced. -/
inductive Replaced (p : Pat) (new : List Char) : Option Char → List Char → List Char → Prop
  | nil (behind : Option Char) : Replaced p new behind [] []
  | keep {behind : Option Char} {c : Char} {rest out : List Char} :
      p.ends ⟨behind, c :: rest, []⟩ = [] → Replaced p new (some c) rest out →
        Replaced p new behind (c :: rest) (c :: out)
  | swap {behind : Option Char} {l rest out : List Char} {t : Place} :
      l ≠ [] → p.first ⟨behind, l ++ rest, []⟩ = some t → t.ahead = rest →
        Replaced p new l.getLast? rest out → Replaced p new behind (l ++ rest) (new ++ out)

theorem mem_of_first {p : Pat} {s t : Place} (h : p.first s = some t) : t ∈ p.ends s := List.mem_of_mem_head? h

theorem ends_nil_of_first {p : Pat} {s : Place} (h : p.first s = none) : p.ends s = [] := List.head?_eq_none_iff.mp h

/-- What a match took is what it leaves taken from the text. -/
theorem first_behind {p : Pat} {behind : Option Char} {l rest : List Char} {t : Place}
    (h : p.first ⟨behind, l ++ rest, []⟩ = some t) (ht : t.ahead = rest) : t.behind = l.getLast?.or behind := by
  obtain ⟨l', hl', -, hbehind⟩ := ends_taken p _ t (mem_of_first h)
  rw [ht] at hl'
  rw [hbehind, List.append_cancel_right hl']

theorem replaced {p : Pat} (hp : p.consumes = true) (new : List Char) (behind : Option Char) (text : List Char) :
    Replaced p new behind text (p.replaceFrom new behind 0 text) := by
  induction hlength : text.length using Nat.strongRecOn generalizing behind text with
  | _ n ih =>
    cases text with
    | nil => exact .nil behind
    | cons c rest =>
      cases hfirst : p.first ⟨behind, c :: rest, []⟩ with
      | none =>
        have hends := ends_nil_of_first hfirst
        have hwidth : p.width behind (c :: rest) = none := by
          rw [Pat.width, Pat.here, hends]
          rfl
        rw [replaceFrom_cons, hwidth]
        exact .keep hends (ih rest.length (by rw [← hlength]; exact Nat.lt_succ_self _) _ rest rfl)
      | some t =>
        have hmem := mem_of_first hfirst
        obtain ⟨l, hl, -, -⟩ := ends_taken p _ t hmem
        have hshort := length_lt_of_consumes hp t hmem
        replace hl : c :: rest = l ++ t.ahead := hl
        have hne : l ≠ [] := by
          intro hnil
          rw [hnil, List.nil_append] at hl
          exact absurd hshort (by rw [← hl]; exact Nat.lt_irrefl _)
        have hwidth : p.width behind (l ++ t.ahead) = some l.length := by
          rw [← hl, Pat.width, Pat.here, ← Pat.first, hfirst, Option.map_some, hl, List.length_append,
            Nat.add_sub_cancel]
        rw [hl] at hfirst ⊢
        rw [replaceFrom_match hne hwidth]
        refine .swap hne hfirst rfl (ih t.ahead.length ?_ _ t.ahead rfl)
        rw [← hlength]
        exact hshort

/-! ### What stood in the text -/

/-- No occurrence of the piece overlaps one of the replacement. -/
structure Apart (piece new : List Char) : Prop where
  head : ∀ c ∈ new.head?, c ∉ piece
  last : ∀ c ∈ new.getLast?, c ∉ piece
  inner : ¬ piece <:+: new

/-- A piece between two parts of the output stood between two parts of the text. -/
structure Stood (p : Pat) (new : List Char) (behind : Option Char) (front piece back front' back' : List Char) :
    Prop where
  unmatched : p.ends ⟨front'.getLast?.or behind, piece ++ back', []⟩ = []
  left : front'.getLast?.or behind = front.getLast?.or behind ∨ ∃ before l t, front' = before ++ l ∧ l ≠ [] ∧
    p.first ⟨before.getLast?.or behind, l ++ (piece ++ back'), []⟩ = some t ∧ t.ahead = piece ++ back'
  right : back'.head? = back.head? ∨ back.head? = new.head? ∧ p.ends ⟨piece.getLast?, back', []⟩ ≠ []

section Split
variable {p : Pat} {new : List Char} {behind : Option Char} {text : List Char}

theorem Replaced.unmatched {c : Char} {out : List Char} (h : Replaced p new behind text (c :: out)) (hnew : new ≠ [])
    (hc : c ∉ new.head?) : p.ends ⟨behind, text, []⟩ = [] := by
  generalize hout : c :: out = out' at h
  cases h with
  | nil => cases hout
  | keep hends => exact hends
  | swap =>
    cases new with
    | nil => exact absurd rfl hnew
    | cons d new => exact absurd (congrArg some (List.cons.inj hout).1.symm) hc

theorem Replaced.head {out : List Char} (h : Replaced p new behind text out) (hnew : new ≠ []) :
    text.head? = out.head? ∨ out.head? = new.head? ∧ p.ends ⟨behind, text, []⟩ ≠ [] := by
  cases h with
  | nil => exact .inl rfl
  | keep => exact .inl rfl
  | swap _ hfirst =>
    refine .inr ⟨List.head?_append_of_ne_nil _ hnew, fun hnil => ?_⟩
    rw [Pat.first, hnil] at hfirst
    cases hfirst

theorem Replaced.kept {piece back : List Char} (h : Replaced p new behind text (piece ++ back)) (hnew : new ≠ [])
    (hpiece : ∀ c ∈ new.head?, c ∉ piece) :
    ∃ back', text = piece ++ back' ∧ Replaced p new (piece.getLast?.or behind) back' back := by
  induction piece generalizing behind text with
  | nil => exact ⟨text, rfl, h⟩
  | cons c piece ih =>
    rw [List.cons_append] at h
    generalize hout : c :: (piece ++ back) = out at h
    cases h with
    | nil => cases hout
    | keep _ hrest =>
      obtain ⟨rfl, rfl⟩ := List.cons.inj hout
      obtain ⟨back', rfl, hback⟩ := ih hrest fun d hd hmem => hpiece d hd (List.mem_cons_of_mem c hmem)
      exact ⟨back', rfl, by rw [getLast?_cons_or]; exact hback⟩
    | swap =>
      cases new with
      | nil => exact absurd rfl hnew
      | cons d new => exact absurd List.mem_cons_self (hpiece c (congrArg some (List.cons.inj hout).1.symm))

theorem Replaced.front {piece back : List Char} (h : Replaced p new behind text (piece ++ back)) (hnew : new ≠ [])
    (hpiece : piece ≠ []) (hapart : Apart piece new) :
    ∃ back', text = piece ++ back' ∧ p.ends ⟨behind, piece ++ back', []⟩ = [] ∧
      (back'.head? = back.head? ∨ back.head? = new.head? ∧ p.ends ⟨piece.getLast?, back', []⟩ ≠ []) := by
  obtain ⟨back', rfl, hback⟩ := h.kept hnew hapart.head
  have hlast : piece.getLast?.or behind = piece.getLast? := by
    rw [List.getLast?_eq_some_getLast hpiece]
    rfl
  rw [hlast] at hback
  refine ⟨back', rfl, ?_, hback.head hnew⟩
  cases piece with
  | nil => exact absurd rfl hpiece
  | cons c piece => exact h.unmatched hnew fun hc => hapart.head c hc List.mem_cons_self

theorem Replaced.split {front piece back : List Char} (h : Replaced p new behind text (front ++ (piece ++ back)))
    (hnew : new ≠ []) (hpiece : piece ≠ []) (hapart : Apart piece new) :
    ∃ front' back', text = front' ++ (piece ++ back') ∧ Stood p new behind front piece back front' back' := by
  generalize hout : front ++ (piece ++ back) = out at h
  induction h generalizing front with
  | nil behind =>
    obtain ⟨-, h⟩ := List.append_eq_nil_iff.mp hout
    exact absurd (List.append_eq_nil_iff.mp h).1 hpiece
  | @keep behind c rest out hends hrest ih =>
    cases front with
    | nil =>
      have h := Replaced.keep hends hrest
      rw [List.nil_append] at hout
      rw [← hout] at h
      obtain ⟨back', htext, hunmatched, hright⟩ := h.front hnew hpiece hapart
      exact ⟨[], back', htext, hunmatched, .inl rfl, hright⟩
    | cons d front =>
      obtain ⟨rfl, hrest'⟩ := List.cons.inj hout
      obtain ⟨front', back', rfl, hstood⟩ := ih hrest'
      refine ⟨d :: front', back', rfl, ?_, ?_, hstood.right⟩
      · rw [getLast?_cons_or]
        exact hstood.unmatched
      · rw [getLast?_cons_or, getLast?_cons_or]
        refine hstood.left.imp id fun hmatch => ?_
        obtain ⟨before, l, t, rfl, hl, hfirst, ht⟩ := hmatch
        exact ⟨d :: before, l, t, rfl, hl, by rw [getLast?_cons_or]; exact hfirst, ht⟩
  | @swap behind l rest out t hl hfirst ht hrest ih =>
    have hlast : ∀ back : List Char, (l ++ back).getLast?.or behind = back.getLast?.or l.getLast? := by
      intro back
      rw [List.getLast?_append, Option.or_assoc, List.getLast?_eq_some_getLast hl]
      rfl
    have hafter : ∀ front₁, out = front₁ ++ (piece ++ back) → front = new ++ front₁ →
        ∃ front' back', l ++ rest = front' ++ (piece ++ back') ∧
          Stood p new behind front piece back front' back' := by
      intro front₁ hout₁ hfront
      cases front₁ with
      | nil =>
        rw [List.nil_append] at hout₁
        rw [hout₁] at hrest
        obtain ⟨back', rfl, hunmatched, hright⟩ := hrest.front hnew hpiece hapart
        refine ⟨l, back', rfl, ?_, .inr ⟨[], l, t, rfl, hl, hfirst, ht⟩, hright⟩
        have hlast := hlast []
        rw [List.append_nil] at hlast
        rw [hlast]
        exact hunmatched
      | cons d front₁ =>
        obtain ⟨front', back', rfl, hstood⟩ := ih hout₁.symm
        refine ⟨l ++ front', back', (List.append_assoc _ _ _).symm, ?_, ?_, hstood.right⟩
        · rw [hlast]
          exact hstood.unmatched
        · have hfront' : front.getLast?.or behind = (d :: front₁).getLast?.or l.getLast? := by
            rw [hfront, List.getLast?_append, List.getLast?_eq_some_getLast (List.cons_ne_nil d front₁)]
            rfl
          rw [hlast, hfront']
          refine hstood.left.imp id fun hmatch => ?_
          obtain ⟨before, l', t', rfl, hl', hfirst', ht'⟩ := hmatch
          refine ⟨l ++ before, l', t', (List.append_assoc _ _ _).symm, hl', ?_, ht'⟩
          rw [hlast]
          exact hfirst'
    rcases List.append_eq_append_iff.mp hout with ⟨inner, hnew', hpiece'⟩ | ⟨front₁, hfront, hout₁⟩
    · cases inner with
      | nil =>
        rw [List.append_nil] at hnew'
        exact hafter [] hpiece'.symm (by rw [hnew', List.append_nil])
      | cons d inner =>
        rcases List.append_eq_append_iff.mp hpiece' with ⟨inner', hinner, -⟩ | ⟨piece', hpiece', -⟩
        · refine absurd ⟨front, inner', ?_⟩ hapart.inner
          rw [hnew', hinner, List.append_assoc]
        · have hend : new.getLast? = some ((d :: inner).getLast (List.cons_ne_nil d inner)) := by
            rw [hnew', List.getLast?_append, List.getLast?_eq_some_getLast (List.cons_ne_nil d inner)]
            rfl
          refine absurd ?_ (hapart.last _ hend)
          rw [hpiece']
          exact List.mem_append_left _ (List.getLast_mem _)
    · exact hafter front₁ hout₁ hfront

end Split

/-! ### A text with all matches replaced -/

section All
variable {p : Pat} {new : List Char} {text : List Char}

theorem replaceAll_split (hp : p.consumes = true) {front piece back : List Char}
    (h : p.replaceAll text new = front ++ (piece ++ back)) (hnew : new ≠ []) (hpiece : piece ≠ [])
    (hapart : Apart piece new) :
    ∃ front' back', text = front' ++ (piece ++ back') ∧ Stood p new none front piece back front' back' := by
  have hreplaced := replaced hp new none text
  rw [← Pat.replaceAll, h] at hreplaced
  exact hreplaced.split hnew hpiece hapart

theorem replaceAll_infix (hp : p.consumes = true) (hnew : new ≠ []) {piece : List Char} (hapart : Apart piece new)
    (h : piece <:+: p.replaceAll text new) : piece <:+: text := by
  by_cases hpiece : piece = []
  · rw [hpiece]
    exact List.nil_infix
  · obtain ⟨front, back, hout⟩ := h
    rw [List.append_assoc] at hout
    obtain ⟨front', back', rfl, -⟩ := replaceAll_split hp hout.symm hnew hpiece hapart
    exact ⟨front', back', List.append_assoc _ _ _⟩

theorem Replaced.mem {behind : Option Char} {out : List Char} (h : Replaced p new behind text out) {c : Char}
    (hc : c ∉ new) (hmem : c ∈ out) : c ∈ text := by
  induction h with
  | nil => exact hmem
  | keep _ _ ih =>
    rcases List.mem_cons.mp hmem with rfl | hmem
    · exact List.mem_cons_self
    · exact List.mem_cons_of_mem _ (ih hmem)
  | swap _ _ _ _ ih =>
    rcases List.mem_append.mp hmem with hmem | hmem
    · exact absurd hmem hc
    · exact List.mem_append_right _ (ih hmem)

/-- A character that is in no replacement gets no more frequent. -/
theorem Replaced.count_le {behind : Option Char} {out : List Char} (h : Replaced p new behind text out) {c : Char}
    (hc : c ∉ new) : out.count c ≤ text.count c := by
  induction h with
  | nil => exact Nat.le_refl _
  | keep _ _ ih =>
    rw [List.count_cons, List.count_cons]
    exact Nat.add_le_add_right ih _
  | swap _ _ _ _ ih =>
    rw [List.count_append, List.count_append, List.count_eq_zero_of_not_mem hc, Nat.zero_add]
    exact Nat.le_trans ih (Nat.le_add_left _ _)

/-- A text without a match is left as it is. -/
theorem replaceAll_none (h : ∀ front rest, text = front ++ rest → p.ends ⟨front.getLast?, rest, []⟩ = []) :
    p.replaceAll text new = text := by
  have hfrom : ∀ front rest, text = front ++ rest → p.replaceFrom new front.getLast? 0 rest = rest := by
    intro front rest htext
    induction rest generalizing front with
    | nil => rfl
    | cons c rest ih =>
      have hwidth : p.width front.getLast? (c :: rest) = none := by
        rw [Pat.width, Pat.here, h front (c :: rest) htext]
        rfl
      have hmore := ih (front ++ [c]) (by rw [htext, List.append_assoc, List.singleton_append])
      rw [List.getLast?_concat] at hmore
      rw [replaceFrom_cons, hwidth, hmore]
  exact hfrom [] text rfl

end All

/-! ### How a match begins and ends -/

/-- The characters a match may begin with. -/
def Pat.begins : Pat → Char → Bool
  | .empty, _ | .start, _ | .boundary, _ => false
  | .one accepts, c => accepts c
  | .seq p q, c => p.begins c || (!p.consumes && q.begins c)
  | .or p q, c => p.begins c || q.begins c
  | .star p, c | .group p, c => p.begins c

/-- What stands between the places begins with such a character. -/
def Begun (begins : Char → Bool) (s t : Place) : Prop :=
  ∃ l, s.ahead = l ++ t.ahead ∧ ∀ c ∈ l.head?, begins c = true

theorem Begun.rfl {begins : Char → Bool} {s : Place} : Begun begins s s :=
  ⟨[], List.nil_append _, fun _ hc => absurd hc (by simp)⟩

theorem Begun.trans {begins : Char → Bool} {s t u : Place} (hst : Begun begins s t) (htu : Begun begins t u) :
    Begun begins s u := by
  obtain ⟨l, hl, hlc⟩ := hst
  obtain ⟨l', hl', hlc'⟩ := htu
  refine ⟨l ++ l', by rw [hl, hl', List.append_assoc], ?_⟩
  cases l with
  | nil => exact hlc'
  | cons c l => exact hlc

theorem Begun.mono {begins begins' : Char → Bool} {s t : Place} (h : Begun begins s t)
    (himp : ∀ c, begins c = true → begins' c = true) : Begun begins' s t := by
  obtain ⟨l, hl, hlc⟩ := h
  exact ⟨l, hl, fun c hc => himp c (hlc c hc)⟩

theorem ends_begun (p : Pat) (s : Place) : ∀ t ∈ p.ends s, Begun p.begins s t := by
  induction p generalizing s with
  | empty | start | boundary =>
    intro t ht
    obtain ⟨l, hl, hlc, -⟩ := ends_taken _ s t ht
    refine ⟨l, hl, fun c hc => ?_⟩
    exact absurd (hlc c (List.mem_of_mem_head? hc)) Bool.false_ne_true
  | one accepts =>
    intro t ht
    obtain ⟨l, hl, hlc, -⟩ := ends_taken _ s t ht
    exact ⟨l, hl, fun c hc => hlc c (List.mem_of_mem_head? hc)⟩
  | seq p q ihp ihq =>
    intro t ht
    obtain ⟨u, hu, ht⟩ := List.mem_flatMap.mp ht
    obtain ⟨l, hl, hlc⟩ := ihp s u hu
    obtain ⟨l', hl', hlc'⟩ := ihq u t ht
    refine ⟨l ++ l', by rw [hl, hl', List.append_assoc], fun c hc => ?_⟩
    cases l with
    | cons d l =>
      have hd := hlc c hc
      simp [Pat.begins, hd]
    | nil =>
      have hconsumes : p.consumes = false := by
        rw [← Bool.not_eq_true]
        intro hp
        have hshort := length_lt_of_consumes hp u hu
        rw [hl] at hshort
        exact Nat.lt_irrefl _ hshort
      have hd := hlc' c hc
      simp [Pat.begins, hconsumes, hd]
  | or p q ihp ihq =>
    intro t ht
    rcases List.mem_append.mp ht with ht | ht
    · refine (ihp s t ht).mono fun c hc => ?_
      simp [Pat.begins, hc]
    · refine (ihq s t ht).mono fun c hc => ?_
      simp [Pat.begins, hc]
  | star p ih => exact iterate_rel (fun _ => Begun.rfl) (fun _ _ _ => Begun.trans) ih _ s
  | group p ih =>
    intro t ht
    obtain ⟨u, hu, rfl⟩ := List.mem_map.mp ht
    exact ih s u hu

theorem head_of_ends {p : Pat} (hp : p.consumes = true) {s : Place} (h : p.ends s ≠ []) :
    s.ahead.head?.any p.begins = true := by
  obtain ⟨t, ht⟩ := List.exists_mem_of_ne_nil _ h
  obtain ⟨l, hl, hlc⟩ := ends_begun p s t ht
  have hshort := length_lt_of_consumes hp t ht
  cases l with
  | nil =>
    rw [hl] at hshort
    exact absurd hshort (Nat.lt_irrefl _)
  | cons c l =>
    rw [hl]
    exact hlc c rfl

/-- A piece before a character of a kind. The matches begin with that kind too, or the replacement does not. -/
theorem replaceAll_before {p : Pat} (hp : p.consumes = true) {new text : List Char} (hnew : new ≠ [])
    {accepts : Char → Bool}
    (hbegins : (∀ c, p.begins c = true → accepts c = true) ∨ new.head?.any accepts = false)
    {front piece back : List Char} (hpiece : piece ≠ []) (hapart : Apart piece new)
    (h : p.replaceAll text new = front ++ (piece ++ back)) (hback : back.head?.any accepts = true) :
    ∃ front' back', text = front' ++ (piece ++ back') ∧ back'.head?.any accepts = true ∧
      p.ends ⟨front'.getLast?, piece ++ back', []⟩ = [] := by
  obtain ⟨front', back', htext, hstood⟩ := replaceAll_split hp h hnew hpiece hapart
  have hunmatched := hstood.unmatched
  rw [Option.or_none] at hunmatched
  refine ⟨front', back', htext, ?_, hunmatched⟩
  rcases hstood.right with hsame | ⟨hmark, hends⟩
  · rw [hsame]
    exact hback
  · rcases hbegins with hbegins | hother
    · obtain ⟨c, hc, hbegin⟩ := (Option.any_eq_true _ _).mp (head_of_ends hp hends)
      exact (Option.any_eq_true _ _).mpr ⟨c, hc, hbegins c hbegin⟩
    · rw [hmark, hother] at hback
      cases hback

end Regex
