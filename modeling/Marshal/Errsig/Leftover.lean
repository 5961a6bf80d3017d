import Marshal.Errsig.Settled

/-! What the rewrites leave.

Each pattern leaves no piece of its own kind, and the patterns after it bring none back. Only a
hash can come out of the rewrites: where what stands directly behind it, a hexadecimal number or a
path, was no boundary before it was replaced. -/
namespace Marshal.Errsig
open Regex Pat

/-! ### Placeholders -/

def placeholders : List String := ["<str>", "<uuid>", "<hex>", "<addr>", "<path>", "<num>", " "]

/-- The first and last characters of the placeholders. -/
def isMark (c : Char) : Bool := c ∈ ['<', '>', ' ']

theorem mark_ends {new : String} (hnew : new ∈ placeholders) :
    new.toList ≠ [] ∧ (∀ c ∈ new.toList.head?, isMark c = true) ∧ (∀ c ∈ new.toList.getLast?, isMark c = true) ∧
      new.toList.length ≤ 6 := by
  revert new
  decide

theorem apart_placeholder {new : String} (hnew : new ∈ placeholders) {piece : List Char}
    (hpiece : ∀ c ∈ piece, isMark c = false) (hinner : ¬ piece <:+: new.toList) : Apart piece new.toList := by
  obtain ⟨-, hhead, hlast, -⟩ := mark_ends hnew
  refine ⟨fun c hc hmem => ?_, fun c hc hmem => ?_, hinner⟩
  · exact absurd (hhead c hc) (by rw [hpiece c hmem]; exact Bool.noConfusion)
  · exact absurd (hlast c hc) (by rw [hpiece c hmem]; exact Bool.noConfusion)

theorem mark_not_word {c : Char} (h : isMark c = true) : word c = false := by
  simp only [isMark, decide_eq_true_eq, List.mem_cons, List.not_mem_nil, or_false] at h
  rcases h with rfl | rfl | rfl <;> rfl

theorem word_not_mark {c : Char} (h : word c = true) : isMark c = false := by
  rw [← Bool.not_eq_true]
  intro hmark
  rw [mark_not_word hmark] at h
  cases h

theorem apart_hash {new : String} (hnew : new ∈ placeholders) {run : List Char} (hlength : 12 ≤ run.length)
    (hrun : ∀ c ∈ run, hexDigit c = true) : Apart run new.toList := by
  refine apart_placeholder hnew (fun c hc => word_not_mark (hexDigit_word (hrun c hc))) fun hpart => ?_
  have hshort := (mark_ends hnew).2.2.2
  have := hpart.length_le
  omega

theorem no_digit {new : String} (hnew : new ∈ placeholders) : ∀ c ∈ new.toList, digit c = false := by
  revert new
  decide

theorem mem_folds {m l : List Char} (h : Folds m l) : ∀ d ∈ l, ∃ c ∈ m, foldsTo c d = true := by
  induction h with
  | nil => exact fun d hd => absurd hd List.not_mem_nil
  | cons hcd _ ih =>
    refine List.forall_mem_cons.mpr ⟨⟨_, List.mem_cons_self, hcd⟩, fun d hd => ?_⟩
    obtain ⟨c, hc, hcd⟩ := ih d hd
    exact ⟨c, List.mem_cons_of_mem _ hc, hcd⟩

theorem unit_not_mark {u : List Char} (hu : IsUnit u) : ∀ d ∈ u, isMark d = false := by
  intro d hd
  rcases hu with rfl | ⟨m, hm, hfolds⟩
  · exact absurd hd List.not_mem_nil
  · obtain ⟨c, hc, hcd⟩ := mem_folds hfolds d hd
    have hmarks : ∀ m ∈ units, ∀ c ∈ m.toList, ∀ d ∈ ['<', '>', ' '], foldsTo c d = false := by decide
    rw [← Bool.not_eq_true]
    intro hmark
    rw [hmarks m hm c hc d (of_decide_eq_true hmark)] at hcd
    cases hcd

theorem apart_number {new : String} (hnew : new ∈ placeholders) {n u : List Char} (hn : Number n) (hu : IsUnit u) :
    Apart (n ++ u) new.toList := by
  refine apart_placeholder hnew (List.forall_mem_append.mpr ⟨?_, unit_not_mark hu⟩) fun hpart => ?_
  · exact fun c hc => word_not_mark (digit_word (hn.2 c hc))
  · obtain ⟨c, n', rfl⟩ := List.exists_cons_of_ne_nil hn.1
    have hdigit := no_digit hnew c (hpart.subset List.mem_cons_self)
    rw [hn.2 c List.mem_cons_self] at hdigit
    cases hdigit

/-! ### Patterns that match between boundaries -/

/-- No match begins inside a word, and none ends in one. -/
structure Bounded (p : Pat) : Prop where
  start : ∀ s, p.ends s ≠ [] → s.behind.any word = true → s.ahead.head?.any word = false
  finish : ∀ s, ∀ t ∈ p.ends s, t.ahead.head?.any word = true → t.behind.any word = false

theorem bounded_boundary (ps : List Pat) : Bounded (all (.boundary :: (ps ++ [.boundary]))) where
  start s hs hbehind := by
    obtain ⟨t, ht⟩ := List.exists_mem_of_ne_nil _ hs
    exact word_ahead (mem_all_boundary.mp ht).1 hbehind
  finish s t ht hahead := by
    rw [← List.cons_append, mem_all_append] at ht
    obtain ⟨u, -, ht⟩ := ht
    obtain ⟨hend, ht⟩ := mem_all_boundary.mp ht
    rw [List.mem_singleton.mp (show t ∈ [_] from ht)] at hahead ⊢
    exact word_behind hend hahead

theorem bounded_reAddr : Bounded reAddr := bounded_boundary [octet, times 3 (all [char '.', octet]), port]

theorem bounded_reNum : Bounded reNum := bounded_boundary [digits, decimals, _]

theorem bounded_reSpace : Bounded reSpace where
  start s hs _ := by
    have hhead := head_of_ends rfl hs
    obtain ⟨c, hc, hspace⟩ := (Option.any_eq_true _ _).mp hhead
    rw [hc]
    exact space_not_word (by simpa [reSpace, plus, begins, consumes] using hspace)
  finish s t ht _ := by
    obtain ⟨l, hl, hspaces, hbehind⟩ := ends_taken _ s t ht
    have hshort := length_lt_of_consumes rfl t ht
    have hne : l ≠ [] := by
      intro hnil
      rw [hl, hnil, List.nil_append] at hshort
      exact Nat.lt_irrefl _ hshort
    rw [hbehind, List.getLast?_eq_some_getLast hne]
    exact space_not_word (by simpa [reSpace, plus, takes] using hspaces _ (List.getLast_mem hne))

section Stood
variable {p : Pat} {new : List Char} {front piece rest front' rest' : List Char}

/-- In front of a piece that begins with a word character. -/
theorem stood_left (hp : Bounded p) (h : Stood p new none front piece rest front' rest')
    (hpiece : (piece ++ rest').head?.any word = true) (hfront : front.getLast?.any word = false) :
    front'.getLast?.any word = false := by
  rcases h.left with hsame | ⟨before, l, t, rfl, hl, hfirst, ht⟩
  · rw [Option.or_none, Option.or_none] at hsame
    rw [hsame]
    exact hfront
  · have hbehind := first_behind hfirst ht
    have hnone := hp.finish _ t (mem_of_first hfirst) (by rw [ht]; exact hpiece)
    rw [hbehind, List.getLast?_eq_some_getLast hl] at hnone
    rw [List.getLast?_append, List.getLast?_eq_some_getLast hl]
    exact hnone

/-- Behind a piece that ends in a word character. -/
theorem stood_right (hp : Bounded p) (h : Stood p new none front piece rest front' rest')
    (hpiece : piece.getLast?.any word = true) (hrest : rest.head?.any word = false) :
    rest'.head?.any word = false := by
  rcases h.right with hsame | ⟨-, hends⟩
  · rw [hsame]
    exact hrest
  · exact hp.start _ hends hpiece

end Stood

/-! ### Hashes and numbers under bounded patterns -/

section Bounded
variable {p : Pat} {new : String} {text : List Char}

theorem head_mark (hnew : new ∈ placeholders) {rest : List Char} (h : rest.head? = new.toList.head?) :
    rest.head?.any word = false := by
  obtain ⟨hne, hhead, -⟩ := mark_ends hnew
  obtain ⟨c, l, hl⟩ := List.exists_cons_of_ne_nil hne
  rw [h, hl]
  rw [hl] at hhead
  exact mark_not_word (hhead c rfl)

theorem hasHash_bounded (hp : Bounded p) (hconsumes : p.consumes = true) (hnew : new ∈ placeholders)
    (h : HasHash word (p.replaceAll text new.toList)) : HasHash word text := by
  obtain ⟨front, run, rest, hout, hlength, hrun, hfront, hrest⟩ := h
  have hne : run ≠ [] := fun hnil => absurd hlength (by rw [hnil]; decide)
  have hword : ∀ c ∈ run, word c = true := fun c hc => hexDigit_word (hrun c hc)
  obtain ⟨front', rest', rfl, hstood⟩ :=
    replaceAll_split hconsumes hout (mark_ends hnew).1 hne (apart_hash hnew hlength hrun)
  have hlast := last_any hne hword none
  rw [Option.or_none] at hlast
  exact ⟨front', run, rest', rfl, hlength, hrun, stood_left hp hstood (head_any hne hword rest') hfront,
    stood_right hp hstood hlast hrest⟩

/-- A number that is left was one before, and no match began at it. -/
theorem hasNumber_bounded (hp : Bounded p) (hconsumes : p.consumes = true) (hnew : new ∈ placeholders)
    (h : HasNumber (p.replaceAll text new.toList)) :
    ∃ front n u rest, text = front ++ ((n ++ u) ++ rest) ∧ Number n ∧ IsUnit u ∧ front.getLast?.any word = false ∧
      (n ++ u).getLast?.any word ≠ rest.head?.any word ∧ p.ends ⟨front.getLast?, (n ++ u) ++ rest, []⟩ = [] := by
  obtain ⟨front, n, u, rest, hout, hn, hu, hfront, hend⟩ := h
  have hne : n ++ u ≠ [] := fun hnil => hn.1 (List.append_eq_nil_iff.mp hnil).1
  obtain ⟨front', rest', rfl, hstood⟩ :=
    replaceAll_split hconsumes hout (mark_ends hnew).1 hne (apart_number hnew hn hu)
  have hunmatched := hstood.unmatched
  rw [Option.or_none] at hunmatched
  have hhead : ((n ++ u) ++ rest').head?.any word = true := by
    rw [List.append_assoc]
    exact head_number hn
  refine ⟨front', n, u, rest', rfl, hn, hu, stood_left hp hstood hhead hfront, ?_, hunmatched⟩
  rcases hstood.right with hsame | ⟨hmark, hends⟩
  · rw [hsame]
    exact hend
  · rw [head_mark hnew hmark] at hend
    have hlast : (n ++ u).getLast?.any word = true := by
      rw [← Bool.not_eq_false]
      exact hend
    rw [hlast, hp.start _ hends hlast]
    exact Bool.noConfusion

end Bounded

/-! ### What each pattern leaves -/

theorem count_unquoted {new : List Char} {q : Char} (hnew : q ∉ new) (quote : Option Char) (text : List Char) :
    (unquoted new quote text).count q ≤ text.count q := by
  induction text generalizing quote with
  | nil => cases quote <;> exact Nat.le_refl _
  | cons c rest ih =>
    have hmore : ∀ quote, (unquoted new quote rest).count q ≤ (c :: rest).count q :=
      fun quote => Nat.le_trans (ih quote) List.count_le_count_cons
    cases quote with
    | some q' =>
      rw [unquoted]
      split
      · exact hmore none
      · exact hmore (some q')
    | none =>
      rw [unquoted]
      split
      · rw [List.count_append, List.count_eq_zero_of_not_mem hnew, Nat.zero_add]
        exact hmore (some c)
      · rw [List.count_cons, List.count_cons]
        exact Nat.add_le_add_right (ih none) _

/-- A quote is left once at most: two would be closed. -/
theorem unquoted_once {new : List Char} {q : Char} (hq : isQuote q = true) (hnew : q ∉ new) (quote : Option Char)
    (text : List Char) : (unquoted new quote text).count q ≤ 1 := by
  induction text generalizing quote with
  | nil => cases quote <;> exact Nat.zero_le _
  | cons c rest ih =>
    cases quote with
    | some q' =>
      rw [unquoted]
      split
      · exact ih none
      · exact ih (some q')
    | none =>
      rw [unquoted]
      split
      · rw [List.count_append, List.count_eq_zero_of_not_mem hnew, Nat.zero_add]
        exact ih (some c)
      · rename_i hopen
        by_cases hc : c = q
        · subst hc
          have hnone := List.count_eq_zero_of_not_mem fun hmem => hopen ⟨hq, hmem⟩
          have hless := count_unquoted hnew none rest
          rw [List.count_cons_self]
          omega
        · rw [List.count_cons_of_ne hc]
          exact ih none

theorem quote_not_placeholder {new : String} (hnew : new ∈ placeholders) {q : Char} (hq : isQuote q = true) :
    q ∉ new.toList := by
  have hnone : ∀ new ∈ placeholders, ∀ q ∈ ['"', '\'', '\x60'], q ∉ new.toList := by decide
  exact hnone new hnew q (of_decide_eq_true hq)

theorem count_reQuoted {q : Char} (hq : isQuote q = true) (text : List Char) :
    (reQuoted.replaceAll text "<str>".toList).count q ≤ 1 := by
  rw [Pat.replaceAll, replaceFrom_reQuoted]
  exact unquoted_once hq (quote_not_placeholder (show "<str>" ∈ placeholders by decide) hq) none text

theorem count_kept {p : Pat} (hp : p.consumes = true) {new : String} (hnew : new ∈ placeholders) {text : List Char}
    {q : Char} (hq : isQuote q = true) (h : text.count q ≤ 1) : (p.replaceAll text new.toList).count q ≤ 1 :=
  Nat.le_trans ((replaced hp new.toList none text).count_le (quote_not_placeholder hnew hq)) h

theorem hexNumber_ends (behind : Option Char) {h : Char} (hh : hexDigit h = true) (rest : List Char) :
    reHex.ends ⟨behind, ['0', 'x', h] ++ rest, []⟩ ≠ [] := by
  refine List.ne_nil_of_mem (List.mem_append_left _ (a := ⟨some h, rest, []⟩) ?_)
  refine (mem_all_plain (by decide)).mpr ⟨['0', 'x'], mem_language_text.mpr (by decide), h :: rest, rfl, ?_⟩
  refine (mem_all_plain (by decide)).mpr ⟨[h], mem_language_plus.mpr ⟨List.cons_ne_nil h [], ?_⟩, rest, rfl, ?_⟩
  · intro c hc
    rw [List.mem_singleton.mp hc]
    exact hh
  · exact List.mem_singleton.mpr rfl

theorem hash_ends {front run rest : List Char} (hlength : 12 ≤ run.length) (hrun : ∀ c ∈ run, hexDigit c = true)
    (hfront : front.getLast?.any word = false) (hrest : rest.head?.any word = false) :
    reHex.ends ⟨front.getLast?, run ++ rest, []⟩ ≠ [] := by
  have hne : run ≠ [] := fun hnil => absurd hlength (by rw [hnil]; decide)
  have hword : ∀ c ∈ run, word c = true := fun c hc => hexDigit_word (hrun c hc)
  have htwelve : (run.take 12).length = 12 := by rw [List.length_take, Nat.min_eq_left hlength]
  have hlast : ((run.drop 12).getLast?.or ((run.take 12).getLast?.or front.getLast?)).any word = true := by
    rw [← Option.or_assoc, ← List.getLast?_append, List.take_append_drop]
    exact last_any hne hword _
  have hmatch : ⟨(run.drop 12).getLast?.or ((run.take 12).getLast?.or front.getLast?), rest, []⟩ ∈
      (all [.boundary, hexDigits 12, .star (.one hexDigit), .boundary]).ends ⟨front.getLast?, run ++ rest, []⟩ := by
    refine mem_all_boundary.mpr ⟨by rw [hfront, head_any hne hword]; exact Bool.noConfusion, ?_⟩
    refine (mem_all_plain (by decide)).mpr
      ⟨run.take 12, mem_language_times.mpr ⟨htwelve, ?_⟩, run.drop 12 ++ rest, ?_, ?_⟩
    · exact fun c hc => hrun c (List.mem_of_mem_take hc)
    · rw [← List.append_assoc, List.take_append_drop]
    refine (mem_all_plain (by decide)).mpr ⟨run.drop 12, mem_language_star.mpr ?_, rest, rfl, ?_⟩
    · exact fun c hc => hrun c (List.mem_of_mem_drop hc)
    exact mem_all_boundary.mpr ⟨by rw [hlast, hrest]; exact Bool.noConfusion, List.mem_singleton.mpr rfl⟩
  exact List.ne_nil_of_mem (List.mem_append_right _ hmatch)

theorem apart_hexNumber {new : String} (hnew : new ∈ placeholders) {h : Char} (hh : hexDigit h = true) :
    Apart ['0', 'x', h] new.toList := by
  refine apart_placeholder hnew ?_ fun hpart => ?_
  · intro c hc
    simp only [List.mem_cons, List.not_mem_nil, or_false] at hc
    rcases hc with rfl | rfl | rfl
    · rfl
    · rfl
    · exact word_not_mark (hexDigit_word hh)
  · exact absurd (no_digit hnew '0' (hpart.subset List.mem_cons_self)) (by decide)

theorem hexNumber_reHex (text : List Char) : ¬ HasHexNumber (reHex.replaceAll text "<hex>".toList) := by
  intro hleft
  obtain ⟨h, hh, front, rest, hout⟩ := hleft
  rw [List.append_assoc] at hout
  obtain ⟨front', rest', -, hstood⟩ := replaceAll_split (by decide) hout.symm (by decide) (List.cons_ne_nil _ _)
    (apart_hexNumber (show "<hex>" ∈ placeholders by decide) hh)
  exact hexNumber_ends _ hh rest' hstood.unmatched

theorem number_ends {front n u rest : List Char} (hn : Number n) (hu : IsUnit u)
    (hfront : front.getLast?.any word = false) (hend : (n ++ u).getLast?.any word ≠ rest.head?.any word) :
    reNum.ends ⟨front.getLast?, (n ++ u) ++ rest, []⟩ ≠ [] := by
  have hlast : (n ++ u).getLast? = u.getLast?.or (n.getLast?.or front.getLast?) := by
    rw [List.getLast?_append, List.getLast?_eq_some_getLast hn.1]
    rfl
  rw [hlast] at hend
  rw [List.append_assoc]
  refine List.ne_nil_of_mem (a := ⟨u.getLast?.or (n.getLast?.or front.getLast?), rest, []⟩) ?_
  refine mem_all_boundary.mpr ⟨by rw [hfront, head_number hn]; exact Bool.noConfusion, ?_⟩
  refine (mem_all_plain (by decide)).mpr ⟨n, mem_language_plus.mpr hn, u ++ rest, rfl, ?_⟩
  refine (mem_all_plain (by decide)).mpr ⟨[], .inr Language.nil_mem_one, u ++ rest, rfl, ?_⟩
  refine (mem_all_plain (by decide)).mpr ⟨u, mem_unit.mpr hu, rest, rfl, ?_⟩
  exact mem_all_boundary.mpr ⟨hend, List.mem_singleton.mpr rfl⟩

theorem number_reNum (text : List Char) : ¬ HasNumber (reNum.replaceAll text "<num>".toList) := by
  intro h
  obtain ⟨front, n, u, rest, -, hn, hu, hfront, hend, hunmatched⟩ :=
    hasNumber_bounded bounded_reNum (by decide) (show "<num>" ∈ placeholders by decide) h
  exact number_ends hn hu hfront hend hunmatched

end Marshal.Errsig
