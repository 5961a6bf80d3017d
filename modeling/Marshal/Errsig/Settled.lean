import Marshal.Errsig.Rewrites
import Marshal.Lib.Language
import Marshal.Lib.Replacing

/-! Lines in which nothing is left to replace.

What the patterns match is told by a few kinds of pieces: a line without any of them, and
with single spaces, comes out of the rewrites as it went in (`rewritten_settled`). -/
namespace Marshal.Errsig
open Regex Pat

/-! ### The pieces that are replaced -/

def HasHexNumber (text : List Char) : Prop := ∃ h, hexDigit h = true ∧ ['0', 'x', h] <:+: text

/-- Twelve hexadecimal digits or more, with no word character on either side. -/
def HasHash (isWord : Char → Bool) (text : List Char) : Prop :=
  ∃ front run rest, text = front ++ (run ++ rest) ∧ 12 ≤ run.length ∧ (∀ c ∈ run, hexDigit c = true) ∧
    front.getLast?.any isWord = false ∧ rest.head?.any isWord = false

inductive Root : List Char → Prop
  | slash : Root ['/']
  | drive {c : Char} : letter c = true → Root [c, ':', '\\']

/-- `[^\s:]` -/
def pathWord (c : Char) : Bool := !(space c || c == ':')

def HasPath (text : List Char) : Prop :=
  ∃ front root rest, text = front ++ (root ++ rest) ∧ Root root ∧ rest.head?.any pathWord = true

def units : List String :=
  ["ns", "us", "\u00b5s", "ms", "s", "m", "h", "kb", "kib", "mb", "mib", "gb", "gib", "b"]

def IsUnit (u : List Char) : Prop := u = [] ∨ ∃ m ∈ units, Folds m.toList u

/-- Digits and a unit or none, with a boundary on either side. -/
def HasNumber (text : List Char) : Prop :=
  ∃ front n u rest, text = front ++ ((n ++ u) ++ rest) ∧ Number n ∧ IsUnit u ∧
    front.getLast?.any word = false ∧ (n ++ u).getLast?.any word ≠ rest.head?.any word

/-- Every space is `' '`, and none follows another. -/
def SingleSpaces (text : List Char) : Prop :=
  (∀ c ∈ text, space c = true → c = ' ') ∧ text.IsChain fun c d => space c = false ∨ space d = false

structure Settled (text : List Char) : Prop where
  quotes : ∀ q, isQuote q = true → text.count q ≤ 1
  hexNumber : ¬ HasHexNumber text
  hash : ¬ HasHash word text
  path : ¬ HasPath text
  number : ¬ HasNumber text
  spaces : SingleSpaces text

/-! ### Boundaries -/

theorem digit_word {c : Char} (h : digit c = true) : word c = true := by simp [word, h]

theorem space_not_word {c : Char} (h : space c = true) : word c = false := by
  simp only [space, decide_eq_true_eq, List.mem_cons, List.not_mem_nil, or_false] at h
  rcases h with rfl | rfl | rfl | rfl | rfl <;> rfl

theorem hexDigit_word {c : Char} (h : hexDigit c = true) : word c = true := by
  simp only [hexDigit, word, letter, Bool.or_eq_true, decide_eq_true_eq, Char.le_def, UInt32.le_iff_toNat_le] at h ⊢
  have hlower : 'a'.val.toNat = 97 ∧ 'f'.val.toNat = 102 ∧ 'z'.val.toNat = 122 := by decide
  have hupper : 'A'.val.toNat = 65 ∧ 'F'.val.toNat = 70 ∧ 'Z'.val.toNat = 90 := by decide
  simp only [digit, decide_eq_true_eq, Char.le_def, UInt32.le_iff_toNat_le] at h ⊢
  omega

/-- A boundary before a word character. -/
theorem word_behind {behind : Option Char} {text : List Char} (h : behind.any word ≠ text.head?.any word)
    (htext : text.head?.any word = true) : behind.any word = false := by
  rw [htext] at h
  exact Bool.eq_false_iff.mpr h

/-- A boundary after a word character. -/
theorem word_ahead {behind : Option Char} {text : List Char} (h : behind.any word ≠ text.head?.any word)
    (hbehind : behind.any word = true) : text.head?.any word = false := by
  rw [hbehind] at h
  exact Bool.eq_false_iff.mpr (Ne.symm h)

theorem last_any {accepts : Char → Bool} {l : List Char} (hne : l ≠ []) (h : ∀ c ∈ l, accepts c = true)
    (behind : Option Char) : (l.getLast?.or behind).any accepts = true := by
  rw [List.getLast?_eq_some_getLast hne]
  exact h _ (List.getLast_mem hne)

theorem last_none {accepts : Char → Bool} {l : List Char} (h : ∀ c ∈ l, accepts c = false) (behind : Option Char)
    (hbehind : behind.any accepts = false) : (l.getLast?.or behind).any accepts = false := by
  cases hlast : l.getLast? with
  | none => exact hbehind
  | some c => exact h c (List.mem_of_getLast? hlast)

theorem head_any {accepts : Char → Bool} {l : List Char} (hne : l ≠ []) (h : ∀ c ∈ l, accepts c = true)
    (rest : List Char) : (l ++ rest).head?.any accepts = true := by
  cases l with
  | nil => exact absurd rfl hne
  | cons c l => exact h c List.mem_cons_self

theorem folds_append {m m' l : List Char} : Folds (m ++ m') l ↔ ∃ a, Folds m a ∧ ∃ b, Folds m' b ∧ a ++ b = l := by
  constructor
  · intro h
    induction m generalizing l with
    | nil => exact ⟨[], .nil, l, h, rfl⟩
    | cons c m ih =>
      obtain ⟨d, l', hd, hl', rfl⟩ := List.forall₂_cons_left_iff.mp h
      obtain ⟨a, ha, b, hb, rfl⟩ := ih hl'
      exact ⟨d :: a, .cons hd ha, b, hb, rfl⟩
  · intro h
    obtain ⟨a, ha, b, hb, rfl⟩ := h
    exact List.rel_append ha hb

theorem mem_bytesUnit {m : String} {l : List Char} :
    l ∈ (bytesUnit m).language ↔ Folds (m ++ "b").toList l ∨ Folds (m ++ "ib").toList l := by
  have hib : "ib".toList = "i".toList ++ "b".toList := by decide
  simp only [String.toList_append, hib, folds_append (m := m.toList), folds_append (m := "i".toList)]
  simp only [bytesUnit, all, opt, language, List.foldr_cons, List.foldr_nil, mul_one, add_mul, one_mul, mul_add,
    Language.mem_add, Language.mem_mul, mem_language_caseless]
  exact or_comm

/-- The units of the pattern, one by one. -/
theorem mem_unit {u : List Char} :
    u ∈ (opt (any (["ns", "us", "\u00b5s", "ms", "s", "m", "h"].map caseless ++
      ["k", "m", "g"].map bytesUnit ++ [caseless "b"]))).language ↔ IsUnit u := by
  rw [opt, language, Language.mem_add, or_comm]
  refine or_congr (Language.mem_one u) ?_
  rw [mem_language_any]
  have hbytes : "k" ++ "b" = "kb" ∧ "k" ++ "ib" = "kib" ∧ "m" ++ "b" = "mb" ∧ "m" ++ "ib" = "mib" ∧
      "g" ++ "b" = "gb" ∧ "g" ++ "ib" = "gib" := by decide
  simp only [units, List.map_cons, List.map_nil, List.cons_append, List.nil_append, List.mem_cons, List.not_mem_nil,
    or_false, exists_eq_or_imp, exists_eq_left, mem_language_caseless, mem_bytesUnit, or_assoc, hbytes]

/-! ### What a match tells -/

section Matches
variable {front rest : List Char} {t : Place}

theorem hasNumber_digits {n : List Char} (hn : Number n) (hfront : front.getLast?.any word = false)
    (hrest : rest.head?.any word = false) : HasNumber (front ++ (n ++ rest)) := by
  refine ⟨front, n, [], rest, by rw [List.append_nil], hn, .inl rfl, hfront, ?_⟩
  have hlast := last_any hn.1 (fun c hc => digit_word (hn.2 c hc)) none
  rw [Option.or_none] at hlast
  rw [List.append_nil, hlast, hrest]
  exact Bool.noConfusion

theorem hasNumber_reNum (ht : t ∈ reNum.ends ⟨front.getLast?, rest, []⟩) : HasNumber (front ++ rest) := by
  obtain ⟨hstart, h₁⟩ := mem_all_boundary.mp ht
  obtain ⟨n, hn, rest₁, rfl, h₂⟩ := (mem_all_plain (by decide)).mp h₁
  obtain ⟨d, hd, rest₂, rfl, h₃⟩ := (mem_all_plain (by decide)).mp h₂
  obtain ⟨u, hu, rest₃, rfl, h₄⟩ := (mem_all_plain (by decide)).mp h₃
  obtain ⟨hend, -⟩ := mem_all_boundary.mp h₄
  replace hn : Number n := mem_language_plus.mp hn
  have hfront := word_behind hstart (head_number hn)
  rcases hd with hd | hd
  · obtain ⟨c, more, rfl, hc, -⟩ := mem_language_seq_one.mp hd
    refine hasNumber_digits hn hfront ?_
    rw [eq_of_beq hc]
    rfl
  · have hnil : d = [] := (Language.mem_one d).mp hd
    subst hnil
    refine ⟨front, n, u, rest₃, by rw [List.nil_append, List.append_assoc], hn, mem_unit.mp hu, hfront, ?_⟩
    have hlast : (n ++ u).getLast? = u.getLast?.or (n.getLast?.or front.getLast?) := by
      rw [List.getLast?_append, List.getLast?_eq_some_getLast hn.1]
      rfl
    rw [hlast]
    exact hend

/-- All that a match for digits takes. -/
theorem number_of_taken {p : Pat} (hp : p.consumes = true) (htakes : ∀ c, p.takes c = true → digit c = true)
    {s : Place} (ht : t ∈ p.ends s) :
    ∃ n, Number n ∧ s.ahead = n ++ t.ahead ∧ t.behind = n.getLast?.or s.behind := by
  obtain ⟨n, hn, hdigits, hbehind⟩ := ends_taken p s t ht
  have hshort := length_lt_of_consumes hp t ht
  refine ⟨n, ⟨fun hnil => ?_, fun c hc => htakes c (hdigits c hc)⟩, hn, hbehind⟩
  rw [hn, hnil, List.nil_append] at hshort
  exact Nat.lt_irrefl _ hshort

theorem hasNumber_reAddr (ht : t ∈ reAddr.ends ⟨front.getLast?, rest, []⟩) : HasNumber (front ++ rest) := by
  obtain ⟨hstart, h₁⟩ := mem_all_boundary.mp ht
  obtain ⟨u, hu, h₂⟩ := mem_all_cons.mp h₁
  obtain ⟨n, hn, htext, -⟩ := number_of_taken (by decide) (fun c hc => by simpa [octet, upTo, opt, takes] using hc) hu
  obtain ⟨v, hv, -⟩ := mem_all_cons.mp h₂
  obtain ⟨w, hw, -⟩ := mem_all_cons.mp hv
  obtain ⟨x, hx, -⟩ := mem_all_cons.mp hw
  replace htext : rest = n ++ u.ahead := htext
  obtain ⟨l, hl, more, hahead, -⟩ := mem_one.mp hx
  obtain ⟨c, hc, rfl⟩ := hl
  rw [eq_of_beq hc] at hahead
  subst htext
  refine hasNumber_digits hn (word_behind hstart (head_number hn)) ?_
  rw [hahead]
  rfl

/-- In front of a time only spaces and a bracket stand. -/
theorem mem_time {ps : List Pat} (ht : t ∈ (all (.start :: spaces :: opt (char '[') :: ps)).ends ⟨front.getLast?, rest, []⟩) :
    front = [] ∧ ∃ l rest', rest = l ++ rest' ∧ (∀ c ∈ l, word c = false) ∧ t ∈ (all ps).ends ⟨l.getLast?, rest', []⟩ := by
  obtain ⟨u, hu, h₁⟩ := mem_all_cons.mp ht
  have hfront : front = [] := by
    rw [ends] at hu
    split at hu
    · rename_i hnone
      exact List.getLast?_eq_none_iff.mp (Option.isNone_iff_eq_none.mp hnone)
    · exact absurd hu List.not_mem_nil
  subst hfront
  rw [List.mem_singleton.mp (show u ∈ [_] from hu)] at h₁
  obtain ⟨blank, hblank, rest₁, rfl, h₂⟩ := (mem_all_plain (by decide)).mp h₁
  obtain ⟨bracket, hbracket, rest₂, rfl, h₃⟩ := (mem_all_plain (by decide)).mp h₂
  refine ⟨rfl, blank ++ bracket, rest₂, (List.append_assoc _ _ _).symm, ?_, ?_⟩
  · refine List.forall_mem_append.mpr ⟨fun c hc => space_not_word (mem_language_star.mp hblank c hc), ?_⟩
    intro c hc
    rcases hbracket with hbracket | hbracket
    · rw [mem_language_char.mp hbracket, List.mem_singleton] at hc
      rw [hc]
      rfl
    · rw [(Language.mem_one bracket).mp hbracket] at hc
      exact absurd hc List.not_mem_nil
  · rw [List.getLast?_append, ← Option.or_none (o := blank.getLast?)]
    exact h₃

/-- So many digits and then a separator. -/
theorem mem_fixed {behind : Option Char} {n : Nat} (hn : n ≠ 0) {c : Char} {ps : List Pat}
    (ht : t ∈ (all (fixed n :: char c :: ps)).ends ⟨behind, rest, []⟩) :
    ∃ m rest', rest = m ++ c :: rest' ∧ Number m := by
  obtain ⟨m, hm, rest₁, rfl, h₁⟩ := (mem_all_plain (plain_times n rfl)).mp ht
  obtain ⟨sep, hsep, rest₂, rfl, -⟩ := (mem_all_plain rfl).mp h₁
  obtain ⟨hlength, hdigits⟩ := mem_language_times.mp hm
  rw [mem_language_char.mp hsep]
  refine ⟨m, rest₂, rfl, fun hnil => hn ?_, hdigits⟩
  rw [← hlength, hnil]
  rfl

theorem hasNumber_time {l m : List Char} (hl : ∀ c ∈ l, word c = false) (hm : Number m) {c : Char} (hc : word c = false) :
    HasNumber (l ++ (m ++ c :: rest)) := by
  have hfront := last_none hl none rfl
  rw [Option.or_none] at hfront
  exact hasNumber_digits hm hfront hc

theorem hasNumber_reTimestamp (ht : t ∈ reTimestamp.ends ⟨front.getLast?, rest, []⟩) : HasNumber (front ++ rest) := by
  obtain ⟨rfl, l, rest₁, rfl, hl, h₁⟩ := mem_time ht
  obtain ⟨m, rest₂, rfl, hm⟩ := mem_fixed (by decide) h₁
  exact hasNumber_time hl hm rfl

theorem hasNumber_reTimeOnly (ht : t ∈ reTimeOnly.ends ⟨front.getLast?, rest, []⟩) : HasNumber (front ++ rest) := by
  obtain ⟨rfl, l, rest₁, rfl, hl, h₁⟩ := mem_time ht
  obtain ⟨u, hu, -⟩ := mem_all_cons.mp h₁
  obtain ⟨m, rest₂, rfl, hm⟩ := mem_fixed (by decide) hu
  exact hasNumber_time hl hm rfl

theorem hasHash_reUUID (ht : t ∈ reUUID.ends ⟨front.getLast?, rest, []⟩) : HasHash word (front ++ rest) := by
  have hparts : reUUID = all ([.boundary, hexDigits 8, char '-', hexDigits 4, char '-', hexDigits 4, char '-',
      hexDigits 4] ++ [char '-', hexDigits 12, .boundary]) := rfl
  rw [hparts, mem_all_append] at ht
  obtain ⟨u, hu, h₁⟩ := ht
  obtain ⟨l, hl, -, -⟩ := ends_taken _ _ u hu
  replace hl : rest = l ++ u.ahead := hl
  obtain ⟨dash, hdash, rest₁, hahead, h₂⟩ := (mem_all_plain rfl).mp h₁
  obtain ⟨run, hrun, rest₂, rfl, h₃⟩ := (mem_all_plain (by decide)).mp h₂
  obtain ⟨hend, -⟩ := mem_all_boundary.mp h₃
  obtain ⟨hlength, hhex⟩ := mem_language_times.mp hrun
  have hne : run ≠ [] := fun hnil => absurd hlength (by rw [hnil]; decide)
  refine ⟨front ++ l ++ ['-'], run, rest₂, ?_, hlength.ge, hhex, ?_, ?_⟩
  · rw [hl, hahead, mem_language_char.mp hdash]
    simp
  · rw [List.getLast?_concat]
    rfl
  · exact word_ahead hend (last_any hne (fun c hc => hexDigit_word (hhex c hc)) _)

theorem has_reHex (ht : t ∈ reHex.ends ⟨front.getLast?, rest, []⟩) :
    HasHexNumber (front ++ rest) ∨ HasHash word (front ++ rest) := by
  rcases List.mem_append.mp ht with ht | ht
  · refine .inl ?_
    obtain ⟨zero, hzero, rest₁, rfl, h₁⟩ := (mem_all_plain (by decide)).mp ht
    obtain ⟨run, hrun, rest₂, rfl, -⟩ := (mem_all_plain (by decide)).mp h₁
    obtain ⟨h, run', rfl, hh, -⟩ := mem_language_seq_one.mp hrun
    rw [mem_language_text.mp hzero]
    exact ⟨h, hh, front, run' ++ rest₂, by simp⟩
  · refine .inr ?_
    obtain ⟨hstart, h₁⟩ := mem_all_boundary.mp ht
    obtain ⟨run, hrun, rest₁, rfl, h₂⟩ := (mem_all_plain (by decide)).mp h₁
    obtain ⟨more, hmore, rest₂, rfl, h₃⟩ := (mem_all_plain (by decide)).mp h₂
    obtain ⟨hend, -⟩ := mem_all_boundary.mp h₃
    obtain ⟨hlength, hrunhex⟩ := mem_language_times.mp hrun
    have hhex : ∀ c ∈ run ++ more, hexDigit c = true := List.forall_mem_append.mpr ⟨hrunhex, mem_language_star.mp hmore⟩
    have hword : ∀ c ∈ run ++ more, word c = true := fun c hc => hexDigit_word (hhex c hc)
    have hne : run ++ more ≠ [] := by
      intro hnil
      rw [(List.append_eq_nil_iff.mp hnil).1] at hlength
      cases hlength
    refine ⟨front, run ++ more, rest₂, by rw [List.append_assoc], ?_, hhex, ?_, ?_⟩
    · rw [List.length_append, hlength]
      exact Nat.le_add_right _ _
    · rw [← List.append_assoc] at hstart
      exact word_behind hstart (head_any hne hword rest₂)
    · rw [← Option.or_assoc, ← List.getLast?_append] at hend
      exact word_ahead hend (last_any hne hword _)

/-- A match of a path: how it begins, and that a character of its own follows. -/
theorem rePath_root {behind : Option Char} (ht : t ∈ rePath.ends ⟨behind, rest, []⟩) :
    ∃ root rest', rest = root ++ rest' ∧ (Root root ∨ root = ['.', '/']) ∧ rest'.head?.any pathWord = true := by
  obtain ⟨root, hroot, rest₁, rfl, h₁⟩ := (mem_all_plain (by decide)).mp ht
  obtain ⟨body, hbody, rest₂, rfl, -⟩ := (mem_all_plain (by decide)).mp h₁
  obtain ⟨hne, hbody⟩ := mem_language_plus.mp hbody
  refine ⟨root, body ++ rest₂, rfl, ?_, head_any hne hbody rest₂⟩
  obtain ⟨p, hp, hroot⟩ := mem_language_any.mp hroot
  simp only [List.mem_cons, List.not_mem_nil, or_false] at hp
  rcases hp with rfl | rfl | rfl
  · obtain ⟨c, tail, rfl, hc, htail⟩ := mem_language_seq_one.mp hroot
    obtain ⟨colon, hcolon, nothing, hnothing, rfl⟩ := Language.mem_mul.mp htail
    rw [mem_language_text.mp hcolon, (Language.mem_one nothing).mp hnothing]
    exact .inl (.drive hc)
  · rw [mem_language_char.mp hroot]
    exact .inl .slash
  · rw [mem_language_text.mp hroot]
    exact .inr rfl

theorem hasPath_rePath (ht : t ∈ rePath.ends ⟨front.getLast?, rest, []⟩) : HasPath (front ++ rest) := by
  obtain ⟨root, rest', rfl, hroot | rfl, hrest⟩ := rePath_root ht
  · exact ⟨front, root, rest', rfl, hroot, hrest⟩
  · exact ⟨front ++ ['.'], ['/'], rest', by simp, .slash, hrest⟩

end Matches

/-! ### A settled line stays as it is -/

theorem unquoted_settled (new : List Char) {text : List Char} (h : ∀ q, isQuote q = true → text.count q ≤ 1) :
    unquoted new none text = text := by
  induction text with
  | nil => rfl
  | cons c rest ih =>
    have hopen : ¬ (isQuote c = true ∧ c ∈ rest) := by
      intro hquote
      have hcount := h c hquote.1
      have hmore := List.count_pos_iff.mpr hquote.2
      rw [List.count_cons_self] at hcount
      omega
    have hrest : ∀ q, isQuote q = true → rest.count q ≤ 1 :=
      fun q hq => Nat.le_trans (List.count_le_count_cons) (h q hq)
    rw [unquoted, if_neg hopen, ih hrest]

/-- A single space is replaced with itself. -/
theorem replaceFrom_single {text : List Char} (h : SingleSpaces text) (behind : Option Char) :
    reSpace.replaceFrom [' '] behind 0 text = text := by
  induction text generalizing behind with
  | nil => rfl
  | cons c rest ih =>
    have hrest : SingleSpaces rest := ⟨fun d hd => h.1 d (List.mem_cons_of_mem c hd), List.IsChain.of_cons h.2⟩
    cases hc : space c with
    | true =>
      have hnext : rest.head?.any space = false := by
        cases rest with
        | nil => rfl
        | cons d rest =>
          have hadjacent := (List.isChain_cons_cons.mp h.2).1
          rw [hc] at hadjacent
          exact hadjacent.resolve_left Bool.noConfusion
      have hfirst := first_one space (s := ⟨behind, c :: rest, []⟩) rfl hc
      have hmore := first_star space (l := []) rest (fun d hd => absurd hd List.not_mem_nil) hnext
        (s := Place.after ⟨behind, c :: rest, []⟩ [c] rest) rfl
      rw [after_cons] at hmore
      have hwidth := width_of_first (l := [c]) (first_seq hfirst hmore)
      have hmatch := replaceFrom_match (p := reSpace) (List.cons_ne_nil c []) hwidth [' ']
      rw [List.singleton_append] at hmatch
      rw [hmatch, ih hrest, h.1 c List.mem_cons_self hc]
      rfl
    | false =>
      have hends : reSpace.ends ⟨behind, c :: rest, []⟩ = [] := by
        have hnone : (Pat.one space).ends ⟨behind, c :: rest, []⟩ = [] := by simp [ends, hc]
        rw [reSpace, plus, ends, hnone, List.flatMap_nil]
      rw [replaceFrom_cons, width_none hends, ih hrest]

theorem replaceAll_settled {p : Pat} (new : List Char) {text : List Char}
    (h : ∀ front rest t, text = front ++ rest → t ∉ p.ends ⟨front.getLast?, rest, []⟩) :
    p.replaceAll text new = text :=
  replaceAll_none fun front rest htext => List.eq_nil_iff_forall_not_mem.mpr fun t => h front rest t htext

theorem rewritten_settled {text : List Char} (h : Settled text) : rewritten rewrites text = text := by
  have hnumber : ∀ {p : Pat}, (∀ front rest t, t ∈ p.ends ⟨front.getLast?, rest, []⟩ → HasNumber (front ++ rest)) →
      ∀ new, p.replaceAll text new = text := by
    intro p hp new
    exact replaceAll_settled new fun front rest t htext ht => h.number (htext ▸ hp front rest t ht)
  have hquoted : reQuoted.replaceAll text "<str>".toList = text :=
    (replaceFrom_reQuoted _ none text).trans (unquoted_settled _ h.quotes)
  have huuid : reUUID.replaceAll text "<uuid>".toList = text :=
    replaceAll_settled _ fun front rest t htext ht => h.hash (htext ▸ hasHash_reUUID ht)
  have hhex : reHex.replaceAll text "<hex>".toList = text :=
    replaceAll_settled _ fun front rest t htext ht => (htext ▸ has_reHex ht).elim h.hexNumber h.hash
  have hpath : rePath.replaceAll text "<path>".toList = text :=
    replaceAll_settled _ fun front rest t htext ht => h.path (htext ▸ hasPath_rePath ht)
  have hspace : reSpace.replaceAll text " ".toList = text := replaceFrom_single h.spaces none
  simp only [rewritten, rewrites, List.foldl_cons, List.foldl_nil, hquoted, huuid, hhex, hpath, hspace,
    hnumber fun _ _ _ => hasNumber_reTimestamp, hnumber fun _ _ _ => hasNumber_reTimeOnly,
    hnumber fun _ _ _ => hasNumber_reAddr, hnumber fun _ _ _ => hasNumber_reNum]

end Marshal.Errsig
