import Marshal.Errsig.Rewrites

/-! Lines that differ in a number.

A number that stands alone, between spaces or the ends of the line, is left as it is by every
pattern before the last two: a match that reaches it from the left would have to go on behind
it with a character that does not stand there. Quoted text with the number in it is
replaced whole. So two such lines get one signature where the numbers are both shorter
than a hash or both as long as one (`Normalize_number`). -/
namespace Marshal.Errsig
open Regex Pat

/-! ### A number between spaces -/

/-- A text before the number: it ends in a space, if it is there. -/
def Before (front : List Char) : Prop := ∀ c ∈ front.getLast?, c = ' '

def After (rest : List Char) : Prop := ∀ c ∈ rest.head?, c = ' '

instance (front : List Char) : Decidable (Before front) :=
  inferInstanceAs (Decidable (∀ c ∈ front.getLast?, c = ' '))

instance (rest : List Char) : Decidable (After rest) := inferInstanceAs (Decidable (∀ c ∈ rest.head?, c = ' '))

theorem before_cases {front : List Char} (h : Before front) : front = [] ∨ ∃ front', front = front' ++ [' '] := by
  rcases List.eq_nil_or_concat front with rfl | ⟨front', c, rfl⟩
  · exact .inl rfl
  · rw [List.concat_eq_append] at h ⊢
    rw [h c (by simp)]
    exact .inr ⟨front', rfl⟩

theorem after_cases {rest : List Char} (h : After rest) : rest = [] ∨ ∃ rest', rest = ' ' :: rest' := by
  cases rest with
  | nil => exact .inl rfl
  | cons c rest => exact .inr ⟨rest, by rw [h c rfl]⟩

theorem before_suffix {front front' : List Char} (h : Before front) (hs : front' <:+ front) : Before front' := by
  obtain ⟨l, rfl⟩ := hs
  intro c hc
  refine h c ?_
  rw [List.getLast?_append, hc]
  rfl

theorem before_append {l front : List Char} (hne : front ≠ []) (h : Before front) : Before (l ++ front) := by
  intro c hc
  rw [List.getLast?_append_of_ne_nil _ hne] at hc
  exact h c hc

/-! ### From the end of the number on -/

/-- Digits, and then a space or the end. -/
def Tail (s : Place) : Prop := ∃ n rest, s.ahead = n ++ rest ∧ (∀ c ∈ n, digit c = true) ∧ After rest

theorem tail_ends {p : Pat} (hp : p.takes ' ' = false) {s : Place} (h : Tail s) : ∀ t ∈ p.ends s, Tail t := by
  intro t ht
  obtain ⟨n, rest, hahead, hdigits, hrest⟩ := h
  obtain ⟨l, hl, hlc, -⟩ := ends_taken p s t ht
  rw [hahead] at hl
  rcases List.append_eq_append_iff.mp hl with ⟨l', hbefore, hafter⟩ | ⟨n', hn, hafter⟩
  · cases l' with
    | nil => exact ⟨[], rest, by rw [hafter]; rfl, fun c hc => absurd hc List.not_mem_nil, hrest⟩
    | cons c l' =>
      have hc : c = ' ' := hrest c (by rw [hafter]; rfl)
      have htakes := hlc c (by rw [hbefore]; simp)
      rw [hc, hp] at htakes
      cases htakes
  · exact ⟨n', rest, hafter, fun c hc => hdigits c (by rw [hn]; exact List.mem_append_right l hc), hrest⟩

/-- What stands next is a digit, a space or nothing. -/
theorem tail_char {c : Char} (hc : digit c = false ∧ c ≠ ' ') {s : Place} (h : Tail s) : (char c).ends s = [] := by
  obtain ⟨n, rest, hahead, hdigits, hrest⟩ := h
  rw [char, ends, hahead]
  cases n with
  | nil =>
    rcases after_cases hrest with rfl | ⟨rest', rfl⟩
    · rfl
    · simp [Ne.symm hc.2]
  | cons d n =>
    have hne : d ≠ c := by
      intro heq
      have hd := hdigits d List.mem_cons_self
      rw [heq, hc.1] at hd
      cases hd
    simp [hne]

/-- No match from the number on asks for a character that does not stand there. -/
theorem tail_all (ps : List Pat) {qs : List Pat} {c : Char} (hc : digit c = false ∧ c ≠ ' ')
    (hps : ∀ p ∈ ps, p.takes ' ' = false) {s : Place} (h : Tail s) : (all (ps ++ char c :: qs)).ends s = [] := by
  refine List.eq_nil_iff_forall_not_mem.mpr fun t ht => ?_
  induction ps generalizing s with
  | nil =>
    obtain ⟨u, hu, -⟩ := mem_all_cons.mp ht
    rw [tail_char hc h] at hu
    exact absurd hu List.not_mem_nil
  | cons p ps ih =>
    obtain ⟨u, hu, ht⟩ := mem_all_cons.mp ht
    exact ih (fun q hq => hps q (List.mem_cons_of_mem p hq)) (tail_ends (hps p List.mem_cons_self) h u hu) ht

/-! ### Patterns that take no space -/

/-- Where the number stands alone, the pattern puts `word` for it. -/
def Puts (p : Pat) (new n word : List Char) : Prop := ∀ behind rest, behind.any Regex.word = false → After rest →
  p.replaceFrom new behind 0 (n ++ rest) = word ++ p.replaceFrom new n.getLast? 0 rest

/-- Without a match anywhere in the number it is left. -/
theorem puts_self {p : Pat} {n : List Char} (hne : n ≠ [])
    (h : ∀ l, l ≠ [] → l <:+ n → ∀ behind rest, After rest → p.width behind (l ++ rest) = none)
    (new : List Char) : Puts p new n n := by
  have hleft : ∀ l, l <:+ n → ∀ behind rest, After rest → p.replaceFrom new behind 0 (l ++ rest) =
      l ++ p.replaceFrom new (l.getLast?.or behind) 0 rest := by
    intro l hl
    induction l with
    | nil => exact fun behind rest _ => rfl
    | cons c l ih =>
      intro behind rest hrest
      have hnone := h (c :: l) (List.cons_ne_nil c l) hl behind rest hrest
      have hmore := ih ((List.suffix_cons c l).trans hl) (some c) rest hrest
      rw [List.cons_append] at hnone
      rw [List.cons_append, replaceFrom_cons, hnone, getLast?_cons_or, hmore, List.cons_append]
  intro behind rest _ hrest
  have hlast : n.getLast?.or behind = n.getLast? := by
    rw [List.getLast?_eq_some_getLast hne]
    rfl
  rw [hleft n List.suffix_rfl behind rest hrest, hlast]

/-- A match of the whole number. -/
theorem puts_new {p : Pat} {n : List Char} (hne : n ≠ [])
    (h : ∀ behind rest, behind.any Regex.word = false → After rest → p.width behind (n ++ rest) = some n.length)
    (new : List Char) : Puts p new n new :=
  fun behind rest hbehind hrest => replaceFrom_match hne (h behind rest hbehind hrest) new

/-- A number between two texts stays between them, with what the pattern puts for it. -/
theorem replaceAll_parts {p : Pat} (hp : p.takes ' ' = false) (new : List Char) {front rest : List Char}
    (hfront : Before front) (hrest : After rest) :
    ∃ front' rest', Before front' ∧ After rest' ∧ ∀ n word, Puts p new n word →
      p.replaceAll (front ++ (n ++ rest)) new = front' ++ (word ++ rest') := by
  obtain ⟨rest', hrest', hafter⟩ : ∃ rest', After rest' ∧ ∀ behind, p.replaceFrom new behind 0 rest = rest' := by
    rcases after_cases hrest with rfl | ⟨rest, rfl⟩
    · exact ⟨[], hrest, fun _ => rfl⟩
    · refine ⟨' ' :: p.replaceFrom new (some ' ') 0 rest, ?_, fun _ => replaceFrom_untaken hp new _ rest⟩
      intro c hc
      exact (Option.some.inj hc).symm
  rcases before_cases hfront with rfl | ⟨front, rfl⟩
  · refine ⟨[], rest', hfront, hrest', fun n word hputs => ?_⟩
    rw [List.nil_append, Pat.replaceAll, hputs none rest rfl hrest, hafter, List.nil_append]
  · obtain ⟨front', hcut⟩ := replaceFrom_cut hp new front (Nat.zero_le _) none
    refine ⟨front' ++ [' '], rest', ?_, hrest', fun n word hputs => ?_⟩
    · intro c hc
      rw [List.getLast?_concat] at hc
      exact (Option.some.inj hc).symm
    · rw [Pat.replaceAll, List.append_assoc, List.singleton_append, hcut,
        hputs (some ' ') rest rfl hrest, hafter, List.append_assoc, List.singleton_append]

/-! ### The patterns for identifiers, addresses and paths -/

theorem tail_place {l rest : List Char} (hl : ∀ c ∈ l, digit c = true) (hrest : After rest) (behind : Option Char) :
    Tail { behind := behind, ahead := l ++ rest } := ⟨l, rest, rfl, hl, hrest⟩

theorem reUUID_puts {n : List Char} (hn : Number n) (new : List Char) : Puts reUUID new n n := by
  refine puts_self hn.1 (fun l _ hl behind rest hrest => width_none ?_) new
  have htail := tail_place (fun c hc => hn.2 c (hl.subset hc)) hrest behind
  exact tail_all [.boundary, hexDigits 8] ⟨by decide, by decide⟩ (by decide) htail

theorem reAddr_puts {n : List Char} (hn : Number n) (new : List Char) : Puts reAddr new n n := by
  refine puts_self hn.1 (fun l _ hl behind rest hrest => width_none ?_) new
  have htail := tail_place (fun c hc => hn.2 c (hl.subset hc)) hrest behind
  refine List.eq_nil_iff_forall_not_mem.mpr fun t ht => ?_
  obtain ⟨u, hu, ht⟩ := mem_all_cons.mp ht
  obtain ⟨v, hv, ht⟩ := mem_all_cons.mp ht
  obtain ⟨w, hw, -⟩ := mem_all_cons.mp ht
  have hdots := tail_ends (by decide) (tail_ends (by decide) htail u hu) v hv
  obtain ⟨x, hx, -⟩ := mem_all_cons.mp hw
  have hnone : (all [char '.', octet]).ends v = [] := tail_all [] ⟨by decide, by decide⟩ (by decide) hdots
  rw [hnone] at hx
  exact absurd hx List.not_mem_nil

theorem rePath_puts {n : List Char} (hn : Number n) (new : List Char) : Puts rePath new n n := by
  refine puts_self hn.1 (fun l hne hl behind rest hrest => width_none ?_) new
  have htail := tail_place (fun c hc => hn.2 c (hl.subset hc)) hrest behind
  have hdrive : (all [.one letter, text ":\\"]).ends { behind := behind, ahead := l ++ rest } = [] := by
    cases l with
    | nil => exact absurd rfl hne
    | cons c l =>
      have hletter := digit_not_letter (hn.2 c (hl.subset List.mem_cons_self))
      have hnone : (Pat.one letter).ends { behind := behind, ahead := c :: l ++ rest } = [] := by
        simp [ends, hletter]
      rw [all, List.foldr_cons, ends, hnone, List.flatMap_nil]
  have hslash : (char '/').ends { behind := behind, ahead := l ++ rest } = [] :=
    tail_char ⟨by decide, by decide⟩ htail
  have hdot : (text "./").ends { behind := behind, ahead := l ++ rest } = [] :=
    tail_all [] ⟨by decide, by decide⟩ (by decide) htail
  have hany : (any [all [.one letter, text ":\\"], char '/', text "./"]).ends
      { behind := behind, ahead := l ++ rest } = [] := by
    simp only [any, ends, hdrive, hslash, hdot, List.append_nil]
  rw [rePath, all, List.foldr_cons, ends, hany, List.flatMap_nil]

/-! ### The patterns for hashes and numbers -/

theorem tail_zeroX {s : Place} (h : Tail s) : (text "0x").ends s = [] :=
  tail_all [char '0'] ⟨by decide, by decide⟩ (by decide) h

/-- Fewer than twelve digits are no hash. -/
theorem reHex_short {n : List Char} (hn : Number n) (hlength : n.length < 12) (new : List Char) :
    Puts reHex new n n := by
  refine puts_self hn.1 (fun l _ hl behind rest hrest => width_none ?_) new
  have htail := tail_place (fun c hc => hn.2 c (hl.subset hc)) hrest behind
  have hzero : (all [text "0x", plus (.one hexDigit)]).ends { behind := behind, ahead := l ++ rest } = [] := by
    rw [all, List.foldr_cons, ends, tail_zeroX htail, List.flatMap_nil]
  have hrun : (all [.boundary, hexDigits 12, .star (.one hexDigit), .boundary]).ends
      { behind := behind, ahead := l ++ rest } = [] := by
    refine List.eq_nil_iff_forall_not_mem.mpr fun t ht => ?_
    obtain ⟨u, hu, ht⟩ := mem_all_cons.mp ht
    obtain ⟨v, hv, -⟩ := mem_all_cons.mp ht
    have hu : u.ahead = l ++ rest := by
      rw [ends] at hu
      split at hu
      · rw [List.mem_singleton.mp hu]
      · exact absurd hu List.not_mem_nil
    obtain ⟨run, hrunlength, hahead, hrunhex⟩ := times_taken v hv
    rw [hu] at hahead
    rcases List.append_eq_append_iff.mp hahead with ⟨l', hbefore, hafter⟩ | ⟨l', hbefore, -⟩
    · cases l' with
      | nil =>
        have hcount := congrArg List.length hbefore
        rw [List.append_nil, hrunlength] at hcount
        exact absurd hl.length_le (by omega)
      | cons c l' =>
        have hspace : c = ' ' := hrest c (by rw [hafter]; rfl)
        have hhex := hrunhex c (by rw [hbefore]; simp)
        rw [hspace] at hhex
        exact absurd hhex (by decide)
    · have hcount := congrArg List.length hbefore
      rw [List.length_append, hrunlength] at hcount
      exact absurd hl.length_le (by omega)
  exact List.append_eq_nil_iff.mpr ⟨hzero, hrun⟩

theorem after_head {accepts : Char → Bool} (h : accepts ' ' = false) {rest : List Char} (hrest : After rest) :
    rest.head?.any accepts = false := by
  rcases after_cases hrest with rfl | ⟨rest', rfl⟩
  · rfl
  · exact h

theorem boundary_before {behind : Option Char} (hbehind : behind.any Regex.word = false) {n : List Char}
    (hn : Number n) (rest : List Char) : Place.atBoundary { behind := behind, ahead := n ++ rest } = true := by
  rw [Place.atBoundary, hbehind, head_number hn]
  rfl

theorem boundary_after {n rest : List Char} (hn : Number n) (hrest : After rest) (s : Place) :
    (s.after n rest).atBoundary = true := by
  have hlast : (n.getLast?.or s.behind).any Regex.word = true := by
    rw [List.getLast?_eq_some_getLast hn.1, Option.some_or]
    simp [Regex.word, hn.2 _ (List.getLast_mem hn.1)]
  rw [Place.atBoundary, Place.after, hlast, after_head (by decide) hrest]
  rfl

/-- Twelve digits and more are one. -/
theorem reHex_long {n : List Char} (hn : Number n) (hlength : 12 ≤ n.length) (new : List Char) :
    Puts reHex new n new := by
  refine puts_new hn.1 (fun behind rest hbehind hrest => ?_) new
  have htail := tail_place hn.2 hrest behind
  have hzero : (all [text "0x", plus (.one hexDigit)]).ends { behind := behind, ahead := n ++ rest } = [] := by
    rw [all, List.foldr_cons, ends, tail_zeroX htail, List.flatMap_nil]
  have hhex : ∀ c ∈ n, hexDigit c = true := fun c hc => digit_hexDigit (hn.2 c hc)
  have hspace : rest.head?.any hexDigit = false := after_head (by decide) hrest
  have htake : (n.take 12).length = 12 := by rw [List.length_take, Nat.min_eq_left hlength]
  have hstart := first_boundary (boundary_before hbehind hn rest)
  have htwelve := first_times hexDigit (l := n.take 12) (n.drop 12 ++ rest)
    (fun c hc => hhex c (List.mem_of_mem_take hc)) (s := { behind := behind, ahead := n ++ rest })
    (by rw [← List.append_assoc, List.take_append_drop])
  rw [htake] at htwelve
  have hmore := first_star hexDigit (l := n.drop 12) rest
    (fun c hc => hhex c (List.mem_of_mem_drop hc)) hspace
    (s := Place.after { behind := behind, ahead := n ++ rest } (n.take 12) (n.drop 12 ++ rest)) rfl
  rw [after_append, List.take_append_drop] at hmore
  have hend := first_boundary (boundary_after hn hrest { behind := behind, ahead := n ++ rest })
  have hrun := first_seq hstart (first_seq htwelve (first_seq hmore (first_seq hend (q := .empty) rfl)))
  exact width_of_first ((first_or_right hzero).trans hrun)

/-- A pattern that takes something has no match before a space or the end. -/
theorem ends_after {p : Pat} (hconsumes : p.consumes = true) (hp : p.takes ' ' = false) {s : Place}
    (h : After s.ahead) : p.ends s = [] := by
  refine List.eq_nil_iff_forall_not_mem.mpr fun t ht => ?_
  have hlt := length_lt_of_consumes hconsumes t ht
  obtain ⟨l, hl, hlc, -⟩ := ends_taken p s t ht
  cases l with
  | nil =>
    rw [List.nil_append] at hl
    exact absurd hlt (by rw [hl]; exact Nat.lt_irrefl _)
  | cons c l =>
    have hc : c = ' ' := h c (by rw [hl]; rfl)
    have htakes := hlc c List.mem_cons_self
    rw [hc, hp] at htakes
    cases htakes

/-- A number is one match. -/
theorem reNum_puts {n : List Char} (hn : Number n) (new : List Char) : Puts reNum new n new := by
  refine puts_new hn.1 (fun behind rest hbehind hrest => ?_) new
  have hdigit : rest.head?.any digit = false := after_head (by decide) hrest
  have hstart := first_boundary (boundary_before hbehind hn rest)
  have hdigits : digits.first { behind := behind, ahead := n ++ rest } =
      some (Place.after { behind := behind, ahead := n ++ rest } n rest) := by
    cases n with
    | nil => exact absurd rfl hn.1
    | cons c n =>
      have hmore := first_star digit (l := n) rest
        (fun d hd => hn.2 d (List.mem_cons_of_mem c hd)) hdigit
        (s := Place.after { behind := behind, ahead := c :: n ++ rest } [c] (n ++ rest)) rfl
      rw [after_cons] at hmore
      exact first_seq (first_one _ rfl (hn.2 c List.mem_cons_self)) hmore
  have htail : Tail (Place.after { behind := behind, ahead := n ++ rest } n rest) :=
    ⟨[], rest, rfl, fun c hc => absurd hc List.not_mem_nil, hrest⟩
  have hpoint : (all [char '.', digits]).ends (Place.after { behind := behind, ahead := n ++ rest } n rest) = [] :=
    tail_all [] ⟨by decide, by decide⟩ (by decide) htail
  have hunit := ends_after (p := any (["ns", "us", "\u00b5s", "ms", "s", "m", "h"].map caseless ++
    ["k", "m", "g"].map bytesUnit ++ [caseless "b"])) (by decide) (by decide)
    (s := Place.after { behind := behind, ahead := n ++ rest } n rest) hrest
  have hend := first_boundary (boundary_after hn hrest { behind := behind, ahead := n ++ rest })
  have hnothing := first_seq (first_opt hunit) (first_seq hend (q := .empty) rfl)
  exact width_of_first (first_seq hstart (first_seq hdigits (first_seq (first_opt hpoint) hnothing)))

/-! ### The patterns for times -/

section
variable {n rest : List Char}

/-- A place before the number, at it at the latest. -/
def Ahead (n rest : List Char) (s : Place) : Prop := ∃ front, s.ahead = front ++ (n ++ rest) ∧ Before front

/-- A place before the space in front of the number. -/
def Solid (n rest : List Char) (s : Place) : Prop := ∃ front, s.ahead = front ++ ' ' :: (n ++ rest)

theorem Solid.ahead {s : Place} (h : Solid n rest s) : Ahead n rest s := by
  obtain ⟨front, hfront⟩ := h
  refine ⟨front ++ [' '], by rw [hfront, List.append_assoc]; rfl, ?_⟩
  intro c hc
  rw [List.getLast?_concat] at hc
  exact (Option.some.inj hc).symm

theorem leads_solid {p : Pat} (hp : p.takes ' ' = false) : Leads p (Solid n rest) (Solid n rest) := by
  intro s hs t ht
  obtain ⟨front, hfront⟩ := hs
  obtain ⟨front', hahead, -⟩ := ends_before hp hfront t ht
  exact ⟨front', hahead⟩

theorem leads_ahead (hn : Number n) {p : Pat} (hp : ∀ d, digit d = true → p.takes d = false) :
    Leads p (Ahead n rest) (Ahead n rest) := by
  intro s hs t ht
  obtain ⟨front, hfront, hbefore⟩ := hs
  cases n with
  | nil => exact absurd rfl hn.1
  | cons d n =>
    obtain ⟨front', hahead, hsuffix⟩ := ends_before (hp d (hn.2 d List.mem_cons_self)) hfront t ht
    exact ⟨front', hahead, before_suffix hbefore hsuffix⟩

/-- Digits are taken before the number, or are its own and nothing is matched behind them. -/
theorem leads_fixed (hn : Number n) (hrest : After rest) {p : Pat} (hp : p.takes ' ' = false) :
    Leads p (Ahead n rest) fun t => Solid n rest t ∨ Tail t := by
  intro s hs t ht
  obtain ⟨front, hfront, hbefore⟩ := hs
  rcases before_cases hbefore with rfl | ⟨front, rfl⟩
  · exact .inr (tail_ends hp ⟨n, rest, hfront, hn.2, hrest⟩ t ht)
  · refine .inl (leads_solid hp s ⟨front, ?_⟩ t ht)
    rw [hfront, List.append_assoc, List.singleton_append]

theorem leads_char {c : Char} (hc : digit c = false ∧ c ≠ ' ') :
    Leads (char c) (fun t => Solid n rest t ∨ Tail t) (Solid n rest) := by
  intro s hs t ht
  have hspace : (char c).takes ' ' = false := by simpa [char, Pat.takes] using Ne.symm hc.2
  rcases hs with hsolid | htail
  · exact leads_solid hspace s hsolid t ht
  · rw [tail_char hc htail] at ht
    exact absurd ht List.not_mem_nil

theorem leads_spaces (hn : Number n) : Leads spaces (Ahead n rest) (Ahead n rest) :=
  leads_ahead hn fun _ => space_not_digit

theorem leads_open (hn : Number n) : Leads (opt (char '[')) (Ahead n rest) (Ahead n rest) := by
  refine leads_ahead hn fun d hd => ?_
  simpa [opt, char, Pat.takes] using digit_ne (c := '[') (by decide) hd

/-- `h:m:s`, from the hour on. -/
theorem leads_clock (hn : Number n) (hrest : After rest) : Leads clock (Ahead n rest) (Solid n rest) :=
  (leads_fixed hn hrest (by decide)).seq ((leads_char ⟨by decide, by decide⟩).seq (leads_solid (by decide)))

theorem leads_close (hn : Number n) : Leads (all [opt (char ']'), spaces]) (Solid n rest) (Ahead n rest) :=
  (leads_solid (by decide)).seq (((leads_spaces hn).weaken fun _ => Solid.ahead).seq (Leads.empty _))

/-- No time at the start of the line reaches the number. -/
theorem leads_reTimeOnly (hn : Number n) (hrest : After rest) :
    Leads reTimeOnly (Ahead n rest) (Ahead n rest) :=
  (leads_ahead (p := .start) hn fun _ _ => rfl).seq ((leads_spaces hn).seq ((leads_open hn).seq
    ((leads_clock hn hrest).seq (leads_close hn))))

theorem leads_reTimestamp (hn : Number n) (hrest : After rest) :
    Leads reTimestamp (Ahead n rest) (Ahead n rest) := by
  have hstart : Leads .start (Ahead n rest) (Ahead n rest) := leads_ahead hn fun _ _ => rfl
  have hyear : Leads (fixed 4) (Ahead n rest) _ := leads_fixed hn hrest (by decide)
  have hmonth : Leads (fixed 2) (Solid n rest) (Solid n rest) := leads_solid (by decide)
  have hdash : Leads (char '-') (fun t => Solid n rest t ∨ Tail t) (Solid n rest) :=
    leads_char ⟨by decide, by decide⟩
  have hseparator : Leads (.one fun c => c == ' ' || c == 'T') (Solid n rest) (Ahead n rest) := by
    refine Leads.weaken (leads_ahead hn fun d hd => ?_) fun _ => Solid.ahead
    simp [Pat.takes, digit_ne (c := ' ') (by decide) hd, digit_ne (c := 'T') (by decide) hd]
  have hzone : Leads zone (Solid n rest) (Solid n rest) := leads_solid (by decide)
  exact hstart.seq ((leads_spaces hn).seq ((leads_open hn).seq (hyear.seq (hdash.seq (hmonth.seq
    ((hdash.weaken fun _ => .inl).seq (hmonth.seq (hseparator.seq ((leads_clock hn hrest).seq
      (hzone.seq (leads_close hn)))))))))))

end

/-- What is cut off at the start does not depend on the number. -/
theorem replaceAll_time {p : Pat} (hstart : ∀ c text groups, p.ends ⟨some c, text, groups⟩ = []) {front rest : List Char}
    (hleads : ∀ n, Number n → Leads p (Ahead n rest) (Ahead n rest)) (hfront : Before front) :
    ∃ l front', front = l ++ front' ∧ (∀ c ∈ l, p.takes c = true) ∧
      ∀ n, Number n → p.replaceAll (front ++ (n ++ rest)) [] = front' ++ (n ++ rest) := by
  have hzero : Number ['0'] := ⟨List.cons_ne_nil _ _, by decide⟩
  have hinside : ∀ n, Number n → ∀ t ∈ p.ends (Place.extend (n ++ rest) { behind := none, ahead := front }),
      (n ++ rest).length ≤ t.ahead.length := by
    intro n hn t ht
    obtain ⟨front', hahead, -⟩ := hleads n hn _ ⟨front, rfl, hfront⟩ t ht
    simp only [hahead, List.length_append]
    omega
  have hends : ∀ n, Number n → p.ends (Place.extend (n ++ rest) { behind := none, ahead := front }) =
      (p.endsIn (['0'] ++ rest) { behind := none, ahead := front }).map (Place.extend (n ++ rest)) := by
    intro n hn
    rw [ends_extend (hinside n hn), endsIn_congr p ((head_number hn).trans (head_number hzero).symm)]
  have htaken := ends_taken p (Place.extend (['0'] ++ rest) { behind := none, ahead := front })
  rw [hends _ hzero] at htaken
  cases hhead : (p.endsIn (['0'] ++ rest) { behind := none, ahead := front }).head? with
  | none =>
    refine ⟨[], front, rfl, fun c hc => absurd hc List.not_mem_nil, fun n hn => ?_⟩
    have hwidth : p.width none (front ++ (n ++ rest)) = none := by
      have hnone := hends n hn
      rw [List.head?_eq_none_iff.mp hhead] at hnone
      exact width_none hnone
    rw [replaceAll_start hstart, hwidth]
    rfl
  | some u =>
    obtain ⟨l, hl, hlc, -⟩ := htaken _ (List.mem_map_of_mem (List.mem_of_mem_head? hhead))
    have hfront : front = l ++ u.ahead := by
      have htext : front ++ (['0'] ++ rest) = (l ++ u.ahead) ++ (['0'] ++ rest) := by
        rw [List.append_assoc]
        exact hl
      exact List.append_cancel_right htext
    refine ⟨l, u.ahead, hfront, hlc, fun n hn => ?_⟩
    have hwidth : p.width none (front ++ (n ++ rest)) = some l.length := by
      have hn := hends n hn
      rw [Place.extend] at hn
      rw [Pat.width, Pat.here, hn, List.head?_map, hhead, hfront]
      simp only [Option.map_some, Place.extend, List.length_append, Option.some.injEq]
      omega
    rw [replaceAll_start hstart, hwidth, hfront, List.append_assoc, Option.getD_some, List.drop_left]

/-! ### Quoted text -/

/-- A place between two texts is inside quotes. -/
def inQuotes : Option Char → List Char → List Char → Bool
  | quote, [], _ => quote.isSome
  | some q, c :: front, rest => if c = q then inQuotes none front rest else inQuotes (some q) front rest
  | none, c :: front, rest =>
    if isQuote c = true ∧ (c ∈ front ∨ c ∈ rest) then inQuotes (some c) front rest else inQuotes none front rest

theorem digit_not_quote {q d : Char} (hq : isQuote q = true) (hd : digit d = true) : d ≠ q := by
  simp only [isQuote, decide_eq_true_eq, List.mem_cons, List.not_mem_nil, or_false] at hq
  rcases hq with rfl | rfl | rfl <;> exact digit_ne (by decide) hd

theorem mem_number {n front rest : List Char} (hn : Number n) {q : Char} (hq : isQuote q = true) :
    q ∈ front ++ (n ++ rest) ↔ q ∈ front ∨ q ∈ rest := by
  have hnot : q ∉ n := fun hmem => digit_not_quote hq (hn.2 q hmem) rfl
  rw [List.mem_append, List.mem_append]
  exact or_congr_right (or_iff_right hnot)

theorem unquoted_number (new : List Char) {n rest : List Char} (hn : ∀ c ∈ n, digit c = true) :
    unquoted new none (n ++ rest) = n ++ unquoted new none rest := by
  induction n with
  | nil => rfl
  | cons d n ih =>
    obtain ⟨hd, hn⟩ := List.forall_mem_cons.mp hn
    have hquote : ¬ (isQuote d = true ∧ d ∈ n ++ rest) := fun h => digit_not_quote h.1 hd rfl
    rw [List.cons_append, unquoted, if_neg hquote, ih hn, List.cons_append]

theorem unquoted_inside (new : List Char) {q : Char} (hq : isQuote q = true) {n rest : List Char}
    (hn : ∀ c ∈ n, digit c = true) : unquoted new (some q) (n ++ rest) = unquoted new (some q) rest := by
  induction n with
  | nil => rfl
  | cons d n ih =>
    obtain ⟨hd, hn⟩ := List.forall_mem_cons.mp hn
    rw [List.cons_append, unquoted, if_neg (digit_not_quote hq hd), ih hn]

/-- A number inside quotes goes with them. -/
theorem unquoted_swallows (new : List Char) {quote : Option Char} (hquote : ∀ q ∈ quote, isQuote q = true)
    {front rest : List Char} (h : inQuotes quote front rest = true) :
    ∃ text, ∀ n, Number n → unquoted new quote (front ++ (n ++ rest)) = text := by
  induction front generalizing quote with
  | nil =>
    cases quote with
    | none => cases h
    | some q => exact ⟨unquoted new (some q) rest, fun n hn => unquoted_inside new (hquote q rfl) hn.2⟩
  | cons c front ih =>
    cases quote with
    | some q =>
      by_cases hc : c = q
      · rw [inQuotes, if_pos hc] at h
        obtain ⟨text, htext⟩ := ih (fun _ hq => absurd hq (by simp)) h
        exact ⟨text, fun n hn => by rw [List.cons_append, unquoted, if_pos hc, htext n hn]⟩
      · rw [inQuotes, if_neg hc] at h
        obtain ⟨text, htext⟩ := ih hquote h
        exact ⟨text, fun n hn => by rw [List.cons_append, unquoted, if_neg hc, htext n hn]⟩
    | none =>
      by_cases hc : isQuote c = true ∧ (c ∈ front ∨ c ∈ rest)
      · rw [inQuotes, if_pos hc] at h
        obtain ⟨text, htext⟩ := ih (fun q hq => Option.some.inj hq ▸ hc.1) h
        refine ⟨new ++ text, fun n hn => ?_⟩
        rw [List.cons_append, unquoted, if_pos ⟨hc.1, (mem_number hn hc.1).mpr hc.2⟩, htext n hn]
      · rw [inQuotes, if_neg hc] at h
        obtain ⟨text, htext⟩ := ih (fun _ hq => absurd hq (by simp)) h
        refine ⟨c :: text, fun n hn => ?_⟩
        have hnot : ¬ (isQuote c = true ∧ c ∈ front ++ (n ++ rest)) :=
          fun hopen => hc ⟨hopen.1, (mem_number hn hopen.1).mp hopen.2⟩
        rw [List.cons_append, unquoted, if_neg hnot, htext n hn]

/-- A number outside of quotes stays where it is. -/
theorem unquoted_keeps (new : List Char) {quote : Option Char} (hquote : ∀ q ∈ quote, isQuote q = true)
    {front rest : List Char} (hfront : Before front) (h : inQuotes quote front rest = false) :
    ∃ front', Before front' ∧ (front' = [] → front = []) ∧
      ∀ n, Number n → unquoted new quote (front ++ (n ++ rest)) = front' ++ (n ++ unquoted new none rest) := by
  induction front generalizing quote with
  | nil =>
    cases quote with
    | none => exact ⟨[], hfront, fun _ => rfl, fun n hn => unquoted_number new hn.2⟩
    | some q => cases h
  | cons c front ih =>
    have hbefore := before_suffix hfront (List.suffix_cons c front)
    have hmore : isQuote c = true → front ≠ [] := by
      intro hc hnil
      subst hnil
      rw [hfront c rfl] at hc
      exact absurd hc (by decide)
    cases quote with
    | some q =>
      by_cases hc : c = q
      · rw [inQuotes, if_pos hc] at h
        obtain ⟨front', hb, hnil, htext⟩ := ih (fun _ hq => absurd hq (by simp)) hbefore h
        refine ⟨front', hb, fun heq => absurd (hnil heq) (hmore (hc ▸ hquote q rfl)), fun n hn => ?_⟩
        rw [List.cons_append, unquoted, if_pos hc, htext n hn]
      · rw [inQuotes, if_neg hc] at h
        obtain ⟨front', hb, hnil, htext⟩ := ih hquote hbefore h
        refine ⟨front', hb, fun heq => ?_, fun n hn => ?_⟩
        · rw [hnil heq] at h
          cases h
        · rw [List.cons_append, unquoted, if_neg hc, htext n hn]
    | none =>
      by_cases hc : isQuote c = true ∧ (c ∈ front ∨ c ∈ rest)
      · rw [inQuotes, if_pos hc] at h
        obtain ⟨front', hb, hnil, htext⟩ := ih (fun q hq => Option.some.inj hq ▸ hc.1) hbefore h
        have hne : front' ≠ [] := fun heq => hmore hc.1 (hnil heq)
        refine ⟨new ++ front', before_append hne hb, fun heq => ?_, fun n hn => ?_⟩
        · exact absurd (List.append_eq_nil_iff.mp heq).2 hne
        · rw [List.cons_append, unquoted, if_pos ⟨hc.1, (mem_number hn hc.1).mpr hc.2⟩, htext n hn, List.append_assoc]
      · rw [inQuotes, if_neg hc] at h
        obtain ⟨front', hb, hnil, htext⟩ := ih (fun _ hq => absurd hq (by simp)) hbefore h
        refine ⟨c :: front', ?_, fun heq => absurd heq (List.cons_ne_nil _ _), fun n hn => ?_⟩
        · by_cases hne : front' = []
          · rw [hne]
            rw [hnil hne] at hfront
            exact hfront
          · exact before_append (l := [c]) hne hb
        · have hnot : ¬ (isQuote c = true ∧ c ∈ front ++ (n ++ rest)) :=
            fun hopen => hc ⟨hopen.1, (mem_number hn hopen.1).mp hopen.2⟩
          rw [List.cons_append, unquoted, if_neg hnot, htext n hn, List.cons_append]

theorem unquoted_after (new : List Char) {rest : List Char} (h : After rest) : After (unquoted new none rest) := by
  rcases after_cases h with rfl | ⟨rest, rfl⟩
  · exact h
  · have hspace : ¬ (isQuote ' ' = true ∧ ' ' ∈ rest) := fun hopen => absurd hopen.1 (by decide)
    rw [unquoted, if_neg hspace]
    intro c hc
    exact (Option.some.inj hc).symm

theorem inQuotes_append {l front rest : List Char} (hl : ∀ c ∈ l, isQuote c = false) :
    inQuotes none (l ++ front) rest = inQuotes none front rest := by
  induction l with
  | nil => rfl
  | cons c l ih =>
    obtain ⟨hc, hl⟩ := List.forall_mem_cons.mp hl
    have hnot : ¬ (isQuote c = true ∧ (c ∈ l ++ front ∨ c ∈ rest)) := by simp [hc]
    rw [List.cons_append, inQuotes, if_neg hnot, ih hl]

/-! ### The whole line -/

/-- The times are cut off in front of the number. -/
theorem rewritten_times {front rest : List Char} (hfront : Before front) (hrest : After rest) :
    ∃ front', Before front' ∧ inQuotes none front rest = inQuotes none front' rest ∧ ∀ n, Number n →
      rewritten [(reTimestamp, ""), (reTimeOnly, "")] (front ++ (n ++ rest)) = front' ++ (n ++ rest) := by
  have hquotes : ∀ p ∈ [reTimestamp, reTimeOnly], ∀ c, p.takes c = true → isQuote c = false := by
    intro p hp c hc
    rw [← Bool.not_eq_true]
    intro hquote
    have hnone : ∀ p ∈ [reTimestamp, reTimeOnly], ∀ q ∈ ['"', '\'', '\x60'], p.takes q = false := by decide
    rw [hnone p hp c (of_decide_eq_true hquote)] at hc
    cases hc
  obtain ⟨l, front', rfl, hl, hstamp⟩ := replaceAll_time (p := reTimestamp) (fun _ _ _ => rfl)
    (fun n hn => leads_reTimestamp hn hrest) hfront
  have hfront' := before_suffix hfront (List.suffix_append l front')
  obtain ⟨l', front'', rfl, hl', htime⟩ := replaceAll_time (p := reTimeOnly) (fun _ _ _ => rfl)
    (fun n hn => leads_reTimeOnly hn hrest) hfront'
  refine ⟨front'', before_suffix hfront' (List.suffix_append l' front''), ?_, fun n hn => ?_⟩
  · rw [inQuotes_append fun c hc => hquotes reTimestamp (by simp) c (hl c hc),
      inQuotes_append fun c hc => hquotes reTimeOnly (by simp) c (hl' c hc)]
  · exact (congrArg (reTimeOnly.replaceAll · []) (hstamp n hn)).trans (htime n hn)

/-- A number that is no hash is replaced at last. -/
theorem rewritten_short {front rest : List Char} (hfront : Before front) (hrest : After rest) :
    ∃ text, ∀ n, Number n →
      rewritten [(reAddr, "<addr>"), (rePath, "<path>"), (reNum, "<num>")] (front ++ (n ++ rest)) = text := by
  obtain ⟨f1, r1, hf1, hr1, haddr⟩ := replaceAll_parts (p := reAddr) (by decide) "<addr>".toList hfront hrest
  obtain ⟨f2, r2, hf2, hr2, hpath⟩ := replaceAll_parts (p := rePath) (by decide) "<path>".toList hf1 hr1
  obtain ⟨f3, r3, -, -, hnum⟩ := replaceAll_parts (p := reNum) (by decide) "<num>".toList hf2 hr2
  refine ⟨f3 ++ ("<num>".toList ++ r3), fun n hn => ?_⟩
  simp only [rewritten, List.foldl_cons, List.foldl_nil, haddr n n (reAddr_puts hn _), hpath n n (rePath_puts hn _),
    hnum n _ (reNum_puts hn _)]

theorem rewritten_number {front rest n n' : List Char} (hfront : Before front) (hrest : After rest) (hn : Number n)
    (hn' : Number n') (h : (n.length < 12 ↔ n'.length < 12) ∨ inQuotes none front rest = true) :
    rewritten rewrites (front ++ (n ++ rest)) = rewritten rewrites (front ++ (n' ++ rest)) := by
  obtain ⟨f1, hf1, hquotes, htimes⟩ := rewritten_times hfront hrest
  have hrewrites : rewrites = [(reTimestamp, ""), (reTimeOnly, "")] ++ ([(reQuoted, "<str>")] ++
      ([(reUUID, "<uuid>"), (reHex, "<hex>")] ++ ([(reAddr, "<addr>"), (rePath, "<path>"), (reNum, "<num>")] ++
        [(reSpace, " ")]))) := rfl
  have hunquoted : ∀ text, rewritten [(reQuoted, "<str>")] text = unquoted "<str>".toList none text :=
    fun text => replaceFrom_reQuoted "<str>".toList none text
  simp only [hrewrites, rewritten_append, htimes n hn, htimes n' hn', hunquoted]
  cases hinside : inQuotes none f1 rest with
  | true =>
    obtain ⟨text, htext⟩ := unquoted_swallows "<str>".toList (fun _ hq => absurd hq (by simp)) hinside
    rw [htext n hn, htext n' hn']
  | false =>
    have hclass : n.length < 12 ↔ n'.length < 12 := by
      rcases h with h | h
      · exact h
      · rw [hquotes, hinside] at h
        cases h
    obtain ⟨f2, hf2, -, hkeeps⟩ :=
      unquoted_keeps "<str>".toList (fun _ hq => absurd hq (by simp)) hf1 hinside
    rw [hkeeps n hn, hkeeps n' hn']
    obtain ⟨f3, r3, hf3, hr3, huuid⟩ := replaceAll_parts (p := reUUID) (by decide) "<uuid>".toList hf2
      (unquoted_after "<str>".toList hrest)
    obtain ⟨f4, r4, hf4, hr4, hhex⟩ := replaceAll_parts (p := reHex) (by decide) "<hex>".toList hf3 hr3
    have hstages : ∀ m word, Number m → Puts reHex "<hex>".toList m word →
        rewritten [(reUUID, "<uuid>"), (reHex, "<hex>")] (f2 ++ (m ++ unquoted "<str>".toList none rest)) =
          f4 ++ (word ++ r4) := by
      intro m word hm hputs
      simp only [rewritten, List.foldl_cons, List.foldl_nil, huuid m m (reUUID_puts hm _), hhex m word hputs]
    by_cases hshort : n.length < 12
    · obtain ⟨text, htext⟩ := rewritten_short hf4 hr4
      rw [hstages n n hn (reHex_short hn hshort _), hstages n' n' hn' (reHex_short hn' (hclass.mp hshort) _),
        htext n hn, htext n' hn']
    · have hlong' : ¬ n'.length < 12 := fun hlt => hshort (hclass.mpr hlt)
      rw [hstages n _ hn (reHex_long hn (Nat.le_of_not_lt hshort) _),
        hstages n' _ hn' (reHex_long hn' (Nat.le_of_not_lt hlong') _)]

/-- **Two lines that differ in a number between spaces share a normal form and a signature, where
the numbers are both of less than twelve digits or neither, or stand in quoted text.** -/
theorem Normalize_number (lib : Library) {front n n' rest : String} (hfront : Before front.toList)
    (hrest : After rest.toList) (hn : Number n.toList) (hn' : Number n'.toList)
    (h : (n.toList.length < 12 ↔ n'.toList.length < 12) ∨ inQuotes none front.toList rest.toList = true) :
    Normalize lib (front ++ n ++ rest) = Normalize lib (front ++ n' ++ rest) ∧
      Signature lib (front ++ n ++ rest) = Signature lib (front ++ n' ++ rest) := by
  have hnormal : Normalize lib (front ++ n ++ rest) = Normalize lib (front ++ n' ++ rest) := by
    simp only [Normalize_eq, String.toList_append, List.append_assoc, rewritten_number hfront hrest hn hn' h]
  exact ⟨hnormal, by rw [Signature, Signature, hnormal]⟩

theorem Normalize_number_seconds :
    Normalize asciiLibrary ("retry in " ++ "5" ++ " s") = Normalize asciiLibrary ("retry in " ++ "42" ++ " s") ∧
      Signature asciiLibrary ("retry in " ++ "5" ++ " s") = Signature asciiLibrary ("retry in " ++ "42" ++ " s") :=
  Normalize_number asciiLibrary (by decide : Before "retry in ".toList) (by decide : After " s".toList)
    (by decide : Number "5".toList) (by decide : Number "42".toList) (by decide)

/-- An account number of twelve digits is taken for a hash. -/
theorem Normalize_account :
    Normalize asciiLibrary "no account 7" ≠ Normalize asciiLibrary "no account 123456789012" := by
  decide +kernel

end Marshal.Errsig
