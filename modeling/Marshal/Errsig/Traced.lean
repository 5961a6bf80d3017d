import Marshal.Errsig.Leftover
import Marshal.Lib.Trim
import Mathlib.Data.List.Chain

/-! Where the pieces that are left come from.

A piece that is left stood in the line. Only a hash may stand alone now and not have done so
then, and only where a hexadecimal number or a path followed it closely (`hash_traced`). -/
namespace Marshal.Errsig
open Regex Pat

/-! ### Behind a hash -/

/-- Twelve hexadecimal digits or more, and a hexadecimal number right behind them. -/
def BeforeHexNumber (text : List Char) : Prop :=
  ∃ run h, 12 ≤ run.length ∧ (∀ c ∈ run, hexDigit c = true) ∧ hexDigit h = true ∧ run ++ ['0', 'x', h] <:+: text

theorem first_text (s : String) {p : Place} {rest : List Char} (h : p.ahead = s.toList ++ rest) :
    (Pat.text s).first p = some (p.after s.toList rest) := by
  rw [Pat.text]
  generalize s.toList = l at h
  induction l generalizing p with
  | nil =>
    rw [List.nil_append] at h
    rw [after_nil h]
    rfl
  | cons c l ih =>
    have hmore := ih (p := p.after [c] (l ++ rest)) rfl
    rw [after_cons] at hmore
    exact first_seq (first_one (· == c) h (beq_self_eq_true c)) hmore

/-- A match of the first kind goes on as far as there are hexadecimal digits. -/
theorem hexNumber_greedy {s t : Place} (ht : t ∈ (all [text "0x", plus (.one hexDigit)]).ends s) :
    ∃ h l rest, hexDigit h = true ∧ s.ahead = ['0', 'x', h] ++ (l ++ rest) ∧ rest.head?.any hexDigit = false ∧
      ∃ u, (all [text "0x", plus (.one hexDigit)]).first s = some u ∧ u.ahead = rest := by
  obtain ⟨u, hu, ht⟩ := mem_all_cons.mp ht
  obtain ⟨v, hv, -⟩ := mem_all_cons.mp ht
  obtain ⟨zero, hzero, after, hahead, rfl⟩ := (mem_ends_plain (by decide)).mp hu
  rw [mem_language_text.mp hzero] at hahead hv
  obtain ⟨l, rest, hne, hl, hhex, hrest, hfirst⟩ := first_plus_greedy hv
  have htext := first_text "0x" hahead
  cases l with
  | nil => exact absurd rfl hne
  | cons h l =>
    refine ⟨h, l, rest, hhex h List.mem_cons_self, ?_, hrest, _, first_seq htext (first_seq hfirst (q := .empty) rfl),
      rfl⟩
    replace hl : after = h :: l ++ rest := hl
    rw [hahead, hl]
    rfl

theorem bounded_run : Bounded (all [.boundary, hexDigits 12, .star (.one hexDigit), .boundary]) :=
  bounded_boundary [hexDigits 12, .star (.one hexDigit)]

theorem reHex_end {behind : Option Char} {text : List Char} {t : Place} (h : reHex.first ⟨behind, text, []⟩ = some t) :
    t.ahead.head?.any hexDigit = false := by
  by_cases hends : (all [Pat.text "0x", plus (.one hexDigit)]).ends ⟨behind, text, []⟩ = []
  · have hrun : t ∈ (all [.boundary, hexDigits 12, .star (.one hexDigit), .boundary]).ends ⟨behind, text, []⟩ := by
      refine mem_of_first ?_
      rw [← h]
      exact (first_or_right hends).symm
    rw [← Bool.not_eq_true]
    intro hhead
    obtain ⟨c, hc, hhex⟩ := (Option.any_eq_true _ _).mp hhead
    have hword : t.ahead.head?.any word = true := (Option.any_eq_true _ _).mpr ⟨c, hc, hexDigit_word hhex⟩
    have hbehind := bounded_run.finish _ t hrun hword
    obtain ⟨l, hl, hlc, hlast⟩ := ends_taken _ _ t hrun
    have hshort := length_lt_of_consumes (by decide) t hrun
    have hne : l ≠ [] := by
      intro hnil
      rw [hl, hnil, List.nil_append] at hshort
      exact Nat.lt_irrefl _ hshort
    have htaken : ∀ c ∈ l, word c = true := by
      intro c hc
      have htakes := hlc c hc
      simp only [hexDigits, times, List.replicate, all, List.foldr, takes, Bool.or_false, Bool.or_self, Bool.false_or]
        at htakes
      exact hexDigit_word htakes
    rw [hlast, last_any hne htaken] at hbehind
    cases hbehind
  · obtain ⟨u, hu⟩ := List.exists_mem_of_ne_nil _ hends
    obtain ⟨-, -, rest, -, -, hrest, v, hv, hahead⟩ := hexNumber_greedy hu
    have hfirst := (first_or_left hv).symm.trans h
    rw [← Option.some.inj hfirst, hahead]
    exact hrest

theorem hash_reHex (text : List Char) (h : HasHash word (reHex.replaceAll text "<hex>".toList)) :
    BeforeHexNumber text := by
  obtain ⟨front, run, rest, hout, hlength, hrun, hfront, hrest⟩ := h
  have hnew : "<hex>" ∈ placeholders := by decide
  have hne : run ≠ [] := fun hnil => absurd hlength (by rw [hnil]; decide)
  obtain ⟨front', rest', rfl, hstood⟩ :=
    replaceAll_split (by decide) hout (mark_ends hnew).1 hne (apart_hash hnew hlength hrun)
  have hunmatched := hstood.unmatched
  rw [Option.or_none] at hunmatched
  have hleft : front'.getLast?.any word = false := by
    rcases hstood.left with hsame | ⟨before, l, t, rfl, hl, hfirst, ht⟩
    · rw [Option.or_none, Option.or_none] at hsame
      rw [hsame]
      exact hfront
    · have hend := reHex_end hfirst
      rw [ht, head_any hne hrun rest'] at hend
      cases hend
  rcases hstood.right with hsame | ⟨-, hends⟩
  · exact absurd hunmatched (hash_ends hlength hrun hleft (hsame ▸ hrest))
  · obtain ⟨t, ht⟩ := List.exists_mem_of_ne_nil _ hends
    rcases List.mem_append.mp ht with ht | ht
    · obtain ⟨h, l, more, hh, hahead, -⟩ := hexNumber_greedy ht
      replace hahead : rest' = ['0', 'x', h] ++ (l ++ more) := hahead
      exact ⟨run, h, hlength, hrun, hh, front', l ++ more, by simp [hahead]⟩
    · have hlast := last_any hne (fun c hc => hexDigit_word (hrun c hc)) none
      rw [Option.or_none] at hlast
      have hnone := bounded_run.start _ (List.ne_nil_of_mem ht) hlast
      exact absurd hunmatched (hash_ends hlength hrun hleft hnone)

/-! ### Before a path -/

/-- The piece stands before a character that a path can have. -/
def HeadsPath (piece text : List Char) : Prop :=
  ∃ front rest, text = front ++ (piece ++ rest) ∧ rest.head?.any pathWord = true

/-- Twelve hexadecimal digits or more, and a drive and its path right behind them. -/
def BeforePath (text : List Char) : Prop :=
  ∃ run c, 12 ≤ run.length ∧ (∀ c ∈ run, hexDigit c = true) ∧ letter c = true ∧ hexDigit c = false ∧
    HeadsPath (run ++ [c, ':', '\\']) text

theorem hasPath_iff {text : List Char} : HasPath text ↔ ∃ root, Root root ∧ HeadsPath root text := by
  constructor
  · intro h
    obtain ⟨front, root, rest, htext, hroot, hrest⟩ := h
    exact ⟨root, hroot, front, rest, htext, hrest⟩
  · intro h
    obtain ⟨root, hroot, front, rest, htext, hrest⟩ := h
    exact ⟨front, root, rest, htext, hroot, hrest⟩

theorem word_pathWord {c : Char} (h : word c = true) : pathWord c = true := by
  rw [pathWord, Bool.not_eq_true', Bool.or_eq_false_iff]
  constructor
  · rw [← Bool.not_eq_true]
    intro hspace
    rw [space_not_word hspace] at h
    cases h
  · refine beq_eq_false_iff_ne.mpr fun heq => ?_
    rw [heq] at h
    exact absurd h (by decide)

/-- A match ends where no path goes on, or after a port. -/
theorem rePath_end {behind : Option Char} {text : List Char} {t : Place} (h : rePath.first ⟨behind, text, []⟩ = some t) :
    t.ahead.head?.any pathWord = false ∨ ∃ l n, text = l ++ ':' :: (n ++ t.ahead) ∧ Number n := by
  obtain ⟨u, hu, h⟩ := first_seq_some h
  obtain ⟨root, hroot, -, -⟩ := ends_taken _ _ u hu
  obtain ⟨v, hv, -⟩ := first_seq_some h
  obtain ⟨body, rest, -, hbody, -, hrest, hgreedy⟩ := first_plus_greedy hv
  replace hroot : text = root ++ u.ahead := hroot
  by_cases hport : (all [char ':', digits]).ends (u.after body rest) = []
  · have hend := first_seq hgreedy (first_seq (first_opt hport) (q := .empty) rfl)
    rw [← Option.some.inj (hend.symm.trans h)]
    exact .inl hrest
  · obtain ⟨w, hw⟩ := List.exists_mem_of_ne_nil _ hport
    obtain ⟨x, hx, hw⟩ := mem_all_cons.mp hw
    obtain ⟨y, hy, -⟩ := mem_all_cons.mp hw
    obtain ⟨colon, hcolon, after, hahead, rfl⟩ := mem_one.mp hx
    rw [mem_language_char.mp hcolon] at hahead hy
    obtain ⟨n, rest', hn, hdigits, hall, -, hfirst⟩ := first_plus_greedy hy
    replace hdigits : after = n ++ rest' := hdigits
    replace hahead : rest = ':' :: after := hahead
    have hcolon := first_one (· == ':') (s := u.after body rest) hahead (beq_self_eq_true ':')
    have hfirstport : port.first (u.after body rest) = some _ :=
      first_or_left (first_seq hcolon (first_seq hfirst (q := .empty) rfl))
    have hend := first_seq hgreedy (first_seq hfirstport (q := .empty) rfl)
    rw [← Option.some.inj (hend.symm.trans h)]
    refine .inr ⟨root ++ body, n, ?_, hn, hall⟩
    rw [hroot, hbody, hahead, hdigits, List.append_assoc]
    rfl

theorem hash_rePath (text : List Char) (h : HasHash word (rePath.replaceAll text "<path>".toList)) :
    HasHash word text ∨ BeforePath text := by
  obtain ⟨front, run, rest, hout, hlength, hrun, hfront, hrest⟩ := h
  have hnew : "<path>" ∈ placeholders := by decide
  have hne : run ≠ [] := fun hnil => absurd hlength (by rw [hnil]; decide)
  obtain ⟨front', rest', rfl, hstood⟩ :=
    replaceAll_split (by decide) hout (mark_ends hnew).1 hne (apart_hash hnew hlength hrun)
  -- The digits of a port in front of the hash are part of it.
  obtain ⟨front'', n, rfl, hn, hleft⟩ : ∃ front'' n, front' = front'' ++ n ∧ (∀ c ∈ n, hexDigit c = true) ∧
      front''.getLast?.any word = false := by
    rcases hstood.left with hsame | ⟨before, l, t, rfl, hl, hfirst, ht⟩
    · rw [Option.or_none, Option.or_none] at hsame
      refine ⟨front', [], (List.append_nil _).symm, fun c hc => absurd hc List.not_mem_nil, ?_⟩
      rw [hsame]
      exact hfront
    · rcases rePath_end hfirst with hend | ⟨l', n, htext, hn⟩
      · rw [ht, head_any hne (fun c hc => word_pathWord (hexDigit_word (hrun c hc))) rest'] at hend
        cases hend
      · have hcut : l ++ (run ++ rest') = (l' ++ ':' :: n) ++ (run ++ rest') := by
          rw [htext, ht, List.append_assoc, List.cons_append]
        rw [List.append_cancel_right hcut]
        refine ⟨before ++ (l' ++ [':']), n, by simp, fun c hc => digit_hexDigit (hn.2 c hc), ?_⟩
        rw [← List.append_assoc, List.getLast?_concat]
        rfl
  have hall : ∀ c ∈ n ++ run, hexDigit c = true := List.forall_mem_append.mpr ⟨hn, hrun⟩
  have hlong : 12 ≤ (n ++ run).length := by
    rw [List.length_append]
    omega
  have hkept : rest'.head?.any word = false → HasHash word (front'' ++ n ++ (run ++ rest')) :=
    fun hrest' => ⟨front'', n ++ run, rest', by simp, hlong, hall, hleft, hrest'⟩
  rcases hstood.right with hsame | ⟨-, hends⟩
  · exact .inl (hkept (hsame ▸ hrest))
  · obtain ⟨t, ht⟩ := List.exists_mem_of_ne_nil _ hends
    obtain ⟨root, rest₁, rfl, hroot | rfl, hpath⟩ := rePath_root ht
    · cases hroot with
      | slash => exact .inl (hkept rfl)
      | @drive c hc =>
        cases hhex : hexDigit c with
        | true =>
          refine .inl ⟨front'', n ++ run ++ [c], ':' :: '\\' :: rest₁, by simp, ?_, ?_, hleft, rfl⟩
          · rw [List.length_append]
            exact Nat.le_trans hlong (Nat.le_add_right _ _)
          · refine List.forall_mem_append.mpr ⟨hall, fun d hd => ?_⟩
            rw [List.mem_singleton.mp hd]
            exact hhex
        | false => exact .inr ⟨run, c, hlength, hrun, hc, hhex, front'' ++ n, rest₁, by simp, hpath⟩
    · exact .inl (hkept rfl)

/-! ### Paths -/

theorem root_ends {root rest : List Char} (hroot : Root root) (hrest : rest.head?.any pathWord = true)
    (behind : Option Char) : rePath.ends ⟨behind, root ++ rest, []⟩ ≠ [] := by
  obtain ⟨c, hc, hword⟩ := (Option.any_eq_true _ _).mp hrest
  obtain ⟨more, rfl⟩ := List.head?_eq_some_iff.mp hc
  refine List.ne_nil_of_mem (a := ⟨[c].getLast?.or (root.getLast?.or behind), more, []⟩) ?_
  refine (mem_all_plain (by decide)).mpr ⟨root, mem_language_any.mpr ?_, c :: more, rfl, ?_⟩
  · cases hroot with
    | slash => exact ⟨char '/', by simp, mem_language_char.mpr rfl⟩
    | @drive d hd =>
      refine ⟨all [.one letter, Pat.text ":\\"], List.mem_cons_self, ?_⟩
      refine mem_language_seq_one.mpr ⟨d, [':', '\\'], rfl, hd, ?_⟩
      exact Language.mem_mul.mpr ⟨[':', '\\'], mem_language_text.mpr (by decide), [], Language.nil_mem_one, rfl⟩
  refine (mem_all_plain (by decide)).mpr
    ⟨[c], mem_language_plus.mpr ⟨List.cons_ne_nil c [], fun d hd => ?_⟩, more, rfl, ?_⟩
  · rw [List.mem_singleton.mp hd]
    exact hword
  exact (mem_all_plain (by decide)).mpr ⟨[], .inr Language.nil_mem_one, more, rfl, List.mem_singleton.mpr rfl⟩

theorem apart_rooted {new : String} (hnew : new ∈ placeholders) {piece : List Char}
    (hpiece : ∀ c ∈ piece, isMark c = false) (hsep : '/' ∈ piece ∨ ':' ∈ piece) : Apart piece new.toList := by
  have hnone : ∀ new ∈ placeholders, '/' ∉ new.toList ∧ ':' ∉ new.toList := by decide
  refine apart_placeholder hnew hpiece fun hpart => ?_
  rcases hsep with hslash | hcolon
  · exact (hnone new hnew).1 (hpart.subset hslash)
  · exact (hnone new hnew).2 (hpart.subset hcolon)

theorem apart_root {new : String} (hnew : new ∈ placeholders) {root : List Char} (hroot : Root root) :
    root ≠ [] ∧ Apart root new.toList := by
  cases hroot with
  | slash => exact ⟨List.cons_ne_nil _ _, apart_rooted hnew (by decide) (.inl List.mem_cons_self)⟩
  | @drive c hc =>
    refine ⟨List.cons_ne_nil _ _, apart_rooted hnew (fun d hd => ?_) (.inr (by simp))⟩
    simp only [List.mem_cons, List.not_mem_nil, or_false] at hd
    rcases hd with rfl | rfl | rfl
    · exact word_not_mark (by simp [word, hc])
    · rfl
    · rfl

/-! ### Back through the rewrites -/

/-- A match begins like a path, or its replacement does not. -/
def Unpathed (r : Pat × String) : Prop :=
  (∀ c, r.1.begins c = true → pathWord c = true) ∨ r.2.toList.head?.any pathWord = false

theorem unpathed_hex {r : Pat × String} (h : ∀ c, r.1.begins c = true → hexDigit c = true) : Unpathed r :=
  .inl fun c hc => word_pathWord (hexDigit_word (h c hc))

theorem unpathed_rewrites : ∀ r ∈ rewrites.drop 2, Unpathed r := by
  have hzero : "0x".toList = ['0', 'x'] := by decide
  have hdot : "./".toList = ['.', '/'] := by decide
  refine List.forall_mem_cons.mpr ⟨.inl fun c hc => ?_, List.forall_mem_cons.mpr ⟨unpathed_hex fun c hc => ?_,
    List.forall_mem_cons.mpr ⟨unpathed_hex fun c hc => ?_, List.forall_mem_cons.mpr ⟨unpathed_hex fun c hc => ?_,
      List.forall_mem_cons.mpr ⟨.inl fun c hc => ?_, List.forall_mem_cons.mpr ⟨unpathed_hex fun c hc => ?_,
        List.forall_mem_singleton.mpr (.inr (by decide))⟩⟩⟩⟩⟩⟩
  · simp [reQuoted, quoted, any, all, char, begins, consumes] at hc
    rcases hc with rfl | rfl | rfl <;> rfl
  · simpa [reUUID, all, char, begins, consumes, hexDigits, times, List.replicate] using hc
  · simp [reHex, any, all, char, begins, consumes, hexDigits, times, List.replicate, Pat.text, hzero, plus] at hc
    rcases hc with rfl | hc
    · rfl
    · exact hc
  · simp [reAddr, all, char, begins, consumes, octet] at hc
    exact digit_hexDigit hc
  · simp [rePath, any, all, char, begins, consumes, Pat.text, hdot] at hc
    rcases hc with hc | rfl | rfl
    · exact word_pathWord (by simp [word, hc])
    · rfl
    · rfl
  · simp [reNum, all, begins, consumes, digits, plus] at hc
    exact digit_hexDigit hc

theorem started {p : Pat} (h : ∀ c text groups, p.ends ⟨some c, text, groups⟩ = []) (text : List Char) :
    p.replaceAll text "".toList <:+ text := by
  have hnil : "".toList = [] := rfl
  rw [hnil, replaceAll_start h]
  exact List.drop_suffix _ _

/-- A rewrite cuts off the start, or puts placeholders. -/
theorem rewrites_cases {r : Pat × String} (hr : r ∈ rewrites) : (∀ text, r.1.replaceAll text r.2.toList <:+ text) ∨
    r.1.consumes = true ∧ r.2 ∈ placeholders ∧ Unpathed r := by
  have hplacing : ∀ r ∈ rewrites.drop 2, r.1.consumes = true ∧ r.2 ∈ placeholders := by decide
  rw [← List.take_append_drop 2 rewrites] at hr
  rcases List.mem_append.mp hr with hr | hr
  · left
    simp only [rewrites, List.take, List.mem_cons, List.not_mem_nil, or_false] at hr
    rcases hr with rfl | rfl
    · exact started fun _ _ _ => rfl
    · exact started fun _ _ _ => rfl
  · exact .inr ⟨(hplacing r hr).1, (hplacing r hr).2, unpathed_rewrites r hr⟩

section Rewritten
variable (rs : List (Pat × String)) {piece text : List Char}

theorem infix_rewritten (hrs : rs ⊆ rewrites) (hapart : ∀ new ∈ placeholders, Apart piece new.toList)
    (h : piece <:+: rewritten rs text) : piece <:+: text := by
  induction rs generalizing text with
  | nil => exact h
  | cons r rs ih =>
    obtain ⟨hr, hrs⟩ := List.cons_subset.mp hrs
    have hone : piece <:+: r.1.replaceAll text r.2.toList := ih hrs h
    rcases rewrites_cases hr with hcut | ⟨hconsumes, hnew, -⟩
    · exact hone.trans (hcut text).isInfix
    · exact replaceAll_infix hconsumes (mark_ends hnew).1 (hapart r.2 hnew) hone

theorem headsPath_append {front : List Char} (h : HeadsPath piece text) : HeadsPath piece (front ++ text) := by
  obtain ⟨front', rest, rfl, hrest⟩ := h
  exact ⟨front ++ front', rest, (List.append_assoc _ _ _).symm, hrest⟩

theorem headsPath_rewritten (hrs : rs ⊆ rewrites) (hpiece : piece ≠ [])
    (hapart : ∀ new ∈ placeholders, Apart piece new.toList) (h : HeadsPath piece (rewritten rs text)) :
    HeadsPath piece text := by
  induction rs generalizing text with
  | nil => exact h
  | cons r rs ih =>
    obtain ⟨hr, hrs⟩ := List.cons_subset.mp hrs
    have hone : HeadsPath piece (r.1.replaceAll text r.2.toList) := ih hrs h
    rcases rewrites_cases hr with hcut | ⟨hconsumes, hnew, hpath⟩
    · obtain ⟨front, hfront⟩ := hcut text
      rw [← hfront]
      exact headsPath_append hone
    · obtain ⟨front, rest, hout, hrest⟩ := hone
      obtain ⟨front', rest', htext, hrest', -⟩ :=
        replaceAll_before hconsumes (mark_ends hnew).1 hpath hpiece (hapart r.2 hnew) hout hrest
      exact ⟨front', rest', htext, hrest'⟩

theorem count_rewritten (hrs : rs ⊆ rewrites) {q : Char} (hq : isQuote q = true) (h : text.count q ≤ 1) :
    (rewritten rs text).count q ≤ 1 := by
  induction rs generalizing text with
  | nil => exact h
  | cons r rs ih =>
    obtain ⟨hr, hrs⟩ := List.cons_subset.mp hrs
    refine ih hrs ?_
    rcases rewrites_cases hr with hcut | ⟨hconsumes, hnew, -⟩
    · exact Nat.le_trans ((hcut text).sublist.count_le q) h
    · exact count_kept hconsumes hnew hq h

end Rewritten

/-! ### Spaces -/

theorem space_ends {c : Char} (hc : space c = true) (behind : Option Char) (rest : List Char) :
    reSpace.ends ⟨behind, c :: rest, []⟩ ≠ [] := by
  have hone : [c] ∈ reSpace.language :=
    mem_language_plus.mpr ⟨List.cons_ne_nil c [], List.forall_mem_singleton.mpr hc⟩
  exact List.ne_nil_of_mem ((mem_ends_plain rfl).mpr ⟨[c], hone, rest, rfl, rfl⟩)

theorem reSpace_end {behind : Option Char} {text : List Char} {t : Place}
    (h : reSpace.first ⟨behind, text, []⟩ = some t) : t.ahead.head?.any space = false := by
  obtain ⟨l, rest, -, -, -, hrest, hfirst⟩ := first_plus_greedy (mem_of_first h)
  rw [← Option.some.inj (hfirst.symm.trans h)]
  exact hrest

theorem singleSpaces_replaced {behind : Option Char} {text out : List Char}
    (h : Replaced reSpace [' '] behind text out) :
    SingleSpaces out ∧ (text.head?.any space = false → out.head?.any space = false) := by
  induction h with
  | nil => exact ⟨⟨fun c hc => absurd hc List.not_mem_nil, .nil⟩, id⟩
  | @keep behind c rest out hends _ ih =>
    have hc : space c = false := by
      rw [← Bool.not_eq_true]
      exact fun hspace => space_ends hspace behind rest hends
    refine ⟨⟨List.forall_mem_cons.mpr ⟨fun hspace => ?_, ih.1.1⟩, ?_⟩, fun _ => hc⟩
    · rw [hc] at hspace
      cases hspace
    · exact List.isChain_cons.mpr ⟨fun d _ => .inl hc, ih.1.2⟩
  | @swap behind l rest out t hl hfirst ht _ ih =>
    have hend := reSpace_end hfirst
    rw [ht] at hend
    refine ⟨⟨List.forall_mem_cons.mpr ⟨fun _ => rfl, ih.1.1⟩, ?_⟩, fun hhead => ?_⟩
    · refine List.isChain_cons.mpr ⟨fun d hd => .inr ?_, ih.1.2⟩
      have hnext := ih.2 hend
      rw [show out.head? = some d from hd] at hnext
      exact hnext
    · have hbegins := head_of_ends (p := reSpace) rfl (List.ne_nil_of_mem (mem_of_first hfirst))
      have hspace : (l ++ rest).head?.any space = true := by
        simpa [reSpace, plus, begins, consumes] using hbegins
      rw [hspace] at hhead
      cases hhead

/-! ### What is left -/

/-- Nothing is left to replace, but for hashes. -/
structure Left (text : List Char) : Prop where
  quotes : ∀ q, isQuote q = true → text.count q ≤ 1
  hexNumber : ¬ HasHexNumber text
  path : ¬ HasPath text
  number : ¬ HasNumber text
  spaces : SingleSpaces text

theorem Left.settled {text : List Char} (h : Left text) (hhash : ¬ HasHash word text) : Settled text where
  quotes := h.quotes
  hexNumber := h.hexNumber
  hash := hhash
  path := h.path
  number := h.number
  spaces := h.spaces

theorem left_rewritten (s : List Char) : Left (rewritten rewrites s) where
  quotes q hq := by
    have hcount := count_reQuoted hq (rewritten (rewrites.take 2) s)
    exact count_rewritten (rewrites.drop 3) (List.drop_subset 3 rewrites) hq hcount
  hexNumber h := by
    obtain ⟨d, hd, hpart⟩ := h
    refine hexNumber_reHex (rewritten (rewrites.take 4) s) ⟨d, hd, ?_⟩
    exact infix_rewritten (rewrites.drop 5) (List.drop_subset 5 rewrites)
      (fun new hnew => apart_hexNumber hnew hd) hpart
  path h := by
    obtain ⟨root, hroot, h⟩ := hasPath_iff.mp h
    have hne : root ≠ [] := by cases hroot <;> exact List.cons_ne_nil _ _
    have hleft := headsPath_rewritten (rewrites.drop 7) (List.drop_subset 7 rewrites) hne
      (fun new hnew => (apart_root hnew hroot).2) h
    obtain ⟨front, rest, hout, hrest⟩ := hleft
    have hnew : "<path>" ∈ placeholders := by decide
    obtain ⟨front', rest', -, hrest', hunmatched⟩ :=
      replaceAll_before (by decide) (mark_ends hnew).1 (unpathed_rewrites (rePath, "<path>") (by simp [rewrites])) hne
        (apart_root hnew hroot).2 hout hrest
    exact root_ends hroot hrest' _ hunmatched
  number h := by
    obtain ⟨front, n, u, rest, htext, hn, hu, hfront, hend, -⟩ :=
      hasNumber_bounded bounded_reSpace (by decide) (show " " ∈ placeholders by decide) h
    exact number_reNum (rewritten (rewrites.take 7) s) ⟨front, n, u, rest, htext, hn, hu, hfront, hend⟩
  spaces := (singleSpaces_replaced (replaced (p := reSpace) rfl " ".toList none (rewritten (rewrites.take 8) s))).1

theorem apart_run {new : String} (hnew : new ∈ placeholders) {run : List Char} (hrun : ∀ c ∈ run, hexDigit c = true)
    {h : Char} (hh : hexDigit h = true) : Apart (run ++ ['0', 'x', h]) new.toList := by
  refine apart_placeholder hnew (List.forall_mem_append.mpr ⟨fun c hc => word_not_mark (hexDigit_word (hrun c hc)), ?_⟩)
    fun hpart => ?_
  · exact List.forall_mem_cons.mpr ⟨rfl, List.forall_mem_cons.mpr ⟨rfl,
      List.forall_mem_singleton.mpr (word_not_mark (hexDigit_word hh))⟩⟩
  · exact absurd (no_digit hnew '0' (hpart.subset (by simp))) (by decide)

theorem apart_drive (run : List Char) {new : String} (hnew : new ∈ placeholders) (hrun : ∀ c ∈ run, isMark c = false)
    {c : Char} (hc : isMark c = false) : Apart (run ++ [c, ':', '\\']) new.toList := by
  refine apart_rooted hnew (List.forall_mem_append.mpr ⟨hrun, ?_⟩) (.inr (by simp))
  exact List.forall_mem_cons.mpr ⟨hc, List.forall_mem_cons.mpr ⟨rfl, List.forall_mem_singleton.mpr rfl⟩⟩

/-- A hash that is left: what followed it has been replaced. -/
theorem hash_rewritten {s : List Char} (h : HasHash word (rewritten rewrites s)) : BeforeHexNumber s ∨ BeforePath s := by
  have hunspaced : HasHash word (rewritten (rewrites.take 8) s) :=
    hasHash_bounded bounded_reSpace (by decide) (show " " ∈ placeholders by decide) h
  have hnumbers : HasHash word (rewritten (rewrites.take 7) s) :=
    hasHash_bounded bounded_reNum (by decide) (show "<num>" ∈ placeholders by decide) hunspaced
  rcases hash_rePath (rewritten (rewrites.take 6) s) hnumbers with hpaths | hpath
  · have haddrs : HasHash word (rewritten (rewrites.take 5) s) :=
      hasHash_bounded bounded_reAddr (by decide) (show "<addr>" ∈ placeholders by decide) hpaths
    obtain ⟨run, d, hlength, hrun, hd, hpart⟩ := hash_reHex (rewritten (rewrites.take 4) s) haddrs
    exact .inl ⟨run, d, hlength, hrun, hd, infix_rewritten (rewrites.take 4) (List.take_subset 4 rewrites)
      (fun new hnew => apart_run hnew hrun hd) hpart⟩
  · obtain ⟨run, c, hlength, hrun, hc, hhex, hleads⟩ := hpath
    have hmarks : ∀ d ∈ run, isMark d = false := fun d hd => word_not_mark (hexDigit_word (hrun d hd))
    exact .inr ⟨run, c, hlength, hrun, hc, hhex, headsPath_rewritten (rewrites.take 6)
      (List.take_subset 6 rewrites) (by simp) (fun new hnew => apart_drive run hnew hmarks (word_not_mark (by simp [word, hc])))
      hleads⟩

/-! ### Trimmed -/

theorem blank_not_word {c : Char} (h : unicodeSpace c = true) : word c = false := by
  rw [← Bool.not_eq_true]
  intro hword
  rw [unicodeSpace, Bool.or_eq_true] at h
  rcases h with hmem | hrange
  · have hnone : ∀ c ∈ ['\t', '\n', '\x0b', '\x0c', '\r', ' ', '\u0085', '\u00a0', '\u1680', '\u2028', '\u2029', '\u202f',
        '\u205f', '\u3000'], word c = false := by decide
    rw [hnone c (of_decide_eq_true hmem)] at hword
    cases hword
  · have hlow := (of_decide_eq_true hrange).1
    simp only [word, letter, digit, Bool.or_eq_true, decide_eq_true_eq, beq_iff_eq, Char.le_def,
      UInt32.le_iff_toNat_le] at hword hlow
    have hbounds : 'z'.val.toNat = 122 ∧ 'Z'.val.toNat = 90 ∧ '9'.val.toNat = 57 ∧ '\u2000'.val.toNat = 8192 := by decide
    rcases hword with hword | rfl
    · omega
    · exact absurd hlow (by decide)

section Trimmed
variable {front mid back : List Char}

theorem last_outer (hfront : ∀ c ∈ front, unicodeSpace c = true) {l : List Char} (h : l.getLast?.any word = false) :
    (front ++ l).getLast?.any word = false := by
  rw [List.getLast?_append]
  cases hlast : l.getLast? with
  | none =>
    have hnone := last_none (fun c hc => blank_not_word (hfront c hc)) none rfl
    rw [Option.or_none] at hnone
    exact hnone
  | some c =>
    rw [hlast] at h
    exact h

theorem head_outer (hback : ∀ c ∈ back, unicodeSpace c = true) (l : List Char) :
    (l ++ back).head?.any word = l.head?.any word := by
  cases l with
  | cons c l => rfl
  | nil =>
    cases back with
    | nil => rfl
    | cons c back => exact blank_not_word (hback c List.mem_cons_self)

theorem hasHash_outer (hfront : ∀ c ∈ front, unicodeSpace c = true) (hback : ∀ c ∈ back, unicodeSpace c = true)
    (h : HasHash word mid) : HasHash word (front ++ mid ++ back) := by
  obtain ⟨front', run, rest, rfl, hlength, hrun, hleft, hright⟩ := h
  refine ⟨front ++ front', run, rest ++ back, by simp, hlength, hrun, last_outer hfront hleft, ?_⟩
  rw [head_outer hback]
  exact hright

theorem hasNumber_outer (hfront : ∀ c ∈ front, unicodeSpace c = true) (hback : ∀ c ∈ back, unicodeSpace c = true)
    (h : HasNumber mid) : HasNumber (front ++ mid ++ back) := by
  obtain ⟨front', n, u, rest, rfl, hn, hu, hleft, hend⟩ := h
  refine ⟨front ++ front', n, u, rest ++ back, by simp, hn, hu, last_outer hfront hleft, ?_⟩
  rw [head_outer hback]
  exact hend

theorem headsPath_outer {piece : List Char} (h : HeadsPath piece mid) : HeadsPath piece (front ++ mid ++ back) := by
  obtain ⟨front', rest, rfl, hrest⟩ := h
  refine ⟨front ++ front', rest ++ back, by simp, ?_⟩
  cases rest with
  | nil => cases hrest
  | cons c rest => exact hrest

end Trimmed

theorem trimSpace_parts (text : List Char) : ∃ front back, (∀ c ∈ front, unicodeSpace c = true) ∧
    (∀ c ∈ back, unicodeSpace c = true) ∧ text = front ++ trimSpace text ++ back := Trim.split_trim unicodeSpace text

theorem infix_trimSpace (text : List Char) : trimSpace text <:+: text := by
  obtain ⟨front, back, -, -, htext⟩ := trimSpace_parts text
  exact ⟨front, back, htext.symm⟩

theorem headsPath_trimSpace {piece text : List Char} (h : HeadsPath piece (trimSpace text)) : HeadsPath piece text := by
  obtain ⟨front, back, -, -, htext⟩ := trimSpace_parts text
  rw [htext]
  exact headsPath_outer h

theorem hasHash_trimSpace {text : List Char} (h : HasHash word (trimSpace text)) : HasHash word text := by
  obtain ⟨front, back, hfront, hback, htext⟩ := trimSpace_parts text
  rw [htext]
  exact hasHash_outer hfront hback h

theorem Left.trimmed {text : List Char} (h : Left text) : Left (trimSpace text) where
  quotes q hq := Nat.le_trans ((infix_trimSpace text).sublist.count_le q) (h.quotes q hq)
  hexNumber hleft := by
    obtain ⟨d, hd, hpart⟩ := hleft
    exact h.hexNumber ⟨d, hd, hpart.trans (infix_trimSpace text)⟩
  path hleft := by
    obtain ⟨root, hroot, hleft⟩ := hasPath_iff.mp hleft
    exact h.path (hasPath_iff.mpr ⟨root, hroot, headsPath_trimSpace hleft⟩)
  number hleft := by
    obtain ⟨front, back, hfront, hback, htext⟩ := trimSpace_parts text
    refine h.number ?_
    rw [htext]
    exact hasNumber_outer hfront hback hleft
  spaces := by
    obtain ⟨front, back, -, -, htext⟩ := trimSpace_parts text
    have hchain := h.spaces.2
    rw [htext] at hchain
    exact ⟨fun c hc => h.spaces.1 c ((infix_trimSpace text).subset hc), hchain.left_of_append.right_of_append⟩

end Marshal.Errsig
