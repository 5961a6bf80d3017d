import Marshal.Errsig.Lowered

/-! Lines normalised twice.

A line keeps its normal form where nothing is left to replace in it. What the rewrites leave is in
lower case then, and holds no hash, unless lower-casing makes a piece or a hash stood right
before a number or a path (`Normalize_again_iff`). -/
namespace Marshal.Errsig
open Regex Pat

section Normalize
variable {lib : Library}

theorem trimSpace_lower (hlib : UnicodeLower lib) (text : List Char) :
    trimSpace (lower lib (trimSpace text)) = lower lib (trimSpace text) := by
  have htrimmed := Trim.trimmed_trim unicodeSpace text
  refine Trim.trim_eq_self ⟨fun c hc => ?_, fun c hc => ?_⟩
  · rw [lower, List.head?_map] at hc
    obtain ⟨d, hd, rfl⟩ := Option.map_eq_some_iff.mp hc
    rw [hlib.blank]
    exact htrimmed.1 d hd
  · rw [lower, List.getLast?_map] at hc
    obtain ⟨d, hd, rfl⟩ := Option.map_eq_some_iff.mp hc
    rw [hlib.blank]
    exact htrimmed.2 d hd

theorem lower_lower (hlib : UnicodeLower lib) (text : List Char) : lower lib (lower lib text) = lower lib text := by
  rw [lower, lower, List.map_map]
  exact List.map_congr_left fun c _ => hlib.again c

/-- A character that is left stood in the line or in a placeholder. -/
theorem mem_rewritten {rs : List (Pat × String)} (hrs : rs ⊆ rewrites) {text : List Char} {c : Char}
    (hc : c ∈ rewritten rs text) : c ∈ text ∨ ∃ new ∈ placeholders, c ∈ new.toList := by
  induction rs generalizing text with
  | nil => exact .inl hc
  | cons r rs ih =>
    obtain ⟨hr, hrs⟩ := List.cons_subset.mp hrs
    rcases ih hrs hc with hone | hplaced
    · rcases rewrites_cases hr with hcut | ⟨hconsumes, hnew, -⟩
      · exact .inl ((hcut text).subset hone)
      · by_cases hmem : c ∈ r.2.toList
        · exact .inr ⟨r.2, hnew, hmem⟩
        · exact .inl ((replaced hconsumes r.2.toList none text).mem hmem hone)
    · exact .inr hplaced

theorem Normalize_settled (hlib : UnicodeLower lib) {s : String}
    (h : Settled (lower lib (trimSpace (rewritten rewrites s.toList)))) :
    Normalize lib (Normalize lib s) = Normalize lib s := by
  rw [Normalize_eq lib (Normalize lib s), Normalize_eq lib s, String.toList_ofList, rewritten_settled h,
    trimSpace_lower hlib, lower_lower hlib]

/-- A line that normalising leaves as it is holds nothing to replace. -/
theorem settled_of_fixed (hlib : UnicodeLower lib) {text : List Char} (hlow : ∀ c ∈ text, lib.toLower c = c)
    (h : lower lib (trimSpace (rewritten rewrites text)) = text) : Settled text := by
  have hplaced : ∀ new ∈ placeholders, ∀ c ∈ new.toList, c.toNat < 128 ∧ c.toLower = c := by decide
  have hfixed : lower lib (trimSpace (rewritten rewrites text)) = trimSpace (rewritten rewrites text) := by
    refine (List.map_congr_left fun c hc => ?_).trans (List.map_id _)
    rcases mem_rewritten (List.Subset.refl rewrites) ((infix_trimSpace _).subset hc) with hmem | ⟨new, hnew, hmem⟩
    · exact hlow c hmem
    · obtain ⟨hsmall, hlow⟩ := hplaced new hnew c hmem
      rw [hlib.ascii c hsmall]
      exact hlow
  rw [hfixed] at h
  have hleft := (left_rewritten text).trimmed
  rw [h] at hleft
  refine hleft.settled fun hhash => ?_
  rw [← h] at hhash
  rcases hash_rewritten (hasHash_trimSpace hhash) with hnumber | hpath
  · obtain ⟨run, d, -, -, hd, hpart⟩ := hnumber
    exact hleft.hexNumber ⟨d, hd, (List.suffix_append run _).isInfix.trans hpart⟩
  · obtain ⟨run, c, -, -, hc, -, front, rest, htext, hrest⟩ := hpath
    exact hleft.path ⟨front ++ run, [c, ':', '\\'], rest, by simp [htext], .drive hc, hrest⟩

theorem settled_of_again (hlib : UnicodeLower lib) {s : String} (h : Normalize lib (Normalize lib s) = Normalize lib s) :
    Settled (lower lib (trimSpace (rewritten rewrites s.toList))) := by
  refine settled_of_fixed hlib (fun c hc => ?_) ?_
  · obtain ⟨d, -, rfl⟩ := List.mem_map.mp hc
    exact hlib.again d
  have hlists := congrArg String.toList h
  rw [Normalize_eq lib (Normalize lib s), Normalize_eq lib s, String.toList_ofList, String.toList_ofList] at hlists
  exact hlists

/-- The second time, a line stays as it is if and only if lower-casing made no piece to replace. -/
theorem Normalize_again_iff (hlib : UnicodeLower lib) (s : String) :
    Normalize lib (Normalize lib s) = Normalize lib s ↔ Stays (trimSpace (rewritten rewrites s.toList)) := by
  rw [← settled_lower_iff hlib (left_rewritten s.toList).trimmed]
  exact ⟨settled_of_again hlib, Normalize_settled hlib⟩

theorem Signature_again {s : String} (h : Normalize lib (Normalize lib s) = Normalize lib s) :
    Signature lib (Normalize lib s) = Signature lib s := by rw [Signature, Signature, h]

end Normalize

/-! ### Lines without such pieces -/

/-- The line has none of the pieces that lower-casing turns into others, and no hash right before what is replaced. -/
structure Plain (s : List Char) : Prop where
  capitalHex : ¬ HasCapitalHex s
  beforeHexNumber : ¬ BeforeHexNumber s
  beforePath : ¬ BeforePath s
  dottedBytes : ∀ d k b, digit d = true → k ∈ ['k', 'K', 'g', 'G'] → b ∈ ['b', 'B'] → ¬ [d, k, '\u0130', b] <:+: s
  longSeconds : ∀ d c k, digit d = true → c ∈ ['n', 'N', 'u', 'U'] → farCapital k = true → ¬ [d, c, '\u017f', k] <:+: s
  farDrive : ¬ HasFarDrive s

/-- Digits before a piece: the last of them and the piece. -/
theorem infix_number (front piece rest : List Char) {n : List Char} (hn : Number n) :
    ∃ d, digit d = true ∧ d :: piece <:+: front ++ (n ++ (piece ++ rest)) := by
  refine ⟨n.getLast hn.1, hn.2 _ (List.getLast_mem hn.1), front ++ n.dropLast, rest, ?_⟩
  conv_rhs => rw [← List.dropLast_append_getLast hn.1]
  simp

/-- A piece with a digit in front, of which no character is a mark, is in no placeholder. -/
theorem infix_left {s : List Char} {d : Char} {piece : List Char} (hd : digit d = true) (hpiece : ∀ c ∈ piece, isMark c = false)
    (h : d :: piece <:+: trimSpace (rewritten rewrites s)) : d :: piece <:+: s := by
  refine infix_rewritten rewrites (List.Subset.refl _) (fun new hnew => ?_) (h.trans (infix_trimSpace _))
  refine apart_placeholder hnew (List.forall_mem_cons.mpr ⟨word_not_mark (digit_word hd), hpiece⟩) fun hpart => ?_
  rw [no_digit hnew d (hpart.subset List.mem_cons_self)] at hd
  cases hd

theorem word_of_hash {text : List Char} (h : HasHash wordLowered text) : HasHash word text := by
  obtain ⟨front, run, rest, htext, hlength, hrun, hfront, hrest⟩ := h
  exact ⟨front, run, rest, htext, hlength, hrun, not_word_of_lowered hfront, not_word_of_lowered hrest⟩

theorem Plain.stays {s : List Char} (h : Plain s) : Stays (trimSpace (rewritten rewrites s)) where
  capitalHex hmade := by
    obtain ⟨d, hd, hpart⟩ := hmade
    refine h.capitalHex ⟨d, hd, infix_left rfl (fun c hc => ?_) hpart⟩
    simp only [List.mem_cons, List.not_mem_nil, or_false] at hc
    rcases hc with rfl | rfl
    · rfl
    · exact word_not_mark (hexDigit_word hd)
  hash hmade := (hash_rewritten (hasHash_trimSpace (word_of_hash hmade))).elim h.beforeHexNumber h.beforePath
  dottedBytes hmade := by
    obtain ⟨front, n, k, b, rest, htext, hn, hk, hb, -, -⟩ := hmade
    obtain ⟨d, hd, hpart⟩ := infix_number front [k, '\u0130', b] rest hn
    rw [← htext] at hpart
    refine h.dottedBytes d k b hd hk hb (infix_left hd (fun c hc => ?_) hpart)
    simp only [List.mem_cons, List.not_mem_nil, or_false] at hk hb hc
    rcases hc with rfl | rfl | rfl
    · rcases hk with rfl | rfl | rfl | rfl <;> rfl
    · rfl
    · rcases hb with rfl | rfl <;> rfl
  longSeconds hmade := by
    obtain ⟨front, n, c, k, rest, htext, hn, hc, hk, -⟩ := hmade
    obtain ⟨d, hd, hpart⟩ := infix_number front [c, '\u017f', k] rest hn
    rw [← htext] at hpart
    refine h.longSeconds d c k hd hc hk (infix_left hd (fun e he => ?_) hpart)
    simp only [farCapital, decide_eq_true_eq, List.mem_cons, List.not_mem_nil, or_false] at hk hc he
    rcases he with rfl | rfl | rfl
    · rcases hc with rfl | rfl | rfl | rfl <;> rfl
    · rfl
    · rcases hk with rfl | rfl <;> rfl
  farDrive hmade := by
    obtain ⟨c, hc, hleads⟩ := hmade
    refine h.farDrive ⟨c, hc, headsPath_rewritten rewrites (List.Subset.refl _) (List.cons_ne_nil _ _) (fun new hnew => ?_)
      (headsPath_trimSpace hleads)⟩
    have hmark : isMark c = false := by
      simp only [farCapital, decide_eq_true_eq, List.mem_cons, List.not_mem_nil, or_false] at hc
      rcases hc with rfl | rfl <;> rfl
    exact apart_drive [] hnew (fun _ hd => absurd hd List.not_mem_nil) hmark

theorem not_infix {s piece : List Char} (c : Char) (hpiece : c ∈ piece) (hs : c ∉ s) : ¬ piece <:+: s :=
  fun hpart => hs (hpart.subset hpiece)

/-- Most lines are plain: they hold no `x`, no colon and no letter that is special in lower case. -/
theorem plain_of_chars {s : List Char} (hx : 'x' ∉ s) (hcapital : 'X' ∉ s) (hcolon : ':' ∉ s) (hdotted : '\u0130' ∉ s)
    (hlong : '\u017f' ∉ s) : Plain s where
  capitalHex h := by
    obtain ⟨d, -, hpart⟩ := h
    exact not_infix 'X' (by simp) hcapital hpart
  beforeHexNumber h := by
    obtain ⟨run, d, -, -, -, hpart⟩ := h
    exact not_infix 'x' (by simp) hx hpart
  beforePath h := by
    obtain ⟨run, c, -, -, -, -, front, rest, htext, -⟩ := h
    exact hcolon (by simp [htext])
  dottedBytes d k b _ _ _ := not_infix '\u0130' (by simp) hdotted
  longSeconds d c k _ _ _ := not_infix '\u017f' (by simp) hlong
  farDrive h := by
    obtain ⟨c, -, front, rest, htext, -⟩ := h
    exact hcolon (by simp [htext])

/-! ### The second time -/

/-- `unicode.ToLower` on ASCII, and on the letters that are special to the patterns. -/
def knownLower (c : Char) : Char :=
  if c.toNat < 128 then c.toLower
  else if c = '\u0130' then 'i'
  else if c = '\u212a' then 'k'
  else if c = '\u039c' then '\u03bc'
  else c

def knownLibrary : Library where
  toLower := knownLower
  sha256Hex := asciiLibrary.sha256Hex

theorem knownLower_cases {P : Char → Char → Prop} (hascii : ∀ n < 128, P (Char.ofNat n) (Char.ofNat n).toLower)
    (hfar : ∀ c ∈ ['\u0130', '\u212a', '\u039c'], P c (knownLower c)) (hbeyond : ∀ c, 128 ≤ c.toNat → P c c)
    (c : Char) : P c (knownLower c) := by
  by_cases hsmall : c.toNat < 128
  · rw [knownLower, if_pos hsmall]
    exact ascii_all (P := fun c => P c c.toLower) hascii hsmall
  by_cases hmem : c ∈ ['\u0130', '\u212a', '\u039c']
  · exact hfar c hmem
  simp only [List.mem_cons, List.not_mem_nil, or_false, not_or] at hmem
  rw [knownLower, if_neg hsmall, if_neg hmem.1, if_neg hmem.2.1, if_neg hmem.2.2]
  exact hbeyond c (Nat.le_of_not_lt hsmall)

theorem knownLibrary_lower : UnicodeLower knownLibrary where
  ascii c hc := if_pos hc
  toAscii c hc := by
    refine knownLower_cases (P := fun c d => d.toNat < 128 → c.toNat < 128 ∨ farCapital c = true) ?_ ?_ ?_ c hc
    · decide +kernel
    · decide
    · intro c hc hd
      exact absurd hd (Nat.not_lt.mpr hc)
  dotted := rfl
  kelvin := rfl
  longS c := by
    refine knownLower_cases (P := fun c d => d = '\u017f' ↔ c = '\u017f') ?_ ?_ ?_ c
    · decide +kernel
    · decide
    · intro c _
      exact Iff.rfl
  mu := rfl
  micro c hc := by
    refine knownLower_cases
      (P := fun c d => d ∈ ['\u00b5', '\u03bc'] → c ∈ ['\u00b5', '\u039c', '\u03bc']) ?_ ?_ ?_ c hc
    · decide +kernel
    · decide
    · intro c _ hc
      simp only [List.mem_cons, List.not_mem_nil, or_false] at hc ⊢
      exact hc.imp_right .inr
  again c := by
    refine knownLower_cases (P := fun c d => knownLower c = d → knownLower d = d) ?_ ?_ ?_ c rfl
    · decide +kernel
    · decide
    · intro c _ h
      exact h
  blank c := by
    refine knownLower_cases (P := fun c d => unicodeSpace d = unicodeSpace c) ?_ ?_ ?_ c
    · decide +kernel
    · decide
    · intro c _
      rfl

/-- **What normalising does a second time**: it changes nothing if and only if nothing that lower-casing
makes is a piece to replace. That is so, and the signature is the same, for every line that has
no `0X` in front of a hexadecimal digit, no hash right before a number or a path, and none of the
three pieces with a capital from beyond ASCII. -/
theorem Normalize_idempotent_iff {lib : Library} (hlib : UnicodeLower lib) (s : String) :
    (Normalize lib (Normalize lib s) = Normalize lib s ↔ Stays (trimSpace (rewritten rewrites s.toList))) ∧
      (Plain s.toList → Normalize lib (Normalize lib s) = Normalize lib s ∧
        Signature lib (Normalize lib s) = Signature lib s) := by
  have hiff := Normalize_again_iff hlib s
  refine ⟨hiff, fun hplain => ?_⟩
  have hagain := hiff.mpr hplain.stays
  exact ⟨hagain, Signature_again hagain⟩

theorem Normalize_took :
    Normalize knownLibrary (Normalize knownLibrary "took 15ms") = Normalize knownLibrary "took 15ms" := by
  have h := Normalize_idempotent_iff knownLibrary_lower "took 15ms"
  exact (h.2 (plain_of_chars (by decide) (by decide) (by decide) (by decide) (by decide))).1

/-- In the first round an `0X` is left, which is in lower case in the second. -/
theorem Normalize_capital :
    Normalize asciiLibrary "at 0X1F" = "at 0x1f" ∧ Normalize asciiLibrary "at 0x1f" = "at <hex>" := by
  decide +kernel

end Marshal.Errsig
