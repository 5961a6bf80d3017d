import Marshal.Errsig.Traced

/-! Lines in lower case.

Lower-casing may make pieces that are replaced out of characters that are not: an `X` becomes
an `x`, and two capitals beyond ASCII become letters of it. A line in which nothing is left
is settled in lower case too where it holds none of these (`settled_lower_iff`). -/
namespace Marshal.Errsig
open Regex Pat

/-! ### The library's lower case -/

/-- `İ` and the sign for Kelvin, whose lower case is in ASCII. -/
def farCapital (c : Char) : Bool := c ∈ ['\u0130', '\u212a']

/-- What is known of `unicode.ToLower`. -/
structure UnicodeLower (lib : Library) : Prop where
  ascii : ∀ c, c.toNat < 128 → lib.toLower c = c.toLower
  toAscii : ∀ c, (lib.toLower c).toNat < 128 → c.toNat < 128 ∨ farCapital c = true
  dotted : lib.toLower '\u0130' = 'i'
  kelvin : lib.toLower '\u212a' = 'k'
  longS : ∀ c, lib.toLower c = '\u017f' ↔ c = '\u017f'
  mu : lib.toLower '\u039c' = '\u03bc'
  micro : ∀ c, lib.toLower c ∈ ['\u00b5', '\u03bc'] → c ∈ ['\u00b5', '\u039c', '\u03bc']
  again : ∀ c, lib.toLower (lib.toLower c) = lib.toLower c
  blank : ∀ c, unicodeSpace (lib.toLower c) = unicodeSpace c

theorem ascii_all {P : Char → Prop} (h : ∀ n < 128, P (Char.ofNat n)) {c : Char} (hc : c.toNat < 128) : P c := by
  rw [← Char.ofNat_toNat c]
  exact h c.toNat hc

/-- Marks that are no letters. -/
def asciiMarks : List Char := ['0', ':', '/', '\\', '"', '\'', '\x60']

/-- The lower case of a character is of the same kinds. -/
structure KeepsKinds (c : Char) : Prop where
  words : word c.toLower = word c
  letters : letter c.toLower = letter c
  digits : digit c.toLower = digit c
  hexDigits : hexDigit c.toLower = hexDigit c
  spaces : space c.toLower = space c
  crosses : decide (c.toLower ∈ ['x', 'X']) = decide (c ∈ ['x', 'X'])
  marks : ∀ d ∈ asciiMarks, c.toLower = d ↔ c = d

instance (c : Char) : Decidable (KeepsKinds c) :=
  decidable_of_iff (word c.toLower = word c ∧ letter c.toLower = letter c ∧ digit c.toLower = digit c ∧
      hexDigit c.toLower = hexDigit c ∧ space c.toLower = space c ∧
      decide (c.toLower ∈ ['x', 'X']) = decide (c ∈ ['x', 'X']) ∧ ∀ d ∈ asciiMarks, c.toLower = d ↔ c = d)
    ⟨fun h => ⟨h.1, h.2.1, h.2.2.1, h.2.2.2.1, h.2.2.2.2.1, h.2.2.2.2.2.1, h.2.2.2.2.2.2⟩,
      fun h => ⟨h.words, h.letters, h.digits, h.hexDigits, h.spaces, h.crosses, h.marks⟩⟩

theorem keepsKinds_ascii : ∀ n < 128, KeepsKinds (Char.ofNat n) := by decide +kernel

/-- A word character once it is in lower case. -/
def wordLowered (c : Char) : Bool := word c || farCapital c

section Lower
variable {lib : Library}

/-- A kind of ASCII characters that does not tell the cases apart. -/
theorem kind_lower (hlib : UnicodeLower lib) (accepts : Char → Bool)
    (hascii : ∀ n < 128, accepts (Char.ofNat n).toLower = accepts (Char.ofNat n))
    (hbeyond : ∀ c, accepts c = true → c.toNat < 128) {c : Char} (hc : farCapital c = false) :
    accepts (lib.toLower c) = accepts c := by
  by_cases hsmall : c.toNat < 128
  · rw [hlib.ascii c hsmall]
    exact ascii_all (P := fun c => accepts c.toLower = accepts c) hascii hsmall
  · have hnone : accepts c = false := by
      rw [← Bool.not_eq_true]
      exact fun h => hsmall (hbeyond c h)
    rw [hnone, ← Bool.not_eq_true]
    intro h
    rcases hlib.toAscii c (hbeyond _ h) with hc' | hc'
    · exact hsmall hc'
    · rw [hc'] at hc
      cases hc

theorem digit_ascii (c : Char) (h : digit c = true) : c.toNat < 128 := by
  have hle := (of_decide_eq_true h).2
  rw [Char.le_def, UInt32.le_iff_toNat_le] at hle
  exact Nat.lt_of_le_of_lt hle (by decide)

theorem word_ascii (c : Char) (h : word c = true) : c.toNat < 128 := by
  simp only [word, letter, digit, Bool.or_eq_true, decide_eq_true_eq, beq_iff_eq, Char.le_def,
    UInt32.le_iff_toNat_le] at h
  have hbounds : 'z'.val.toNat = 122 ∧ 'Z'.val.toNat = 90 ∧ '9'.val.toNat = 57 := by decide
  have hval : c.toNat = c.val.toNat := rfl
  rcases h with h | rfl
  · omega
  · decide

theorem farCapital_cases (hlib : UnicodeLower lib) {c : Char} (hc : farCapital c = true) :
    lib.toLower c = 'i' ∨ lib.toLower c = 'k' := by
  simp only [farCapital, decide_eq_true_eq, List.mem_cons, List.not_mem_nil, or_false] at hc
  rcases hc with rfl | rfl
  · exact .inl hlib.dotted
  · exact .inr hlib.kelvin

theorem word_lower (hlib : UnicodeLower lib) (c : Char) : word (lib.toLower c) = wordLowered c := by
  cases hc : farCapital c with
  | true =>
    rw [wordLowered, hc, Bool.or_true]
    rcases farCapital_cases hlib hc with h | h
    · rw [h]
      rfl
    · rw [h]
      rfl
  | false =>
    rw [wordLowered, hc, Bool.or_false]
    exact kind_lower hlib word (fun n hn => (keepsKinds_ascii n hn).words) word_ascii hc

/-- A kind to which neither letter belongs that the capitals become. -/
theorem kind_lower' (hlib : UnicodeLower lib) (accepts : Char → Bool)
    (hascii : ∀ n < 128, accepts (Char.ofNat n).toLower = accepts (Char.ofNat n))
    (hbeyond : ∀ c, accepts c = true → c.toNat < 128) (hi : accepts 'i' = false) (hk : accepts 'k' = false) (c : Char) :
    accepts (lib.toLower c) = accepts c := by
  cases hc : farCapital c with
  | false => exact kind_lower hlib accepts hascii hbeyond hc
  | true =>
    have hnone : accepts c = false := by
      rw [← Bool.not_eq_true]
      intro h
      have hsmall := hbeyond c h
      simp only [farCapital, decide_eq_true_eq, List.mem_cons, List.not_mem_nil, or_false] at hc
      rcases hc with rfl | rfl
      · exact absurd hsmall (by decide)
      · exact absurd hsmall (by decide)
    rcases farCapital_cases hlib hc with h | h
    · rw [h, hi, hnone]
    · rw [h, hk, hnone]

theorem digit_lower (hlib : UnicodeLower lib) (c : Char) : digit (lib.toLower c) = digit c :=
  kind_lower' hlib digit (fun n hn => (keepsKinds_ascii n hn).digits) digit_ascii rfl rfl c

theorem hexDigit_lower (hlib : UnicodeLower lib) (c : Char) : hexDigit (lib.toLower c) = hexDigit c :=
  kind_lower' hlib hexDigit (fun n hn => (keepsKinds_ascii n hn).hexDigits)
    (fun c hc => word_ascii c (hexDigit_word hc)) rfl rfl c

theorem space_lower (hlib : UnicodeLower lib) (c : Char) : space (lib.toLower c) = space c := by
  refine kind_lower' hlib space (fun n hn => (keepsKinds_ascii n hn).spaces) (fun c hc => ?_) rfl rfl c
  have hall : ∀ c ∈ ['\t', '\n', '\x0c', '\r', ' '], c.toNat < 128 := by decide
  exact hall c (of_decide_eq_true hc)

/-- A mark is made of itself only. -/
theorem lower_eq_iff (hlib : UnicodeLower lib) {d : Char} (hd : d ∈ asciiMarks) (c : Char) :
    lib.toLower c = d ↔ c = d := by
  have hmarks : ∀ d ∈ asciiMarks, d.toNat < 128 ∧ d ≠ 'i' ∧ d ≠ 'k' := by decide
  obtain ⟨hsmall, hi, hk⟩ := hmarks d hd
  have hkind := kind_lower' hlib (fun c => c == d) ?_ ?_ (beq_eq_false_iff_ne.mpr hi.symm)
    (beq_eq_false_iff_ne.mpr hk.symm) c
  · rw [← beq_iff_eq, ← beq_iff_eq (a := c), hkind]
  · intro n hn
    rw [Bool.eq_iff_iff, beq_iff_eq, beq_iff_eq]
    exact (keepsKinds_ascii n hn).marks d hd
  · intro c hc
    rw [eq_of_beq hc]
    exact hsmall

theorem pathWord_lower (hlib : UnicodeLower lib) (c : Char) : pathWord (lib.toLower c) = pathWord c := by
  have hcolon := lower_eq_iff hlib (d := ':') (by decide) c
  rw [pathWord, pathWord, space_lower hlib, Bool.eq_iff_iff]
  simp only [Bool.not_eq_true', Bool.or_eq_false_iff, beq_eq_false_iff_ne, ne_eq, hcolon]

theorem last_lower {accepts accepts' : Char → Bool} (h : ∀ c, accepts (lib.toLower c) = accepts' c) (l : List Char) :
    (lower lib l).getLast?.any accepts = l.getLast?.any accepts' := by
  rw [lower, List.getLast?_map, Option.any_map]
  exact congrArg (fun p => l.getLast?.any p) (funext h)

theorem head_lower {accepts accepts' : Char → Bool} (h : ∀ c, accepts (lib.toLower c) = accepts' c) (l : List Char) :
    (lower lib l).head?.any accepts = l.head?.any accepts' := by
  rw [lower, List.head?_map, Option.any_map]
  exact congrArg (fun p => l.head?.any p) (funext h)

theorem infix_lower {piece text : List Char} (h : piece <:+: lower lib text) :
    ∃ piece', piece' <:+: text ∧ lower lib piece' = piece := by
  obtain ⟨front, rest, htext⟩ := h
  obtain ⟨l, rest', rfl, hl, -⟩ := List.map_eq_append_iff.mp htext.symm
  obtain ⟨front', piece', rfl, -, hpiece⟩ := List.map_eq_append_iff.mp hl
  exact ⟨piece', ⟨front', rest', rfl⟩, hpiece⟩

end Lower

/-! ### The pieces that lower-casing makes -/

def HasCapitalHex (text : List Char) : Prop := ∃ h, hexDigit h = true ∧ ['0', 'X', h] <:+: text

/-- Digits and `kİb` or the like. -/
def HasDottedBytes (text : List Char) : Prop :=
  ∃ front n k b rest, text = front ++ (n ++ ([k, '\u0130', b] ++ rest)) ∧ Number n ∧ k ∈ ['k', 'K', 'g', 'G'] ∧
    b ∈ ['b', 'B'] ∧ front.getLast?.any wordLowered = false ∧ rest.head?.any wordLowered = false

/-- Digits and `nſ` or `uſ` before one of the capitals. -/
def HasLongSeconds (text : List Char) : Prop :=
  ∃ front n c k rest, text = front ++ (n ++ ([c, '\u017f', k] ++ rest)) ∧ Number n ∧ c ∈ ['n', 'N', 'u', 'U'] ∧
    farCapital k = true ∧ front.getLast?.any wordLowered = false

def HasFarDrive (text : List Char) : Prop := ∃ c, farCapital c = true ∧ HeadsPath [c, ':', '\\'] text

/-- Lower-casing makes no piece that is replaced. -/
structure Stays (text : List Char) : Prop where
  capitalHex : ¬ HasCapitalHex text
  hash : ¬ HasHash wordLowered text
  dottedBytes : ¬ HasDottedBytes text
  longSeconds : ¬ HasLongSeconds text
  farDrive : ¬ HasFarDrive text

section Pieces
variable {lib : Library} {text : List Char}

theorem hasHexNumber_lower (hlib : UnicodeLower lib) :
    HasHexNumber (lower lib text) ↔ HasHexNumber text ∨ HasCapitalHex text := by
  have hzero := lower_eq_iff hlib (d := '0') (by decide)
  have hbeyond : ∀ c, decide (c ∈ ['x', 'X']) = true → c.toNat < 128 := by
    have hall : ∀ c ∈ ['x', 'X'], c.toNat < 128 := by decide
    exact fun c hc => hall c (of_decide_eq_true hc)
  have hx := kind_lower' hlib (fun c => decide (c ∈ ['x', 'X'])) (fun n hn => (keepsKinds_ascii n hn).crosses) hbeyond
    rfl rfl
  constructor
  · intro h
    obtain ⟨h, hh, hpart⟩ := h
    obtain ⟨piece, hpiece, hlower⟩ := infix_lower hpart
    obtain ⟨a, piece, rfl, ha, hlower⟩ := List.map_eq_cons_iff.mp hlower
    obtain ⟨b, piece, rfl, hb, hlower⟩ := List.map_eq_cons_iff.mp hlower
    obtain ⟨d, piece, rfl, hd, hlower⟩ := List.map_eq_cons_iff.mp hlower
    rw [List.map_eq_nil_iff.mp hlower, (hzero a).mp ha] at hpiece
    have hhex : hexDigit d = true := by rw [← hexDigit_lower hlib, hd, hh]
    have hcase : b ∈ ['x', 'X'] := by
      have hkind := hx b
      rw [hb] at hkind
      exact of_decide_eq_true hkind.symm
    simp only [List.mem_cons, List.not_mem_nil, or_false] at hcase
    rcases hcase with rfl | rfl
    · exact .inl ⟨d, hhex, hpiece⟩
    · exact .inr ⟨d, hhex, hpiece⟩
  · intro h
    have hmap : ∀ b d, lib.toLower b = 'x' → hexDigit d = true → ['0', b, d] <:+: text → HasHexNumber (lower lib text) := by
      intro b d hb hd hpart
      refine ⟨lib.toLower d, by rw [hexDigit_lower hlib, hd], ?_⟩
      have hlower := hpart.map lib.toLower
      rw [List.map_cons, List.map_cons, List.map_cons, hb, (hzero '0').mpr rfl] at hlower
      exact hlower
    rcases h with ⟨d, hd, hpart⟩ | ⟨d, hd, hpart⟩
    · exact hmap 'x' d (hlib.ascii 'x' (by decide)) hd hpart
    · exact hmap 'X' d (hlib.ascii 'X' (by decide)) hd hpart

theorem hasHash_lower (hlib : UnicodeLower lib) : HasHash word (lower lib text) ↔ HasHash wordLowered text := by
  constructor
  · intro h
    obtain ⟨front, run, rest, htext, hlength, hrun, hfront, hrest⟩ := h
    obtain ⟨front', l, rfl, rfl, hl⟩ := List.map_eq_append_iff.mp htext
    obtain ⟨run', rest', rfl, rfl, rfl⟩ := List.map_eq_append_iff.mp hl
    refine ⟨front', run', rest', rfl, ?_, fun c hc => ?_, ?_, ?_⟩
    · rw [List.length_map] at hlength
      exact hlength
    · rw [← hexDigit_lower hlib]
      exact hrun _ (List.mem_map_of_mem hc)
    · rw [← last_lower (word_lower hlib)]
      exact hfront
    · rw [← head_lower (word_lower hlib)]
      exact hrest
  · intro h
    obtain ⟨front, run, rest, rfl, hlength, hrun, hfront, hrest⟩ := h
    refine ⟨lower lib front, lower lib run, lower lib rest, ?_, ?_, fun c hc => ?_, ?_, ?_⟩
    · rw [lower, List.map_append, List.map_append]
      rfl
    · rw [lower, List.length_map]
      exact hlength
    · obtain ⟨d, hd, rfl⟩ := List.mem_map.mp hc
      rw [hexDigit_lower hlib]
      exact hrun d hd
    · rw [last_lower (word_lower hlib)]
      exact hfront
    · rw [head_lower (word_lower hlib)]
      exact hrest

theorem letter_lower (hlib : UnicodeLower lib) {c : Char} (h : letter (lib.toLower c) = true) :
    letter c = true ∨ farCapital c = true := by
  cases hc : farCapital c with
  | true => exact .inr rfl
  | false =>
    refine .inl ?_
    have hbeyond : ∀ c, letter c = true → c.toNat < 128 := fun c hc => word_ascii c (by simp [word, hc])
    rw [← kind_lower hlib letter (fun n hn => (keepsKinds_ascii n hn).letters) hbeyond hc]
    exact h

theorem headsPath_lower (hlib : UnicodeLower lib) {piece : List Char} (h : HeadsPath piece text) :
    HeadsPath (lower lib piece) (lower lib text) := by
  obtain ⟨front, rest, rfl, hrest⟩ := h
  refine ⟨lower lib front, lower lib rest, ?_, ?_⟩
  · rw [lower, List.map_append, List.map_append]
    rfl
  · rw [head_lower (pathWord_lower hlib)]
    exact hrest

theorem hasPath_lower (hlib : UnicodeLower lib) : HasPath (lower lib text) ↔ HasPath text ∨ HasFarDrive text := by
  have hslash := lower_eq_iff hlib (d := '/') (by decide)
  have hcolon := lower_eq_iff hlib (d := ':') (by decide)
  have hback := lower_eq_iff hlib (d := '\\') (by decide)
  constructor
  · intro h
    obtain ⟨front, root, rest, htext, hroot, hrest⟩ := h
    obtain ⟨front', l, rfl, -, hl⟩ := List.map_eq_append_iff.mp htext
    obtain ⟨root', rest', rfl, hroot', rfl⟩ := List.map_eq_append_iff.mp hl
    have hword : rest'.head?.any pathWord = true := by
      rw [← head_lower (pathWord_lower hlib)]
      exact hrest
    cases hroot with
    | slash =>
      obtain ⟨a, tail, rfl, ha, htail⟩ := List.map_eq_cons_iff.mp hroot'
      rw [(hslash a).mp ha, List.map_eq_nil_iff.mp htail]
      exact .inl ⟨front', ['/'], rest', rfl, .slash, hword⟩
    | @drive c hc =>
      obtain ⟨a, tail, rfl, ha, htail⟩ := List.map_eq_cons_iff.mp hroot'
      obtain ⟨b, tail, rfl, hb, htail⟩ := List.map_eq_cons_iff.mp htail
      obtain ⟨d, tail, rfl, hd, htail⟩ := List.map_eq_cons_iff.mp htail
      rw [(hcolon b).mp hb, (hback d).mp hd, List.map_eq_nil_iff.mp htail]
      rcases letter_lower hlib (ha ▸ hc) with hletter | hfar
      · exact .inl ⟨front', [a, ':', '\\'], rest', rfl, .drive hletter, hword⟩
      · exact .inr ⟨a, hfar, front', rest', rfl, hword⟩
  · intro h
    rw [hasPath_iff]
    rcases h with h | ⟨c, hc, h⟩
    · obtain ⟨root, hroot, h⟩ := hasPath_iff.mp h
      refine ⟨lower lib root, ?_, headsPath_lower hlib h⟩
      cases hroot with
      | slash =>
        rw [lower, List.map_singleton, (hslash '/').mpr rfl]
        exact .slash
      | @drive c hc =>
        rw [lower, List.map_cons, List.map_cons, List.map_singleton, (hcolon ':').mpr rfl, (hback '\\').mpr rfl]
        refine .drive ?_
        rw [hlib.ascii c (word_ascii c (by simp [word, hc]))]
        exact (ascii_all keepsKinds_ascii (word_ascii c (by simp [word, hc]))).letters.trans hc
    · refine ⟨lower lib [c, ':', '\\'], ?_, headsPath_lower hlib h⟩
      rw [lower, List.map_cons, List.map_cons, List.map_singleton, (hcolon ':').mpr rfl, (hback '\\').mpr rfl]
      rcases farCapital_cases hlib hc with hi | hk
      · rw [hi]
        exact .drive rfl
      · rw [hk]
        exact .drive rfl

end Pieces

/-! ### Units in lower case -/

section Units
variable {lib : Library}

def unitChars : List Char := ['n', 's', 'u', '\u00b5', 'm', 'h', 'k', 'i', 'b', 'g']

theorem units_chars : ∀ m ∈ units, ∀ c ∈ m.toList, c ∈ unitChars := by decide

/-- What folds to a character of a unit, in ASCII or beyond. -/
theorem folds_cases {c d : Char} (hc : c ∈ unitChars) (h : foldsTo c d = true) :
    d.toNat < 128 ∨ c = 's' ∧ d = '\u017f' ∨ c = 'k' ∧ d = '\u212a' ∨
      c = '\u00b5' ∧ d ∈ ['\u00b5', '\u039c', '\u03bc'] := by
  have hascii : ∀ c ∈ unitChars, (c.toNat < 128 ∨ c = '\u00b5') ∧ (letter c = true → c.toUpper.toNat < 128) := by decide
  simp only [foldsTo, Bool.or_eq_true, Bool.and_eq_true, beq_iff_eq, decide_eq_true_eq] at h
  rcases h with (((rfl | ⟨hletter, rfl⟩) | hs) | hk) | ⟨rfl, hmicro⟩
  · rcases (hascii d hc).1 with hsmall | rfl
    · exact .inl hsmall
    · exact .inr (.inr (.inr ⟨rfl, List.mem_cons_self⟩))
  · exact .inl ((hascii c hc).2 hletter)
  · exact .inr (.inl hs)
  · exact .inr (.inr (.inl hk))
  · exact .inr (.inr (.inr ⟨rfl, List.mem_cons_of_mem _ hmicro⟩))

/-- A character of a unit came from one, or `i` from the dotted capital. -/
theorem foldsTo_lower (hlib : UnicodeLower lib) {c d : Char} (hc : c ∈ unitChars)
    (h : foldsTo c (lib.toLower d) = true) : foldsTo c d = true ∨ c = 'i' ∧ d = '\u0130' := by
  have hfar : ∀ c ∈ unitChars, (foldsTo c 'i' = true → c = 'i') ∧ (foldsTo c 'k' = true → foldsTo c '\u212a' = true) := by
    decide
  have hascii : ∀ c ∈ unitChars, ∀ n < 128, foldsTo c (Char.ofNat n).toLower = true → foldsTo c (Char.ofNat n) = true := by
    decide +kernel
  rcases folds_cases hc h with hsmall | ⟨rfl, hd⟩ | ⟨-, hd⟩ | ⟨rfl, hd⟩
  · rcases hlib.toAscii d hsmall with hd | hd
    · rw [hlib.ascii d hd] at h
      exact .inl (ascii_all (P := fun d => foldsTo c d.toLower = true → foldsTo c d = true) (hascii c hc) hd h)
    · simp only [farCapital, decide_eq_true_eq, List.mem_cons, List.not_mem_nil, or_false] at hd
      rcases hd with rfl | rfl
      · rw [hlib.dotted] at h
        exact .inr ⟨(hfar c hc).1 h, rfl⟩
      · rw [hlib.kelvin] at h
        exact .inl ((hfar c hc).2 h)
  · rw [(hlib.longS d).mp hd]
    exact .inl rfl
  · have hagain := hlib.again d
    rw [hd, hlib.kelvin] at hagain
    exact absurd hagain (by decide)
  · have hback : d ∈ ['\u00b5', '\u039c', '\u03bc'] := by
      refine hlib.micro d ?_
      simp only [List.mem_cons, List.not_mem_nil, or_false] at hd ⊢
      rcases hd with hd | hd | hd
      · exact .inl hd
      · have hagain := hlib.again d
        rw [hd, hlib.mu] at hagain
        exact absurd hagain (by decide)
      · exact .inr hd
    have hfolds : ∀ d ∈ ['\u00b5', '\u039c', '\u03bc'], foldsTo '\u00b5' d = true := by decide
    exact .inl (hfolds d hback)

theorem folds_lower (hlib : UnicodeLower lib) {m u : List Char} (hm : ∀ c ∈ m, c ∈ unitChars) (hi : 'i' ∉ m)
    (h : Folds m (lower lib u)) : Folds m u := by
  replace h := List.forall₂_map_right_iff.mp h
  induction h with
  | nil => exact .nil
  | cons hcd _ ih =>
    obtain ⟨hc, hm⟩ := List.forall_mem_cons.mp hm
    rw [List.mem_cons, not_or] at hi
    rcases foldsTo_lower hlib hc hcd with hcd | ⟨rfl, -⟩
    · exact .cons hcd (ih hm hi.2)
    · exact absurd rfl hi.1

/-- A unit in lower case was one before, or has the dotted capital for its `i`. -/
theorem unit_lower (hlib : UnicodeLower lib) {u : List Char} (h : IsUnit (lower lib u)) :
    IsUnit u ∨ ∃ m ∈ ['k', 'm', 'g'], ∃ k b, foldsTo m k = true ∧ foldsTo 'b' b = true ∧ u = [k, '\u0130', b] := by
  rcases h with hnil | ⟨m, hm, hfolds⟩
  · exact .inl (.inl (List.map_eq_nil_iff.mp hnil))
  · by_cases hi : 'i' ∈ m.toList
    · have hdotted : ∀ m ∈ units, 'i' ∈ m.toList → m.toList ∈ ['k', 'm', 'g'].map ([·, 'i', 'b']) := by decide
      obtain ⟨c, hc, hletters⟩ := List.mem_map.mp (hdotted m hm hi)
      have hletter : c ∈ unitChars ∧ c ≠ 'i' := by
        have hall : ∀ c ∈ ['k', 'm', 'g'], c ∈ unitChars ∧ c ≠ 'i' := by decide
        exact hall c hc
      rw [← hletters] at hfolds
      obtain ⟨k, u₁, hk, h₁, rfl⟩ := List.forall₂_cons_left_iff.mp (List.forall₂_map_right_iff.mp hfolds)
      obtain ⟨i, u₂, hdot, h₂, rfl⟩ := List.forall₂_cons_left_iff.mp h₁
      obtain ⟨b, u₃, hb, h₃, rfl⟩ := List.forall₂_cons_left_iff.mp h₂
      rw [List.forall₂_nil_left_iff.mp h₃]
      replace hk := (foldsTo_lower hlib hletter.1 hk).resolve_right fun h => hletter.2 h.1
      replace hb := (foldsTo_lower hlib (by decide) hb).resolve_right fun h => absurd h.1 (by decide)
      rcases foldsTo_lower hlib (by decide) hdot with hdot | ⟨-, rfl⟩
      · refine .inl (.inr ⟨m, hm, ?_⟩)
        rw [← hletters]
        exact .cons hk (.cons hdot (.cons hb .nil))
      · exact .inr ⟨c, hc, k, b, hk, hb, rfl⟩
    · exact .inl (.inr ⟨m, hm, folds_lower hlib (units_chars m hm) hi hfolds⟩)

theorem word_wordLowered {c : Char} (h : word c = true) : wordLowered c = true := by rw [wordLowered, h, Bool.true_or]

theorem not_word_of_lowered {c : Option Char} (h : c.any wordLowered = false) : c.any word = false := by
  rw [← Bool.not_eq_true] at h ⊢
  intro hword
  obtain ⟨d, hd, hword⟩ := (Option.any_eq_true _ _).mp hword
  exact h ((Option.any_eq_true _ _).mpr ⟨d, hd, word_wordLowered hword⟩)

theorem folds_last {m l : List Char} (h : Folds m l) {d : Char} (hd : l.getLast? = some d) :
    ∃ c ∈ m.getLast?, foldsTo c d = true := by
  rw [← List.head?_reverse] at hd ⊢
  have hreverse := List.forall₂_reverse_iff.mpr h
  generalize m.reverse = m' at hreverse ⊢
  generalize l.reverse = l' at hreverse hd
  cases hreverse with
  | nil => cases hd
  | cons hcd _ =>
    cases hd
    exact ⟨_, rfl, hcd⟩

def unitEnds : List Char := ['s', 'm', 'h', 'b']

theorem folds_ascii : ∀ n < 128, foldsTo '\u00b5' (Char.ofNat n) = false ∧
    ∀ e ∈ unitEnds, foldsTo e (Char.ofNat n) = true → word (Char.ofNat n) = true := by
  decide +kernel

theorem units_last : ∀ m ∈ units, m.toList ≠ [] ∧ ∀ c ∈ m.toList.getLast?, c ∈ unitEnds := by decide

/-- A number ends in a word character, or in a long s. -/
theorem number_last {n u : List Char} (hn : Number n) (hu : IsUnit u) {c : Char} (hc : (n ++ u).getLast? = some c) :
    wordLowered c = word c ∧ (word c = false → u.getLast? = some '\u017f') := by
  have hword : word c = true → wordLowered c = word c ∧ (word c = false → u.getLast? = some '\u017f') := by
    intro h
    refine ⟨by rw [word_wordLowered h, h], fun hnot => ?_⟩
    rw [h] at hnot
    cases hnot
  rcases hu with rfl | ⟨m, hm, hfolds⟩
  · rw [List.append_nil] at hc
    exact hword (digit_word (hn.2 c (List.mem_of_getLast? hc)))
  · obtain ⟨hne, hend⟩ := units_last m hm
    have hu : u ≠ [] := by
      intro hnil
      rw [hnil] at hfolds
      exact hne (List.forall₂_nil_right_iff.mp hfolds)
    rw [List.getLast?_append_of_ne_nil _ hu] at hc
    obtain ⟨e, he, hec⟩ := folds_last hfolds hc
    have hends : ∀ e ∈ unitEnds, e ∈ unitChars ∧ e ≠ 'k' ∧ e ≠ '\u00b5' := by decide
    obtain ⟨hunit, hk, hmicro⟩ := hends e (hend e he)
    rcases folds_cases hunit hec with hsmall | ⟨-, rfl⟩ | ⟨hk', -⟩ | ⟨hmicro', -⟩
    · have hascii : ∀ n < 128, foldsTo e (Char.ofNat n) = true → word (Char.ofNat n) = true :=
        fun n hn => (folds_ascii n hn).2 e (hend e he)
      exact hword (ascii_all (P := fun c => foldsTo e c = true → word c = true) hascii hsmall hec)
    · exact ⟨rfl, fun _ => hc⟩
    · exact absurd hk' hk
    · exact absurd hmicro' hmicro

/-- The units that end in a long s. -/
theorem unit_longS {u : List Char} (hu : IsUnit u) (hlast : u.getLast? = some '\u017f') :
    u = ['\u017f'] ∨ ∃ m ∈ ['n', 'u', 'm', '\u00b5'], ∃ c, foldsTo m c = true ∧ u = [c, '\u017f'] := by
  rcases hu with rfl | ⟨m, hm, hfolds⟩
  · cases hlast
  · obtain ⟨e, he, hfolds'⟩ := folds_last hfolds hlast
    have hs : ∀ e ∈ unitEnds, foldsTo e '\u017f' = true → e = 's' := by decide
    have hends : ∀ m ∈ units, m.toList.getLast? = some 's' →
        m.toList = ['s'] ∨ m.toList ∈ ['n', 'u', 'm', '\u00b5'].map ([·, 's']) := by decide
    rw [hs e ((units_last m hm).2 e he) hfolds'] at he
    rcases hends m hm he with hletters | hletters
    · rw [hletters] at hfolds
      obtain ⟨d, u₁, -, h₁, rfl⟩ := List.forall₂_cons_left_iff.mp hfolds
      rw [List.forall₂_nil_left_iff.mp h₁] at hlast ⊢
      cases hlast
      exact .inl rfl
    · obtain ⟨c, hc, hletters⟩ := List.mem_map.mp hletters
      rw [← hletters] at hfolds
      obtain ⟨d, u₁, hd, h₁, rfl⟩ := List.forall₂_cons_left_iff.mp hfolds
      obtain ⟨d', u₂, -, h₂, rfl⟩ := List.forall₂_cons_left_iff.mp h₁
      rw [List.forall₂_nil_left_iff.mp h₂] at hlast ⊢
      cases hlast
      exact .inr ⟨c, hc, d, hd, rfl⟩

end Units

/-! ### Numbers in lower case -/

section Numbers
variable {lib : Library} {text : List Char}

theorem letters_folds {m c : Char} (hm : m ∈ ['n', 'u', 'm', 'k', 'g', 'b']) (h : foldsTo m c = true) :
    c = m ∨ c = m.toUpper ∨ m = 'k' ∧ c = '\u212a' := by
  simp only [foldsTo, Bool.or_eq_true, Bool.and_eq_true, beq_iff_eq, decide_eq_true_eq] at h
  rcases h with (((rfl | ⟨-, rfl⟩) | ⟨rfl, -⟩) | hk) | ⟨rfl, -⟩
  · exact .inl rfl
  · exact .inr (.inl rfl)
  · exact absurd hm (by decide)
  · exact .inr (.inr hk)
  · exact absurd hm (by decide)

/-- Minutes, before what is no word character. -/
theorem hasNumber_minutes {front n rest : List Char} (hn : Number n) (hfront : front.getLast?.any word = false) {c : Char}
    (hc : foldsTo 'm' c = true) (hrest : rest.head?.any word = false) : HasNumber (front ++ (n ++ c :: rest)) := by
  refine ⟨front, n, [c], rest, by simp, hn, .inr ⟨"m", by decide, .cons hc .nil⟩, hfront, ?_⟩
  have hword : word c = true := by
    rcases letters_folds (by decide) hc with rfl | rfl | ⟨hk, -⟩
    · rfl
    · rfl
    · cases hk
  rw [List.getLast?_concat, hrest, Option.any_some, hword]
  exact Bool.noConfusion

/-- A unit that lower-casing does not make needs a capital behind it. -/
theorem hasNumber_before {front n u : List Char} {k : Char} {more : List Char} (hn : Number n) (hu : IsUnit u)
    (hlast : u.getLast? = some '\u017f') (hfar : farCapital k = true) (hfront : front.getLast?.any wordLowered = false) :
    HasNumber (front ++ ((n ++ u) ++ k :: more)) ∨ HasLongSeconds (front ++ ((n ++ u) ++ k :: more)) := by
  have hleft := not_word_of_lowered hfront
  rw [List.append_assoc]
  rcases unit_longS hu hlast with rfl | ⟨m, hm, c, hc, rfl⟩
  · exact .inl (hasNumber_digits hn hleft rfl)
  · have hlong : c ∈ ['n', 'N', 'u', 'U'] → HasLongSeconds (front ++ (n ++ ([c, '\u017f'] ++ k :: more))) :=
      fun hmem => ⟨front, n, c, k, more, rfl, hn, hmem, hfar, hfront⟩
    simp only [List.mem_cons, List.not_mem_nil, or_false] at hm
    rcases hm with rfl | rfl | rfl | rfl
    · rcases letters_folds (by decide) hc with rfl | rfl | ⟨hk, -⟩
      · exact .inr (hlong (by decide))
      · exact .inr (hlong (by decide))
      · cases hk
    · rcases letters_folds (by decide) hc with rfl | rfl | ⟨hk, -⟩
      · exact .inr (hlong (by decide))
      · exact .inr (hlong (by decide))
      · cases hk
    · exact .inl (hasNumber_minutes hn hleft hc rfl)
    · refine .inl (hasNumber_digits hn hleft ?_)
      have hword : word c = false := by
        rw [← Bool.not_eq_true]
        intro hword
        have hnone : ∀ n < 128, foldsTo '\u00b5' (Char.ofNat n) = false := fun n hn => (folds_ascii n hn).1
        rw [ascii_all (P := fun c => foldsTo '\u00b5' c = false) hnone (word_ascii c hword)] at hc
        cases hc
      exact hword

theorem hasNumber_dotted {front n rest : List Char} {m k b : Char} (hn : Number n) (hm : m ∈ ['k', 'm', 'g'])
    (hk : foldsTo m k = true) (hb : foldsTo 'b' b = true) (hfront : front.getLast?.any wordLowered = false)
    (hrest : wordLowered b ≠ rest.head?.any wordLowered) :
    HasNumber (front ++ (n ++ ([k, '\u0130', b] ++ rest))) ∨
      HasDottedBytes (front ++ (n ++ ([k, '\u0130', b] ++ rest))) := by
  have hleft := not_word_of_lowered hfront
  have hbytes : b ∈ ['b', 'B'] := by
    rcases letters_folds (by decide) hb with rfl | rfl | ⟨hk, -⟩
    · decide
    · decide
    · cases hk
  have hend : rest.head?.any wordLowered = false := by
    have hall : ∀ b ∈ ['b', 'B'], wordLowered b = true := by decide
    rw [hall b hbytes] at hrest
    exact Bool.eq_false_iff.mpr (Ne.symm hrest)
  have hdotted : k ∈ ['k', 'K', 'g', 'G'] → HasDottedBytes (front ++ (n ++ ([k, '\u0130', b] ++ rest))) :=
    fun hmem => ⟨front, n, k, b, rest, rfl, hn, hmem, hbytes, hfront, hend⟩
  simp only [List.mem_cons, List.not_mem_nil, or_false] at hm
  rcases hm with rfl | rfl | rfl
  · rcases letters_folds (by decide) hk with rfl | rfl | ⟨-, rfl⟩
    · exact .inr (hdotted (by decide))
    · exact .inr (hdotted (by decide))
    · exact .inl (hasNumber_digits hn hleft rfl)
  · exact .inl (hasNumber_minutes hn hleft hk rfl)
  · rcases letters_folds (by decide) hk with rfl | rfl | ⟨hk, -⟩
    · exact .inr (hdotted (by decide))
    · exact .inr (hdotted (by decide))
    · cases hk

/-- A number in lower case: one before, or one that the lower case makes. -/
theorem hasNumber_of_lower (hlib : UnicodeLower lib) (h : HasNumber (lower lib text)) :
    HasNumber text ∨ HasDottedBytes text ∨ HasLongSeconds text := by
  obtain ⟨front', n', u', rest', htext, hn, hu, hfront, hend⟩ := h
  obtain ⟨front, l, rfl, rfl, hl⟩ := List.map_eq_append_iff.mp htext
  obtain ⟨l', rest, rfl, hl', rfl⟩ := List.map_eq_append_iff.mp hl
  obtain ⟨n, u, rfl, rfl, rfl⟩ := List.map_eq_append_iff.mp hl'
  replace hn : Number n := by
    refine ⟨fun hnil => hn.1 (by rw [hnil]; rfl), fun c hc => ?_⟩
    rw [← digit_lower hlib]
    exact hn.2 _ (List.mem_map_of_mem hc)
  replace hfront : front.getLast?.any wordLowered = false := by
    rw [← last_lower (word_lower hlib)]
    exact hfront
  replace hend : (n ++ u).getLast?.any wordLowered ≠ rest.head?.any wordLowered := by
    rw [← last_lower (word_lower hlib), ← head_lower (word_lower hlib), lower, List.map_append]
    exact hend
  rcases unit_lower hlib hu with hunit | ⟨m, hm, k, b, hk, hb, rfl⟩
  · by_cases hsame : (n ++ u).getLast?.any word = rest.head?.any word
    · have hlast := List.getLast?_eq_some_getLast (show n ++ u ≠ [] by simp [hn.1])
      obtain ⟨hlowered, hlong⟩ := number_last hn hunit hlast
      rw [hlast, Option.any_some] at hsame hend
      rw [hlowered, hsame] at hend
      cases rest with
      | nil => exact absurd rfl hend
      | cons k more =>
        replace hend : word k ≠ wordLowered k := hend
        have hword : word k = false := by
          rw [← Bool.not_eq_true]
          intro hword
          exact hend (by rw [hword, word_wordLowered hword])
        have hfar : farCapital k = true := by
          rw [hword, wordLowered, hword, Bool.false_or] at hend
          exact Bool.eq_true_of_not_eq_false hend.symm
        rcases hasNumber_before hn hunit (hlong (hsame.trans hword)) hfar hfront with h | h
        · exact .inl h
        · exact .inr (.inr h)
    · exact .inl ⟨front, n, u, rest, rfl, hn, hunit, not_word_of_lowered hfront, hsame⟩
  · have hb' : wordLowered b ≠ rest.head?.any wordLowered := by
      rw [List.getLast?_append_of_ne_nil _ (List.cons_ne_nil _ _)] at hend
      exact hend
    rw [List.append_assoc]
    rcases hasNumber_dotted hn hm hk hb hfront hb' with h | h
    · exact .inl h
    · exact .inr (.inl h)

theorem number_lower (hlib : UnicodeLower lib) {n : List Char} (hn : Number n) : Number (lower lib n) := by
  refine ⟨fun hnil => hn.1 (List.map_eq_nil_iff.mp hnil), fun c hc => ?_⟩
  obtain ⟨d, hd, rfl⟩ := List.mem_map.mp hc
  rw [digit_lower hlib]
  exact hn.2 d hd

theorem hasNumber_made (hlib : UnicodeLower lib) {front n u rest : List Char} (hn : Number n) (hu : IsUnit (lower lib u))
    (hfront : front.getLast?.any wordLowered = false)
    (hend : (n ++ u).getLast?.any wordLowered ≠ rest.head?.any wordLowered) :
    HasNumber (lower lib (front ++ (n ++ (u ++ rest)))) := by
  refine ⟨lower lib front, lower lib n, lower lib u, lower lib rest, ?_, number_lower hlib hn, hu, ?_, ?_⟩
  · simp only [lower, List.map_append, List.append_assoc]
  · rw [last_lower (word_lower hlib)]
    exact hfront
  · rw [← last_lower (word_lower hlib), ← head_lower (word_lower hlib), lower, List.map_append] at hend
    exact hend

theorem hasNumber_lower (hlib : UnicodeLower lib) (h : HasDottedBytes text ∨ HasLongSeconds text) :
    HasNumber (lower lib text) := by
  have hsmall : ∀ c ∈ ['k', 'K', 'g', 'G', 'b', 'B', 'n', 'N', 'u', 'U'], c.toNat < 128 := by decide
  rcases h with ⟨front, n, k, b, rest, rfl, hn, hk, hb, hfront, hrest⟩ | ⟨front, n, c, k, rest, rfl, hn, hc, hfar, hfront⟩
  · have hunit : IsUnit (lower lib [k, '\u0130', b]) := by
      have hunits : ∀ k ∈ ['k', 'K', 'g', 'G'], ∀ b ∈ ['b', 'B'], IsUnit [k.toLower, 'i', b.toLower] := by
        have hall : ∀ k ∈ ['k', 'K', 'g', 'G'], ∀ b ∈ ['b', 'B'], ∃ m ∈ units, m.toList = [k.toLower, 'i', b.toLower] ∧
            ∀ c ∈ m.toList, foldsTo c c = true := by decide
        intro k hk b hb
        obtain ⟨m, hm, hletters, hfolds⟩ := hall k hk b hb
        rw [← hletters]
        exact .inr ⟨m, hm, List.forall₂_same.mpr hfolds⟩
      have hk' : k ∈ ['k', 'K', 'g', 'G', 'b', 'B', 'n', 'N', 'u', 'U'] := List.mem_append_left _ hk
      have hb' : b ∈ ['k', 'K', 'g', 'G'] ++ ['b', 'B'] ++ ['n', 'N', 'u', 'U'] :=
        List.mem_append_left _ (List.mem_append_right _ hb)
      rw [lower, List.map_cons, List.map_cons, List.map_singleton, hlib.dotted, hlib.ascii k (hsmall k hk'),
        hlib.ascii b (hsmall b hb')]
      exact hunits k hk b hb
    refine hasNumber_made hlib hn hunit hfront ?_
    have hword : ∀ b ∈ ['b', 'B'], wordLowered b = true := by decide
    rw [List.getLast?_append_of_ne_nil _ (List.cons_ne_nil _ _), hrest]
    show wordLowered b ≠ false
    rw [hword b hb]
    exact Bool.noConfusion
  · have hunit : IsUnit (lower lib [c, '\u017f']) := by
      have hall : ∀ c ∈ ['n', 'N', 'u', 'U'], ∃ m ∈ units,
          m.toList ∈ (['n', 'u'].filter (foldsTo · c.toLower)).map ([·, 's']) := by decide
      obtain ⟨m, hm, hletters⟩ := hall c hc
      obtain ⟨d, hd, hletters⟩ := List.mem_map.mp hletters
      replace hd := (List.mem_filter.mp hd).2
      have hc' : c ∈ ['k', 'K', 'g', 'G', 'b', 'B'] ++ ['n', 'N', 'u', 'U'] := List.mem_append_right _ hc
      rw [lower, List.map_cons, List.map_singleton, (hlib.longS _).mpr rfl, hlib.ascii c (hsmall c hc')]
      refine .inr ⟨m, hm, ?_⟩
      rw [← hletters]
      exact .cons hd (.cons rfl .nil)
    have hend : wordLowered '\u017f' ≠ wordLowered k := by
      rw [wordLowered, wordLowered, hfar, Bool.or_true]
      exact Bool.noConfusion
    refine hasNumber_made hlib (u := [c, '\u017f']) hn hunit hfront ?_
    rw [List.getLast?_append_of_ne_nil _ (List.cons_ne_nil _ _)]
    exact hend

end Numbers

/-! ### A line in lower case -/

section Settled
variable {lib : Library} {text : List Char}

theorem quotes_lower (hlib : UnicodeLower lib) {q : Char} (hq : isQuote q = true) :
    (lower lib text).count q = text.count q := by
  have hquote : ∀ q ∈ ['"', '\'', '\x60'], q ∈ asciiMarks := by decide
  have hsame := lower_eq_iff hlib (hquote q (of_decide_eq_true hq))
  rw [List.count_eq_countP, List.count_eq_countP, lower, List.countP_map]
  refine congrArg (fun p => text.countP p) (funext fun c => ?_)
  rw [Function.comp_apply, Bool.eq_iff_iff, beq_iff_eq, beq_iff_eq]
  exact hsame c

theorem singleSpaces_lower (hlib : UnicodeLower lib) (h : SingleSpaces text) : SingleSpaces (lower lib text) := by
  obtain ⟨hspaces, hchain⟩ := h
  constructor
  · intro c hc hspace
    obtain ⟨d, hd, rfl⟩ := List.mem_map.mp hc
    rw [space_lower hlib] at hspace
    rw [hspaces d hd hspace]
    exact hlib.ascii ' ' (by decide)
  · refine (List.isChain_map lib.toLower).mpr (hchain.imp fun c d hcd => ?_)
    rw [space_lower hlib, space_lower hlib]
    exact hcd

/-- What is left is settled in lower case where the lower case makes no piece. -/
theorem settled_lower_iff (hlib : UnicodeLower lib) (h : Left text) : Settled (lower lib text) ↔ Stays text := by
  constructor
  · intro hsettled
    exact {
      capitalHex := fun hmade => hsettled.hexNumber ((hasHexNumber_lower hlib).mpr (.inr hmade))
      hash := fun hmade => hsettled.hash ((hasHash_lower hlib).mpr hmade)
      dottedBytes := fun hmade => hsettled.number (hasNumber_lower hlib (.inl hmade))
      longSeconds := fun hmade => hsettled.number (hasNumber_lower hlib (.inr hmade))
      farDrive := fun hmade => hsettled.path ((hasPath_lower hlib).mpr (.inr hmade)) }
  · intro hstays
    exact {
      quotes := fun q hq => by
        rw [quotes_lower hlib hq]
        exact h.quotes q hq
      hexNumber := fun hleft => ((hasHexNumber_lower hlib).mp hleft).elim h.hexNumber hstays.capitalHex
      hash := fun hleft => hstays.hash ((hasHash_lower hlib).mp hleft)
      path := fun hleft => ((hasPath_lower hlib).mp hleft).elim h.path hstays.farDrive
      number := fun hleft => (hasNumber_of_lower hlib hleft).elim h.number
        fun hmade => hmade.elim hstays.dottedBytes hstays.longSeconds
      spaces := singleSpaces_lower hlib h.spaces }

end Settled

end Marshal.Errsig
