import Marshal.Store

/-! Sizes.

A size is a decimal number and a unit, with blanks around them and in between. The number
is read into 64 bits and then multiplied by the unit, and the product wraps: what is
accepted is what the text denotes exactly if that fits (`size_exact_iff`). -/
namespace Marshal.Config
open Errsig

/-! ### What a size denotes -/

/-- The units, in upper case. -/
def units : List (List Char × Nat) :=
  [([], 1), (['B'], 1), (['K'], 2 ^ 10), (['K', 'B'], 2 ^ 10), (['M'], 2 ^ 20), (['M', 'B'], 2 ^ 20),
    (['G'], 2 ^ 30), (['G', 'B'], 2 ^ 30)]

def Blank (s : List Char) : Prop := ∀ c ∈ s, unicodeSpace c = true

/-- A text denotes a number of units: a blank one none, any other by its digits and its unit. -/
inductive Denotes : List Char → Nat → Nat → Prop where
  | blank {s : List Char} (h : Blank s) : Denotes s 0 1
  | size {front digits gap unit back : List Char} {mult : Nat} (hfront : Blank front)
      (hdigits : ∀ c ∈ digits, c.isDigit = true) (hne : digits ≠ []) (hgap : Blank gap)
      (hunit : (unit.map Char.toUpper, mult) ∈ units) (hback : Blank back) :
      Denotes (front ++ (digits ++ gap ++ unit) ++ back) (Decimal.value digits) mult

/-! ### Characters -/

/-- Only a small letter has another upper case, and that is a capital one. -/
theorem toUpper_eq {c d : Char} (h : c.toUpper = d) (hd : ¬ (65 ≤ d.toNat ∧ d.toNat ≤ 90)) : c = d := by
  unfold Char.toUpper at h
  split at h
  · rename_i hlower
    have hlow : 97 ≤ c.val.toNat := hlower.1
    have hhigh : c.val.toNat ≤ 122 := hlower.2
    have hupper : d.toNat = (c.val.toNat + (2 ^ 32 - 32)) % 2 ^ 32 := by
      rw [← h]
      exact UInt32.toNat_add _ _
    omega
  · exact h

theorem digit_of_toUpper {c : Char} (h : c.toUpper.isDigit = true) : c.isDigit = true := by
  have hrange := h
  simp only [Char.isDigit, Bool.and_eq_true, decide_eq_true_eq] at hrange
  have hhigh : c.toUpper.toNat ≤ 57 := hrange.2
  rwa [toUpper_eq (c := c) rfl (by omega)]

theorem space_of_toUpper {c : Char} (h : unicodeSpace c.toUpper = true) : unicodeSpace c = true := by
  have hrange := space_range h
  rwa [toUpper_eq (c := c) rfl (by omega)]

theorem space_toUpper {c : Char} (h : unicodeSpace c = true) : c.toUpper = c := by
  have hrange := space_range h
  unfold Char.toUpper
  rw [dif_neg]
  intro hlower
  have hlow : 97 ≤ c.toNat := hlower.1
  have hhigh : c.toNat ≤ 122 := hlower.2
  omega

/-! ### The unit -/

/-- The unit is found behind a text that does not end in one of the units' letters. -/
theorem sizeUnit_append {x unit : List Char} {mult : Nat} (hx : x ≠ [])
    (hlast : ∀ c ∈ x.getLast?, c ∉ ['G', 'M', 'K', 'B']) (hunit : (unit, mult) ∈ units) :
    sizeUnit (x ++ unit) = (mult, x) := by
  obtain ⟨front, c, rfl⟩ : ∃ front c, x = front ++ [c] := ⟨_, _, (List.dropLast_concat_getLast hx).symm⟩
  have hc : c ∉ ['G', 'M', 'K', 'B'] := hlast c (by simp)
  have hne : ∀ d ∈ ['G', 'M', 'K', 'B'], (d == c) = false := by
    intro d hd
    exact beq_false_of_ne fun heq => hc (heq ▸ hd)
  have htake : ∀ rest, (front ++ c :: rest).take (front.length + 1) = front ++ [c] := by
    intro rest
    simp [List.take_append]
  simp only [units, List.mem_cons, Prod.mk.injEq, List.not_mem_nil, or_false] at hunit
  rcases hunit with ⟨rfl, rfl⟩ | ⟨rfl, rfl⟩ | ⟨rfl, rfl⟩ | ⟨rfl, rfl⟩ | ⟨rfl, rfl⟩ | ⟨rfl, rfl⟩ |
    ⟨rfl, rfl⟩ | ⟨rfl, rfl⟩ <;>
  simp [sizeUnit, List.find?, List.isSuffixOf, List.isPrefixOf, hne 'G', hne 'M', hne 'K', hne 'B', htake]

/-- And what is found is one of them. -/
theorem sizeUnit_mem (upper : List Char) :
    ∃ unit, upper = (sizeUnit upper).2 ++ unit ∧ (unit, (sizeUnit upper).1) ∈ units := by
  unfold sizeUnit
  simp only
  split
  · rename_i s hfind
    have hsuffix : s.1 <:+ upper := List.isSuffixOf_iff_suffix.mp (by simpa using List.find?_some hfind)
    refine ⟨s.1, ?_, ?_⟩
    · obtain ⟨front, rfl⟩ := hsuffix
      simp
    · have hmem := List.mem_of_find?_eq_some hfind
      simp only [List.mem_cons, List.not_mem_nil, or_false] at hmem
      rcases hmem with rfl | rfl | rfl | rfl | rfl | rfl | rfl <;> simp [units]
  · exact ⟨[], (List.append_nil upper).symm, List.mem_cons_self⟩

/-! ### What is accepted -/

theorem ParseUint_some {s : List Char} {n : Nat} :
    ParseUint s = some n ↔ s ≠ [] ∧ (∀ c ∈ s, c.isDigit = true) ∧ Decimal.value s = n ∧ n < 2 ^ 64 := by
  unfold ParseUint
  split
  · rename_i h
    refine ⟨nofun, fun hsome => ?_⟩
    obtain ⟨hne, hdigits, -⟩ := hsome
    rcases h with h | h
    · exact absurd h hne
    · obtain ⟨c, hc, hnot⟩ := List.any_eq_true.mp h
      rw [hdigits c hc] at hnot
      cases hnot
  · rename_i h
    obtain ⟨hne, hany⟩ := not_or.mp h
    have hdigits : ∀ c ∈ s, c.isDigit = true := by
      intro c hc
      by_contra hnot
      exact hany (List.any_eq_true.mpr ⟨c, hc, by simpa using hnot⟩)
    split
    · rename_i hlt
      constructor
      · rintro ⟨⟩
        exact ⟨hne, hdigits, rfl, hlt⟩
      · rintro ⟨-, -, rfl, -⟩
        rfl
    · rename_i hlt
      refine ⟨nofun, ?_⟩
      rintro ⟨-, -, rfl, hsmall⟩
      exact absurd hsmall hlt

theorem map_space {s : List Char} (h : Blank s) : s.map Char.toUpper = s := by
  conv_rhs => rw [← List.map_id s]
  exact List.map_congr_left fun c hc => space_toUpper (h c hc)

theorem unit_letters {unit : List Char} {mult : Nat} (h : (unit, mult) ∈ units) :
    ∀ c ∈ unit, c ∈ ['G', 'M', 'K', 'B'] := by
  simp only [units, List.mem_cons, Prod.mk.injEq, List.not_mem_nil, or_false] at h
  rcases h with ⟨rfl, -⟩ | ⟨rfl, -⟩ | ⟨rfl, -⟩ | ⟨rfl, -⟩ | ⟨rfl, -⟩ | ⟨rfl, -⟩ | ⟨rfl, -⟩ | ⟨rfl, -⟩ <;> simp

/-- No letter of a unit is a digit or a blank. -/
theorem letter_plain {c : Char} (h : c ∈ ['G', 'M', 'K', 'B']) :
    c.isDigit = false ∧ unicodeSpace c = false := by
  simp only [List.mem_cons, List.not_mem_nil, or_false] at h
  rcases h with rfl | rfl | rfl | rfl <;> decide

theorem unit_plain {unit : List Char} {mult : Nat} (hunit : (unit.map Char.toUpper, mult) ∈ units) :
    ∀ c ∈ unit, unicodeSpace c = false := by
  intro c hc
  have hspace := (letter_plain (unit_letters hunit _ (List.mem_map_of_mem hc))).2
  by_contra hnot
  rw [space_toUpper (Bool.not_eq_false _ ▸ hnot)] at hspace
  exact hnot hspace

/-- A size without the blanks around it: those before a unit stay. -/
theorem trimSpace_size {front digits gap unit back : List Char} {mult : Nat} (hfront : Blank front)
    (hdigits : ∀ c ∈ digits, c.isDigit = true) (hne : digits ≠ []) (hgap : Blank gap)
    (hunit : (unit.map Char.toUpper, mult) ∈ units) (hback : Blank back) :
    ∃ gap', Blank gap' ∧
      Errsig.trimSpace (front ++ (digits ++ gap ++ unit) ++ back) = digits ++ gap' ++ unit := by
  have htrim : Errsig.trimSpace (front ++ (digits ++ gap ++ unit) ++ back) =
      Trim.trim unicodeSpace (digits ++ gap ++ unit) := Trim.trim_append hfront hback
  rw [htrim]
  by_cases hempty : unit = []
  · subst hempty
    refine ⟨[], fun c hc => absurd hc List.not_mem_nil, ?_⟩
    have hnil : Blank [] := fun c hc => absurd hc List.not_mem_nil
    rw [List.append_nil, List.append_nil, List.append_nil, ← List.nil_append (digits ++ gap),
      ← List.append_assoc, Trim.trim_append hnil hgap]
    exact trimSpace_digits hdigits
  · refine ⟨gap, hgap, Trim.trim_eq_self ⟨fun c hc => ?_, fun c hc => ?_⟩⟩
    · rw [List.append_assoc, List.head?_append_of_ne_nil _ hne] at hc
      exact (digit_plain (hdigits c (List.mem_of_mem_head? hc))).1
    · rw [List.getLast?_append_of_ne_nil _ hempty] at hc
      exact unit_plain hunit c (List.mem_of_getLast? hc)

/-- The number and the unit as the parser reads them. -/
def read (s : List Char) : Nat × Nat :=
  let u := sizeUnit ((Errsig.trimSpace s).map Char.toUpper)
  (Decimal.value (Errsig.trimSpace u.2), u.1)

/-- The digits of a size are found, and the unit. -/
theorem size_read {digits gap unit : List Char} {mult : Nat}
    (hdigits : ∀ c ∈ digits, c.isDigit = true) (hne : digits ≠ []) (hgap : Blank gap)
    (hunit : (unit.map Char.toUpper, mult) ∈ units) :
    (sizeUnit ((digits ++ gap ++ unit).map Char.toUpper)).1 = mult ∧
      Errsig.trimSpace (sizeUnit ((digits ++ gap ++ unit).map Char.toUpper)).2 = digits := by
  have hlast : ∀ c ∈ (digits ++ gap).getLast?, c ∉ ['G', 'M', 'K', 'B'] := by
    intro c hc hletter
    obtain ⟨hdigit, hspace⟩ := letter_plain hletter
    rcases List.mem_append.mp (List.mem_of_getLast? hc) with hc | hc
    · rw [hdigits c hc] at hdigit
      cases hdigit
    · rw [hgap c hc] at hspace
      cases hspace
  have hunits := sizeUnit_append (by simp [hne]) hlast hunit
  have hnil : Blank [] := fun c hc => absurd hc List.not_mem_nil
  rw [List.map_append, List.map_append, toUpper_digits hdigits, map_space hgap, hunits]
  refine ⟨rfl, ?_⟩
  have htrim : Errsig.trimSpace ([] ++ digits ++ gap) = Errsig.trimSpace digits :=
    Trim.trim_append hnil hgap
  rw [List.nil_append, trimSpace_digits hdigits] at htrim
  exact htrim

theorem denotes_read {s : List Char} {n mult : Nat} (h : Denotes s n mult) : read s = (n, mult) := by
  cases h with
  | blank hblank =>
    unfold read
    rw [show Errsig.trimSpace s = [] from Trim.trim_all hblank]
    rfl
  | size hfront hdigits hne hgap hunit hback =>
    obtain ⟨gap', hgap', htrim⟩ := trimSpace_size hfront hdigits hne hgap hunit hback
    obtain ⟨hmult, hvalue⟩ := size_read hdigits hne hgap' hunit
    unfold read
    simp only [htrim, hmult, hvalue]

/-- A text that is accepted denotes a number below `2^64`, and the answer is its product with the unit,
wrapped. -/
theorem parseByteSize_iff {s : List Char} {r : Nat} : parseByteSize s = some r ↔
    ∃ n mult, Denotes s n mult ∧ n < 2 ^ 64 ∧ r = n * mult % 2 ^ 64 := by
  constructor
  · intro h
    obtain ⟨front, back, hfront, hback, hs⟩ := Trim.split_trim unicodeSpace s
    unfold parseByteSize at h
    simp only at h
    split at h
    · rename_i hempty
      obtain rfl := Option.some.inj h
      have hblank : Blank s := by
        intro c hc
        rw [hs, show Trim.trim unicodeSpace s = [] from hempty, List.append_nil] at hc
        exact (List.mem_append.mp hc).elim (hfront c) (hback c)
      exact ⟨0, 1, .blank hblank, by decide, rfl⟩
    · obtain ⟨n, hn, rfl⟩ := Option.map_eq_some_iff.mp h
      obtain ⟨hne, hdigits, rfl, hlt⟩ := ParseUint_some.mp hn
      obtain ⟨unit, hunit, hmem⟩ := sizeUnit_mem ((Errsig.trimSpace s).map Char.toUpper)
      obtain ⟨front', back', hfront', hback', hx⟩ :=
        Trim.split_trim unicodeSpace (sizeUnit ((Errsig.trimSpace s).map Char.toUpper)).2
      rw [hx] at hunit
      -- the parts of the text in upper case are those of the text
      obtain ⟨abc, unit', habc, habc', rfl⟩ := List.map_eq_append_iff.mp hunit
      obtain ⟨ab, gap, rfl, hab, rfl⟩ := List.map_eq_append_iff.mp habc'
      obtain ⟨lead, digits, rfl, rfl, hds⟩ := List.map_eq_append_iff.mp hab
      have hlead : Blank lead := fun c hc => space_of_toUpper (hfront' _ (List.mem_map_of_mem hc))
      have hgap : Blank gap := fun c hc => space_of_toUpper (hback' _ (List.mem_map_of_mem hc))
      have hdigits' : ∀ c ∈ digits, c.isDigit = true := by
        intro c hc
        refine digit_of_toUpper (hdigits _ ?_)
        rw [show Errsig.trimSpace _ = digits.map Char.toUpper from hds.symm]
        exact List.mem_map_of_mem hc
      rw [toUpper_digits hdigits'] at hds
      rw [show Errsig.trimSpace _ = digits from hds.symm] at hne hlt ⊢
      have hfull : s = (front ++ lead) ++ (digits ++ gap ++ unit') ++ back := by
        rw [hs, show Trim.trim unicodeSpace s = _ from habc]
        simp only [List.append_assoc]
      have hblank : Blank (front ++ lead) := fun c hc => (List.mem_append.mp hc).elim (hfront c) (hlead c)
      have hdenotes := Denotes.size hblank hdigits' hne hgap hmem hback
      rw [← hfull] at hdenotes
      exact ⟨_, _, hdenotes, hlt, rfl⟩
  · rintro ⟨n, mult, h, hlt, rfl⟩
    cases h with
    | blank hblank =>
      unfold parseByteSize
      simp only [show Errsig.trimSpace s = [] from Trim.trim_all hblank, if_true]
      rfl
    | size hfront hdigits hne hgap hunit hback =>
      obtain ⟨gap', hgap', htrim⟩ := trimSpace_size hfront hdigits hne hgap hunit hback
      obtain ⟨hmult, hvalue⟩ := size_read hdigits hne hgap' hunit
      unfold parseByteSize
      simp only [htrim, hmult, hvalue]
      rw [if_neg (by simp [hne]), ParseUint_some.mpr ⟨hne, hdigits, rfl, hlt⟩]
      rfl

/-- **Every size that is accepted is the exact value of the text and below `2^64`, exactly if the value
fits into 64 bits wherever the number alone does.** -/
theorem size_exact_iff (s : List Char) :
    (∀ r, parseByteSize s = some r → ∃ n mult, Denotes s n mult ∧ r = n * mult ∧ r < 2 ^ 64) ↔
      ∀ n mult, Denotes s n mult → n < 2 ^ 64 → n * mult < 2 ^ 64 := by
  constructor
  · intro hexact n mult hdenotes hlt
    obtain ⟨n', mult', hdenotes', hr, hsmall⟩ := hexact _ (parseByteSize_iff.mpr ⟨n, mult, hdenotes, hlt, rfl⟩)
    have hsame := (denotes_read hdenotes).symm.trans (denotes_read hdenotes')
    obtain ⟨rfl, rfl⟩ := Prod.mk.inj hsame
    rw [← hr]
    exact hsmall
  · intro hfits r h
    obtain ⟨n, mult, hdenotes, hlt, rfl⟩ := parseByteSize_iff.mp h
    have hsmall := hfits n mult hdenotes hlt
    exact ⟨n, mult, hdenotes, Nat.mod_eq_of_lt hsmall, by rwa [Nat.mod_eq_of_lt hsmall]⟩

/-- 2^34 gigabytes are taken as no limit at all, and one more gigabyte as one gigabyte. -/
theorem size_wraps :
    parseByteSize "17179869184G".toList = some 0 ∧ parseByteSize "17179869185 gb".toList = some (2 ^ 30) ∧
    ¬ ∀ r, parseByteSize "17179869184G".toList = some r →
      ∃ n mult, Denotes "17179869184G".toList n mult ∧ r = n * mult ∧ r < 2 ^ 64 := by
  have hzero : parseByteSize "17179869184G".toList = some 0 := by decide +kernel
  refine ⟨hzero, by decide +kernel, fun hexact => ?_⟩
  obtain ⟨n, mult, hdenotes, hr, -⟩ := hexact 0 hzero
  have hread := denotes_read hdenotes
  rw [show read "17179869184G".toList = (2 ^ 34, 2 ^ 30) by decide +kernel] at hread
  obtain ⟨rfl, rfl⟩ := Prod.mk.inj hread
  cases hr

end Marshal.Config
