import Mathlib.Algebra.Group.Int.Defs
import Marshal.Lib.Decimal

/-! Durations and their texts.

A duration is a 64-bit number of nanoseconds. It is printed as hours, minutes and
seconds, or in one smaller unit below a second, and parsed as a sequence of numbers
with units. What is printed is parsed as the same duration. -/
namespace Marshal.Duration
open Decimal

/-! ### Printing -/

/-- `fmtFrac`: the point and the last `places` digits, nothing if they are all zero. -/
def fmtFrac (v places : Nat) : List Char :=
  match fraction places v false with
  | [] => []
  | ds => '.' :: ds

/-- A number of `unit`s, of which `v` has the last `places` digits behind the point. -/
def part (v places : Nat) (unit : List Char) : List Char :=
  Nat.toDigits 10 (v / 10 ^ places) ++ fmtFrac v places ++ unit

def Microsecond : Nat := 1000
def Millisecond : Nat := 1000 * Microsecond
def Second : Nat := 1000 * Millisecond
def Minute : Nat := 60 * Second
def Hour : Nat := 60 * Minute

def magnitude (u : Nat) : List Char :=
  if u < Second then
    if u = 0 then ['0', 's']
    else if u < Microsecond then part u 0 ['n', 's']
    else if u < Millisecond then part u 3 ['µ', 's']
    else part u 6 ['m', 's']
  else
    (if u < Hour then [] else part (u / Hour) 0 ['h']) ++
      ((if u < Minute then [] else part (u / Minute % 60) 0 ['m']) ++ part (u % Minute) 9 ['s'])

/-- `Duration.String` -/
def text (d : Int) : String :=
  String.ofList (if d < 0 then '-' :: magnitude d.natAbs else magnitude d.natAbs)

/-! ### Parsing -/

def unitMap (u : List Char) : Option Nat :=
  if u = ['n', 's'] then some 1
  else if u = ['u', 's'] then some Microsecond
  else if u = ['µ', 's'] then some Microsecond
  else if u = ['μ', 's'] then some Microsecond
  else if u = ['m', 's'] then some Millisecond
  else if u = ['s'] then some Second
  else if u = ['m'] then some Minute
  else if u = ['h'] then some Hour
  else none

/-- A unit goes on up to a point or a digit. -/
def unitChar (c : Char) : Bool := !(c == '.' || c.isDigit)

/-- The digits behind a point, if one stands at the front. -/
def leadingFraction : List Char → List Char × List Char
  | '.' :: rest => leading rest
  | s => ([], s)

/-- One number and its unit at the front: its nanoseconds, and the rest. -/
def parsePart (s : List Char) : Option (Nat × List Char) :=
  let (ds, s) := leading s
  let (fs, s) := leadingFraction s
  if 2 ^ 63 < value ds then none
  else if ds = [] ∧ fs = [] then none
  else match unitMap (s.takeWhile unitChar) with
    | none => none
    | some unit =>
      let v := value ds * unit + value fs * unit / 10 ^ fs.length
      if 2 ^ 63 / unit < value ds ∨ 2 ^ 63 < v then none else some (v, s.dropWhile unitChar)

/-- The parts add up to `d` so far. Each takes at least one character. -/
def parseParts : Nat → Nat → List Char → Option Nat
  | _, d, [] => some d
  | 0, _, _ => none
  | fuel + 1, d, s => do
    let (v, rest) ← parsePart s
    if 2 ^ 63 < d + v then none else parseParts fuel (d + v) rest

def sign : List Char → Bool × List Char
  | '-' :: rest => (true, rest)
  | '+' :: rest => (false, rest)
  | s => (false, s)

/-- `time.ParseDuration` -/
def ParseDuration (s : String) : Option Int :=
  let (neg, cs) := sign s.toList
  if cs = ['0'] then some 0
  else if cs = [] then none
  else do
    let d ← parseParts cs.length 0 cs
    if neg then some (-(d : Int)) else if 2 ^ 63 - 1 < d then none else some d

/-! ### A number with its unit -/

theorem unit_chars {u : List Char} {n : Nat} (h : unitMap u = some n) :
    u ≠ [] ∧ ∀ c ∈ u, unitChar c = true := by
  have hu : u = ['n', 's'] ∨ u = ['u', 's'] ∨ u = ['µ', 's'] ∨ u = ['μ', 's'] ∨ u = ['m', 's'] ∨
      u = ['s'] ∨ u = ['m'] ∨ u = ['h'] := by
    by_contra hnone
    simp only [not_or] at hnone
    simp only [unitMap, hnone, if_false] at h
    cases h
  rcases hu with rfl | rfl | rfl | rfl | rfl | rfl | rfl | rfl <;>
    exact ⟨by simp, by simp [unitChar]⟩

/-- A unit ends before the next number and at the end of the text. -/
def UnitEnds (s : List Char) : Prop := ∀ c rest, s = c :: rest → unitChar c = false

theorem takeUnit {u s : List Char} (hu : ∀ c ∈ u, unitChar c = true) (hs : UnitEnds s) :
    (u ++ s).takeWhile unitChar = u ∧ (u ++ s).dropWhile unitChar = s := by
  have hfront : s.takeWhile unitChar = [] ∧ s.dropWhile unitChar = s := by
    cases s with
    | nil => exact ⟨rfl, rfl⟩
    | cons c rest => simp [hs c rest rfl]
  rw [List.takeWhile_append_of_pos hu, List.dropWhile_append_of_pos hu, hfront.1, hfront.2]
  exact ⟨List.append_nil u, rfl⟩

theorem stops_unit {u s : List Char} (hne : u ≠ []) (hu : ∀ c ∈ u, unitChar c = true) :
    Stops (u ++ s) := by
  cases u with
  | nil => exact absurd rfl hne
  | cons c rest =>
    have hc : unitChar c = true := hu c (by simp)
    simp only [unitChar, Bool.not_eq_true', Bool.or_eq_false_iff] at hc
    exact stops_cons hc.2

theorem leadingFraction_fmtFrac (v places : Nat) {u s : List Char} (hne : u ≠ [])
    (hu : ∀ c ∈ u, unitChar c = true) :
    leadingFraction (fmtFrac v places ++ (u ++ s)) = (fraction places v false, u ++ s) := by
  have hstops : Stops (u ++ s) := stops_unit hne hu
  unfold fmtFrac
  cases hfraction : fraction places v false with
  | nil =>
    cases u with
    | nil => exact absurd rfl hne
    | cons c rest =>
      have hdot : c ≠ '.' := by
        rintro rfl
        exact absurd (hu '.' (by simp)) (by decide)
      simp only [List.nil_append, List.cons_append, leadingFraction]
      split
      · rename_i heq
        exact absurd (List.cons.inj heq).1 hdot
      · rfl
  | cons d ds =>
    show leading (d :: ds ++ (u ++ s)) = _
    refine leading_append ?_ hstops
    rw [← hfraction]
    exact isDigit_fraction places v false

theorem stops_fmtFrac (v places : Nat) {s : List Char} (hs : Stops s) :
    Stops (fmtFrac v places ++ s) := by
  unfold fmtFrac
  split
  · exact hs
  · exact stops_cons rfl

/-- The digits before the point and those behind it make up the number. -/
theorem scaled {v places k : Nat} :
    v / 10 ^ places * (10 ^ places * k) + value (fraction places v false) * (10 ^ places * k) /
      10 ^ (fraction places v false).length = v * k := by
  obtain ⟨hlength, hvalue⟩ := value_fraction places v false
  have hpow : 10 ^ places = 10 ^ (fraction places v false).length *
      10 ^ (places - (fraction places v false).length) := by
    rw [← Nat.pow_add, Nat.add_sub_cancel' hlength]
  have hfrac : value (fraction places v false) * (10 ^ places * k) /
      10 ^ (fraction places v false).length = v % 10 ^ places * k := by
    rw [← hvalue]
    apply Nat.div_eq_of_eq_mul_right (Nat.pow_pos (by decide))
    rw [hpow, Nat.mul_assoc, Nat.mul_left_comm, Nat.mul_assoc]
  calc v / 10 ^ places * (10 ^ places * k) + _ = v / 10 ^ places * (10 ^ places * k) +
        v % 10 ^ places * k := by rw [hfrac]
    _ = (10 ^ places * (v / 10 ^ places) + v % 10 ^ places) * k := by
        rw [Nat.add_mul]
        congr 1
        ac_rfl
    _ = v * k := by rw [Nat.div_add_mod]

theorem parsePart_part {v places k : Nat} {u rest : List Char}
    (hu : unitMap u = some (10 ^ places * k)) (hk : 0 < k) (hrest : UnitEnds rest)
    (hsmall : v * k ≤ 2 ^ 63) : parsePart (part v places u ++ rest) = some (v * k, rest) := by
  obtain ⟨hne, hchars⟩ := unit_chars hu
  have hstops : Stops (fmtFrac v places ++ (u ++ rest)) :=
    stops_fmtFrac v places (stops_unit hne hchars)
  have hleading : leading (part v places u ++ rest) =
      (Nat.toDigits 10 (v / 10 ^ places), fmtFrac v places ++ (u ++ rest)) := by
    rw [part, List.append_assoc, List.append_assoc]
    exact leading_append (isDigit_toDigits _) hstops
  have hunit : 0 < 10 ^ places * k := Nat.mul_pos (Nat.pow_pos (by decide)) hk
  have hwhole : v / 10 ^ places * (10 ^ places * k) ≤ 2 ^ 63 := by
    refine Nat.le_trans ?_ hsmall
    rw [← Nat.mul_assoc]
    exact Nat.mul_le_mul_right k (Nat.div_mul_le_self v _)
  have hvalue : v / 10 ^ places ≤ 2 ^ 63 :=
    Nat.le_trans (Nat.le_mul_of_pos_right _ hunit) hwhole
  obtain ⟨htake, hdrop⟩ := takeUnit hchars hrest
  unfold parsePart
  simp only [hleading, leadingFraction_fmtFrac v places hne hchars, value_toDigits, htake, hdrop,
    hu, scaled]
  rw [if_neg (Nat.not_lt.mpr hvalue), if_neg (fun h => toDigits_ne_nil _ h.1), if_neg]
  simp only [not_or, Nat.not_lt]
  exact ⟨(Nat.le_div_iff_mul_le hunit).mpr hwhole, hsmall⟩

/-! ### The whole text -/

theorem unitEnds_part (v places : Nat) (u rest : List Char) :
    UnitEnds (part v places u ++ rest) := by
  intro c more heq
  rw [part, List.append_assoc, List.append_assoc] at heq
  cases hdigits : Nat.toDigits 10 (v / 10 ^ places) with
  | nil => exact absurd hdigits (toDigits_ne_nil _)
  | cons d ds =>
    rw [hdigits, List.cons_append] at heq
    have hdigit : d.isDigit = true := isDigit_toDigits _ d (by rw [hdigits]; simp)
    rw [← (List.cons.inj heq).1]
    simp [unitChar, hdigit]

theorem part_ne_nil (v places : Nat) (u rest : List Char) : part v places u ++ rest ≠ [] := by
  intro h
  exact toDigits_ne_nil _ (List.append_eq_nil_iff.mp (List.append_eq_nil_iff.mp
    (List.append_eq_nil_iff.mp h).1).1).1

theorem parseParts_part {fuel d v places k : Nat} {u rest : List Char}
    (hu : unitMap u = some (10 ^ places * k)) (hk : 0 < k) (hrest : UnitEnds rest)
    (hsmall : d + v * k ≤ 2 ^ 63) :
    parseParts (fuel + 1) d (part v places u ++ rest) = parseParts fuel (d + v * k) rest := by
  have hpart := @parsePart_part v places k u rest hu hk hrest
    (Nat.le_trans (Nat.le_add_left _ _) hsmall)
  cases hlist : part v places u ++ rest with
  | nil => exact absurd hlist (part_ne_nil v places u rest)
  | cons c cs =>
    rw [hlist] at hpart
    simp only [parseParts, hpart, Option.bind_eq_bind, Option.bind_some]
    rw [if_neg (Nat.not_lt.mpr hsmall)]

theorem parseParts_nil (fuel d : Nat) : parseParts fuel d [] = some d := by
  cases fuel <;> rfl

/-- One part is the whole text. -/
theorem parseParts_last {fuel d v places k : Nat} {u : List Char}
    (hu : unitMap u = some (10 ^ places * k)) (hk : 0 < k) (hsmall : d + v * k ≤ 2 ^ 63) :
    parseParts (fuel + 1) d (part v places u) = some (d + v * k) := by
  have h := @parseParts_part fuel d v places k u [] hu hk (by intro c rest heq; cases heq) hsmall
  rwa [List.append_nil, parseParts_nil] at h

theorem length_part (v places : Nat) (u rest : List Char) :
    rest.length + 1 ≤ (part v places u ++ rest).length := by
  have h : (part v places u).length ≠ 0 := by
    intro hzero
    have hnil := part_ne_nil v places u []
    rw [List.append_nil] at hnil
    exact hnil (List.length_eq_zero_iff.mp hzero)
  rw [List.length_append]
  omega

theorem parse_part {fuel d v places k : Nat} {u : List Char}
    (hu : unitMap u = some (10 ^ places * k)) (hk : 0 < k) (hsmall : d + v * k ≤ 2 ^ 63)
    (hfuel : (part v places u).length ≤ fuel) :
    parseParts fuel d (part v places u) = some (d + v * k) := by
  have hlength := length_part v places u []
  rw [List.append_nil, List.length_nil] at hlength
  obtain ⟨n, rfl⟩ : ∃ n, fuel = n + 1 := ⟨fuel - 1, by omega⟩
  exact parseParts_last hu hk hsmall

section Clock
variable (u : Nat)

def seconds : List Char := part (u % Minute) 9 ['s']
def minutes : List Char := if u < Minute then [] else part (u / Minute % 60) 0 ['m']

theorem unitEnds_seconds : UnitEnds (seconds u) := by
  have h := unitEnds_part (u % Minute) 9 ['s'] []
  rwa [List.append_nil] at h

theorem unitEnds_clock : UnitEnds (minutes u ++ seconds u) := by
  unfold minutes
  split
  · exact unitEnds_seconds u
  · exact unitEnds_part _ _ _ _

theorem parse_seconds {fuel d : Nat} (hsmall : d + u % Minute ≤ 2 ^ 63)
    (hfuel : (seconds u).length ≤ fuel) : parseParts fuel d (seconds u) = some (d + u % Minute) := by
  have h := @parse_part fuel d (u % Minute) 9 1 ['s'] rfl Nat.one_pos (by omega) hfuel
  rwa [Nat.mul_one] at h

theorem parse_minutes {fuel d : Nat} (hsmall : d + u % Hour ≤ 2 ^ 63)
    (hfuel : (minutes u ++ seconds u).length ≤ fuel) :
    parseParts fuel d (minutes u ++ seconds u) = some (d + u % Hour) := by
  have hclock : u % Hour = u / Minute % 60 * Minute + u % Minute := by
    simp only [Hour, Minute, Second, Millisecond, Microsecond]
    omega
  unfold minutes at hfuel ⊢
  split
  · rename_i hless
    have hzero : u / Minute % 60 = 0 := by rw [Nat.div_eq_of_lt hless]
    rw [if_pos hless] at hfuel
    rw [hclock, hzero, Nat.zero_mul, Nat.zero_add] at hsmall ⊢
    exact parse_seconds u hsmall hfuel
  · rename_i hmore
    rw [if_neg hmore] at hfuel
    have hlength := length_part (u / Minute % 60) 0 ['m'] (seconds u)
    obtain ⟨n, rfl⟩ : ∃ n, fuel = n + 1 := ⟨fuel - 1, by omega⟩
    rw [parseParts_part (k := Minute) rfl (by decide) (unitEnds_seconds u) (by omega),
      parse_seconds u (by omega) (by omega)]
    congr 1
    omega

end Clock

theorem parse_magnitude {u : Nat} (hu : u ≤ 2 ^ 63) :
    parseParts (magnitude u).length 0 (magnitude u) = some u := by
  have hsingle : ∀ places (unit : List Char), unitMap unit = some (10 ^ places * 1) →
      parseParts (part u places unit).length 0 (part u places unit) = some u := by
    intro places unit hunit
    rw [parse_part hunit Nat.one_pos (by omega) (Nat.le_refl _)]
    simp
  unfold magnitude
  split
  · split
    · rename_i hzero
      subst hzero
      exact hsingle 9 ['s'] rfl
    · split
      · exact hsingle 0 _ rfl
      · split
        · exact hsingle 3 _ rfl
        · exact hsingle 6 _ rfl
  · show parseParts (_ ++ (minutes u ++ seconds u)).length 0 (_ ++ (minutes u ++ seconds u)) = _
    split
    · rename_i hless
      rw [List.nil_append, parse_minutes u (by rw [Nat.mod_eq_of_lt hless]; omega) (Nat.le_refl _),
        Nat.mod_eq_of_lt hless, Nat.zero_add]
    · have hlength := length_part (u / Hour) 0 ['h'] (minutes u ++ seconds u)
      have hclock : u / Hour * Hour + u % Hour = u := by
        rw [Nat.mul_comm]
        exact Nat.div_add_mod u Hour
      obtain ⟨n, hn⟩ : ∃ n, (part (u / Hour) 0 ['h'] ++ (minutes u ++ seconds u)).length = n + 1 :=
        ⟨_, (Nat.sub_add_cancel (by omega)).symm⟩
      rw [hn, parseParts_part (k := Hour) rfl (by decide) (unitEnds_clock u) (by omega),
        parse_minutes u (by omega) (by omega)]
      congr 1
      omega

/-- A number stands at the front, and more than a lone zero. -/
theorem magnitude_front (u : Nat) :
    ∃ c rest, magnitude u = c :: rest ∧ c.isDigit = true ∧ rest ≠ [] := by
  have hpart : ∀ v places (unit rest : List Char), unit ≠ [] →
      ∃ c more, part v places unit ++ rest = c :: more ∧ c.isDigit = true ∧ more ≠ [] := by
    intro v places unit rest hunit
    rw [part, List.append_assoc, List.append_assoc]
    cases hdigits : Nat.toDigits 10 (v / 10 ^ places) with
    | nil => exact absurd hdigits (toDigits_ne_nil _)
    | cons d ds =>
      refine ⟨d, _, rfl, isDigit_toDigits _ d (by rw [hdigits]; simp), ?_⟩
      simp [hunit]
  have hlast : ∀ v places (unit : List Char), unit ≠ [] →
      ∃ c more, part v places unit = c :: more ∧ c.isDigit = true ∧ more ≠ [] := by
    intro v places unit hunit
    have h := hpart v places unit [] hunit
    rwa [List.append_nil] at h
  unfold magnitude
  split
  · split
    · exact ⟨'0', ['s'], rfl, rfl, by simp⟩
    · split
      · exact hlast _ _ _ (by simp)
      · split <;> exact hlast _ _ _ (by simp)
  · split
    · rw [List.nil_append]
      split
      · exact hlast _ _ _ (by simp)
      · exact hpart _ _ _ _ (by simp)
    · exact hpart _ _ _ _ (by simp)

/-- **A printed duration is parsed as what it was.** -/
theorem ParseDuration_text {d : Int} (hlow : -2 ^ 63 ≤ d) (hhigh : d < 2 ^ 63) :
    ParseDuration (text d) = some d := by
  obtain ⟨c, rest, hfront, hdigit, hrest⟩ := magnitude_front d.natAbs
  have hparse := @parse_magnitude d.natAbs (by omega)
  have hlone : magnitude d.natAbs ≠ ['0'] := by
    intro h
    rw [hfront] at h
    exact hrest (List.cons.inj h).2
  have hsome : magnitude d.natAbs ≠ [] := by
    intro h
    rw [hfront] at h
    cases h
  unfold ParseDuration text
  rw [String.toList_ofList]
  by_cases hneg : d < 0
  · simp only [hneg, if_true, sign, hlone, hsome, if_false, hparse, Option.bind_eq_bind,
      Option.bind_some, Option.some.injEq]
    omega
  · have hsign : sign (magnitude d.natAbs) = (false, magnitude d.natAbs) := by
      have hminus : c ≠ '-' := by
        rintro rfl
        exact absurd hdigit (by decide)
      have hplus : c ≠ '+' := by
        rintro rfl
        exact absurd hdigit (by decide)
      rw [hfront]
      unfold sign
      split
      · rename_i heq
        exact absurd (List.cons.inj heq).1 hminus
      · rename_i heq
        exact absurd (List.cons.inj heq).1 hplus
      · rfl
    simp only [hneg, if_false, hsign, hlone, hsome, hparse, Option.bind_eq_bind, Option.bind_some,
      Bool.false_eq_true]
    rw [if_neg (by omega)]
    congr 1
    omega

end Marshal.Duration
