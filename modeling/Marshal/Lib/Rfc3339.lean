import Marshal.Lib.Decimal
import Mathlib.Data.Int.Basic

/-! Times as RFC 3339 text.

A time is a date and a time of day with its distance from UTC in minutes. It is written with
as many places after the second as it needs, and not at all where the format has no room for
its year or its distance. The reader takes more than the writer writes: an hour of one digit,
a comma before the fraction. -/
namespace Rfc3339

def isLeap (year : Nat) : Bool := year % 4 == 0 && (year % 100 != 0 || year % 400 == 0)

def daysIn (month year : Nat) : Nat :=
  if month = 2 then if isLeap year then 29 else 28
  else if month = 4 ∨ month = 6 ∨ month = 9 ∨ month = 11 then 30 else 31

/-- A time of the calendar, `offset` minutes ahead of UTC. -/
structure Time where
  year : Nat
  month : Nat
  day : Nat
  hour : Nat
  minute : Nat
  second : Nat
  nanosecond : Nat
  offset : Int
  month_valid : 1 ≤ month ∧ month ≤ 12
  day_valid : 1 ≤ day ∧ day ≤ daysIn month year
  clock_valid : hour < 24 ∧ minute < 60 ∧ second < 60 ∧ nanosecond < 10 ^ 9
  deriving DecidableEq

/-! ### Writing -/

/-- The last `places` digits of a number. -/
def digits (places n : Nat) : List Char := Decimal.fraction places n true

/-- The part of a second, without the zeros at its end. -/
def nanos (n : Nat) : List Char := if n = 0 then [] else '.' :: Decimal.fraction 9 n false

def zone (offset : Int) : List Char :=
  if offset = 0 then ['Z']
  else (if offset < 0 then '-' else '+') ::
    (digits 2 (offset.natAbs / 60) ++ ':' :: digits 2 (offset.natAbs % 60))

/-- Only years of four digits and zones less than a day from UTC are written. -/
def Time.format (t : Time) : Option (List Char) :=
  if t.year ≤ 9999 ∧ t.offset.natAbs / 60 < 24 then
    some (digits 4 t.year ++ '-' :: (digits 2 t.month ++ '-' :: (digits 2 t.day ++ 'T' ::
      (digits 2 t.hour ++ ':' :: (digits 2 t.minute ++ ':' :: (digits 2 t.second ++
        (nanos t.nanosecond ++ zone t.offset)))))))
  else none

/-! ### Reading -/

def skip (c : Char) : List Char → Option (List Char)
  | d :: s => if d = c then some s else none
  | [] => none

/-- A number of two digits, or of one where the width is not fixed. -/
def getnum (fixed : Bool) : List Char → Option (Nat × List Char)
  | a :: b :: s =>
    if a.isDigit then
      if b.isDigit then some (Decimal.value [a, b], s)
      else if fixed then none else some (Decimal.value [a], b :: s)
    else none
  | [a] => if a.isDigit && !fixed then some (Decimal.value [a], []) else none
  | [] => none

def getyear : List Char → Option (Nat × List Char)
  | a :: b :: c :: d :: s =>
    if a.isDigit && b.isDigit && c.isDigit && d.isDigit then some (Decimal.value [a, b, c, d], s) else none
  | _ => none

/-- The part of a second, if there is one: the first nine digits count. -/
def getnanos : List Char → Nat × List Char
  | c :: s =>
    let ds := s.takeWhile Char.isDigit
    if (c = '.' ∨ c = ',') ∧ ds ≠ [] then
      (Decimal.value (ds.take 9) * 10 ^ (9 - (ds.take 9).length), s.dropWhile Char.isDigit)
    else (0, c :: s)
  | [] => (0, [])

def getzone : List Char → Option (Int × List Char)
  | 'Z' :: s => some (0, s)
  | sign :: a :: b :: ':' :: c :: d :: s => do
    let (hour, _) ← getnum true [a, b]
    let (minute, _) ← getnum true [c, d]
    if 24 < hour ∨ 60 < minute then none
    else if sign = '+' then some (hour * 60 + minute, s)
    else if sign = '-' then some (-(hour * 60 + minute), s)
    else none
  | _ => none

def parse (s : List Char) : Option Time := do
  let (year, s) ← getyear s
  let s ← skip '-' s
  let (month, s) ← getnum true s
  let s ← skip '-' s
  let (day, s) ← getnum true s
  let s ← skip 'T' s
  let (hour, s) ← getnum false s
  let s ← skip ':' s
  let (minute, s) ← getnum true s
  let s ← skip ':' s
  let (second, s) ← getnum true s
  let (nanosecond, s) := getnanos s
  let (offset, s) ← getzone s
  if h : ((1 ≤ month ∧ month ≤ 12) ∧ (1 ≤ day ∧ day ≤ daysIn month year) ∧
      (hour < 24 ∧ minute < 60 ∧ second < 60 ∧ nanosecond < 10 ^ 9)) ∧ s = [] then
    some
      { year, month, day, hour, minute, second, nanosecond, offset
        month_valid := h.1.1
        day_valid := h.1.2.1
        clock_valid := h.1.2.2 }
  else none

/-! ### What is written is read back -/

theorem digits_two (n : Nat) : digits 2 n = [Nat.digitChar (n / 10 % 10), Nat.digitChar (n % 10)] := by
  simp [digits, Decimal.fraction]

theorem digits_four (n : Nat) : digits 4 n = [Nat.digitChar (n / 1000 % 10), Nat.digitChar (n / 100 % 10),
    Nat.digitChar (n / 10 % 10), Nat.digitChar (n % 10)] := by
  simp [digits, Decimal.fraction, Nat.div_div_eq_div_mul]

theorem isDigit_digit (n : Nat) : (Nat.digitChar (n % 10)).isDigit = true := by
  rw [Nat.isDigit_digitChar]
  exact decide_eq_true (Nat.mod_lt n (by decide))

theorem value_digits (places : Nat) {n : Nat} (h : n < 10 ^ places) : Decimal.value (digits places n) = n := by
  have hvalue := (Decimal.value_fraction places n true).2
  rw [Decimal.length_fraction, Nat.sub_self, Nat.pow_zero, Nat.mul_one, Nat.mod_eq_of_lt h] at hvalue
  exact hvalue

theorem getnum_digits (fixed : Bool) {n : Nat} (h : n < 100) (s : List Char) :
    getnum fixed (digits 2 n ++ s) = some (n, s) := by
  have hvalue := value_digits 2 h
  rw [digits_two] at hvalue ⊢
  simp only [List.cons_append, List.nil_append, getnum, isDigit_digit, if_true, hvalue]

theorem getyear_digits {n : Nat} (h : n ≤ 9999) (s : List Char) : getyear (digits 4 n ++ s) = some (n, s) := by
  have hvalue := value_digits 4 (Nat.lt_succ_of_le h)
  rw [digits_four] at hvalue ⊢
  simp only [List.cons_append, List.nil_append, getyear, isDigit_digit, Bool.and_self, if_true, hvalue]

theorem skip_self (c : Char) (s : List Char) : skip c (c :: s) = some s := if_pos rfl

theorem zone_stops (offset : Int) : ∃ c s, zone offset = c :: s ∧ c.isDigit = false ∧ c ≠ '.' ∧ c ≠ ',' := by
  unfold zone
  split
  · exact ⟨'Z', [], rfl, by decide⟩
  · split
    · exact ⟨'-', _, rfl, by decide⟩
    · exact ⟨'+', _, rfl, by decide⟩

theorem getnanos_nanos {n : Nat} (h : n < 10 ^ 9) (offset : Int) :
    getnanos (nanos n ++ zone offset) = (n, zone offset) := by
  obtain ⟨c, s, hzone, hdigit, hpoint, hcomma⟩ := zone_stops offset
  unfold nanos
  split
  · rename_i hzero
    simp [hzone, getnanos, hpoint, hcomma, hzero]
  · rename_i hpos
    obtain ⟨hlength, hvalue⟩ := Decimal.value_fraction 9 n false
    rw [Nat.mod_eq_of_lt h] at hvalue
    have hne : Decimal.fraction 9 n false ≠ [] := by
      intro hnil
      rw [hnil] at hvalue
      exact hpos (by simpa [Decimal.value] using hvalue.symm)
    have hleading := Decimal.leading_append (Decimal.isDigit_fraction 9 n false) (s := zone offset)
      (hzone ▸ Decimal.stops_cons hdigit)
    rw [Decimal.leading, Prod.mk.injEq] at hleading
    simp only [List.cons_append, getnanos, hleading.1, hleading.2, List.take_of_length_le hlength, hvalue]
    rw [if_pos ⟨.inl trivial, hne⟩]

theorem getzone_sign {sign : Char} (hsign : sign = '+' ∨ sign = '-') {hour minute : Nat}
    (hhour : hour ≤ 24) (hminute : minute ≤ 60) :
    getzone (sign :: (digits 2 hour ++ ':' :: digits 2 minute)) =
      some (if sign = '+' then (hour * 60 + minute : Int) else -(hour * 60 + minute), []) := by
  have hhours := getnum_digits true (Nat.lt_of_le_of_lt hhour (by decide : 24 < 100)) []
  have hminutes := getnum_digits true (Nat.lt_of_le_of_lt hminute (by decide : 60 < 100)) []
  rw [digits_two] at hhours hminutes ⊢
  rw [digits_two]
  generalize Nat.digitChar (hour / 10 % 10) = a, Nat.digitChar (hour % 10) = b,
    Nat.digitChar (minute / 10 % 10) = c, Nat.digitChar (minute % 10) = d at hhours hminutes ⊢
  have hrange : ¬ (24 < hour ∨ 60 < minute) := by omega
  simp only [List.cons_append, List.nil_append, List.append_nil] at hhours hminutes ⊢
  rcases hsign with rfl | rfl <;> simp [getzone, hhours, hminutes, hrange]

theorem getzone_zone {offset : Int} (h : offset.natAbs / 60 < 24) : getzone (zone offset) = some (offset, []) := by
  have hhour : offset.natAbs / 60 ≤ 24 := Nat.le_of_lt h
  have hminute : offset.natAbs % 60 ≤ 60 := Nat.le_of_lt (Nat.mod_lt _ (by decide))
  unfold zone
  split
  · rename_i hzero
    rw [hzero]
    rfl
  · split
    · rw [getzone_sign (.inr rfl) hhour hminute, if_neg (by decide)]
      congr 2
      omega
    · rw [getzone_sign (.inl rfl) hhour hminute, if_pos rfl]
      congr 2
      omega

theorem parse_format {t : Time} {s : List Char} (h : t.format = some s) : parse s = some t := by
  unfold Time.format at h
  split at h
  · rename_i hwritten
    cases h
    have hmonth := t.month_valid
    have hday := t.day_valid
    have hclock := t.clock_valid
    have hdays : daysIn t.month t.year ≤ 31 := by
      unfold daysIn
      split <;> split <;> decide
    simp only [parse, getyear_digits hwritten.1, skip_self, getnanos_nanos hclock.2.2.2,
      getzone_zone hwritten.2, Option.bind_eq_bind, Option.bind_some,
      getnum_digits true (by omega : t.month < 100), getnum_digits true (by omega : t.day < 100),
      getnum_digits false (by omega : t.hour < 100), getnum_digits true (by omega : t.minute < 100),
      getnum_digits true (by omega : t.second < 100)]
    rw [dif_pos ⟨⟨hmonth, hday, hclock⟩, trivial⟩]
  · cases h

/-! ### What a time is written with -/

def Plain (s : List Char) : Prop := ∀ c ∈ s, c.isDigit = true ∨ c ∈ ['-', 'T', ':', '.', 'Z', '+']

theorem plain_cons {c : Char} {s : List Char} : Plain (c :: s) ↔
    (c.isDigit = true ∨ c ∈ ['-', 'T', ':', '.', 'Z', '+']) ∧ Plain s := List.forall_mem_cons

theorem plain_append {s s' : List Char} : Plain (s ++ s') ↔ Plain s ∧ Plain s' := List.forall_mem_append

theorem plain_fraction (places n : Nat) (printed : Bool) : Plain (Decimal.fraction places n printed) :=
  fun c hc => .inl (Decimal.isDigit_fraction places n printed c hc)

theorem plain_nanos (n : Nat) : Plain (nanos n) := by
  unfold nanos
  split
  · exact fun c hc => absurd hc List.not_mem_nil
  · exact plain_cons.mpr ⟨by decide, plain_fraction 9 n false⟩

theorem plain_zone (offset : Int) : Plain (zone offset) := by
  unfold zone
  split
  · exact plain_cons.mpr ⟨by decide, fun c hc => absurd hc List.not_mem_nil⟩
  · split <;> simp [plain_cons, plain_append, digits, plain_fraction]

theorem plain_format {t : Time} {s : List Char} (h : t.format = some s) : Plain s := by
  unfold Time.format at h
  split at h
  · cases h
    simp [plain_cons, plain_append, digits, plain_fraction, plain_nanos, plain_zone]
  · cases h

end Rfc3339
