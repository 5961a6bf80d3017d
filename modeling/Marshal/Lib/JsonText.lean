import Marshal.Lib.Chars
import Mathlib.Data.List.Basic
import Mathlib.Data.Nat.Basic

/-! JSON as text.

A string is written with the quote, the backslash, the control characters and the characters
special to HTML as escapes. A text is read into a value whose literals stay raw: a string is
what stands between its quotes, and `unquote` gives the string it means. What `escape`
writes, the reader takes whole (`literal_escape`) and means what was written
(`unquote_escape`); so an object of strings is read back member by member (`read_object`). -/
namespace JsonText

inductive Value where
  | null
  | bool (b : Bool)
  | num (literal : List Char)
  | str (raw : List Char)
  | arr (items : List Value)
  | obj (members : List (List Char × Value))

/-! ### Strings -/

/-- The four digits after `\u`. -/
def u4 (n : Nat) : List Char :=
  [Nat.digitChar (n / 4096 % 16), Nat.digitChar (n / 256 % 16), Nat.digitChar (n / 16 % 16),
    Nat.digitChar (n % 16)]

def escapeChar (c : Char) : List Char :=
  if c = '"' ∨ c = '\\' then ['\\', c]
  else if c = '\x08' then ['\\', 'b']
  else if c = '\x0c' then ['\\', 'f']
  else if c = '\n' then ['\\', 'n']
  else if c = '\r' then ['\\', 'r']
  else if c = '\t' then ['\\', 't']
  else if c.toNat < 0x20 ∨ c = '<' ∨ c = '>' ∨ c = '&' ∨ c = '\u2028' ∨ c = '\u2029' then
    '\\' :: 'u' :: u4 c.toNat
  else [c]

def escape (cs : List Char) : List Char := cs.flatMap escapeChar

def hexValue (c : Char) : Option Nat :=
  if '0' ≤ c ∧ c ≤ '9' then some (c.toNat - 48)
  else if 'a' ≤ c ∧ c ≤ 'f' then some (c.toNat - 87)
  else if 'A' ≤ c ∧ c ≤ 'F' then some (c.toNat - 55)
  else none

def getu4 (a b c d : Char) : Option Nat := do
  let a ← hexValue a
  let b ← hexValue b
  let c ← hexValue c
  let d ← hexValue d
  return 4096 * a + 256 * b + 16 * c + d

/-- What a string literal holds up to its closing quote, and what follows the quote. -/
def literal : List Char → Option (List Char × List Char)
  | [] => none
  | c :: s =>
    if c = '"' then some ([], s)
    else if c = '\\' then
      match s with
      | [] => none
      | e :: s' =>
        if e ∈ ['b', 'f', 'n', 'r', 't', '\\', '/', '"'] then
          (literal s').map fun r => (c :: e :: r.1, r.2)
        else if e = 'u' then
          match s' with
          | a :: b :: d :: f :: s'' =>
            if (getu4 a b d f).isSome then
              (literal s'').map fun r => (c :: e :: a :: b :: d :: f :: r.1, r.2)
            else none
          | _ => none
        else none
    else if c.toNat < 0x20 then none
    else (literal s).map fun r => (c :: r.1, r.2)

/-- The character of an escape without digits. -/
def single (e : Char) : Char :=
  if e = 'b' then '\x08'
  else if e = 'f' then '\x0c'
  else if e = 'n' then '\n'
  else if e = 'r' then '\r'
  else if e = 't' then '\t'
  else e

/-- The character of a pair of surrogates. -/
def decodeRune (r r' : Nat) : Option Char :=
  if 0xd800 ≤ r ∧ r < 0xdc00 ∧ 0xdc00 ≤ r' ∧ r' < 0xe000 then
    some (Char.ofNat ((r - 0xd800) * 1024 + (r' - 0xdc00) + 0x10000))
  else none

/-- The character that an escape after its backslash means, and the characters it takes. A
surrogate without its pair is the replacement character. -/
def escaped : List Char → Char × Nat
  | 'u' :: a :: b :: d :: f :: s =>
    let r := (getu4 a b d f).getD 0
    if 0xd800 ≤ r ∧ r < 0xe000 then
      match s with
      | '\\' :: 'u' :: a' :: b' :: d' :: f' :: _ =>
        match decodeRune r ((getu4 a' b' d' f').getD 0) with
        | some p => (p, 11)
        | none => ('\uFFFD', 5)
      | _ => ('\uFFFD', 5)
    else (Char.ofNat r, 5)
  | e :: _ => (single e, 1)
  | [] => ('\\', 0)

/-- So many characters belong to the escape just read. -/
def unquoteFrom : Nat → List Char → List Char
  | _, [] => []
  | n + 1, _ :: s => unquoteFrom n s
  | 0, c :: s =>
    if c = '\\' then (escaped s).1 :: unquoteFrom (escaped s).2 s else c :: unquoteFrom 0 s

/-- The string that a literal means. -/
def unquote (raw : List Char) : List Char := unquoteFrom 0 raw

/-! ### Values -/

def isSpace (c : Char) : Bool := c == ' ' || c == '\t' || c == '\r' || c == '\n'

def skip (s : List Char) : List Char := s.dropWhile isSpace

/-- A run of digits, at least one. -/
def digits (s : List Char) : Option (List Char × List Char) :=
  if s.takeWhile Char.isDigit = [] then none else some (s.takeWhile Char.isDigit, s.dropWhile Char.isDigit)

def integer : List Char → Option (List Char × List Char)
  | '0' :: s => some (['0'], s)
  | s => digits s

/-- The part of a number after its mark (`.`, or `e` with a sign), where the mark stands. -/
def marked (mark : List Char) (s : List Char) : Option (List Char × List Char) :=
  (digits s).map fun r => (mark ++ r.1, r.2)

def fractional : List Char → Option (List Char × List Char)
  | '.' :: s => marked ['.'] s
  | s => some ([], s)

def exponent : List Char → Option (List Char × List Char)
  | c :: '+' :: s => if c = 'e' ∨ c = 'E' then marked [c, '+'] s else some ([], c :: '+' :: s)
  | c :: '-' :: s => if c = 'e' ∨ c = 'E' then marked [c, '-'] s else some ([], c :: '-' :: s)
  | c :: s => if c = 'e' ∨ c = 'E' then marked [c] s else some ([], c :: s)
  | [] => some ([], [])

def number (s : List Char) : Option (List Char × List Char) := do
  let (sign, s) := match s with
    | '-' :: s => (['-'], s)
    | s => ([], s)
  let (whole, s) ← integer s
  let (part, s) ← fractional s
  let (power, s) ← exponent s
  return (sign ++ whole ++ part ++ power, s)

mutual

/-- The value a text starts with, and the rest; `depth` more values may be nested. -/
def value : Nat → Nat → List Char → Option (Value × List Char)
  | 0, _, _ => none
  | fuel + 1, depth, s => match s with
    | 'n' :: 'u' :: 'l' :: 'l' :: s => some (.null, s)
    | 't' :: 'r' :: 'u' :: 'e' :: s => some (.bool true, s)
    | 'f' :: 'a' :: 'l' :: 's' :: 'e' :: s => some (.bool false, s)
    | '"' :: s => (literal s).map fun r => (.str r.1, r.2)
    | '{' :: s => match depth, skip s with
      | 0, _ => none
      | _ + 1, '}' :: s => some (.obj [], s)
      | depth + 1, s => (members fuel depth s).map fun r => (.obj r.1, r.2)
    | '[' :: s => match depth, skip s with
      | 0, _ => none
      | _ + 1, ']' :: s => some (.arr [], s)
      | depth + 1, s => (items fuel depth s).map fun r => (.arr r.1, r.2)
    | s => (number s).map fun r => (.num r.1, r.2)

/-- The items of an array up to its closing bracket, and what follows the bracket. -/
def items : Nat → Nat → List Char → Option (List Value × List Char)
  | 0, _, _ => none
  | fuel + 1, depth, s => do
    let (v, s) ← value fuel depth s
    match skip s with
    | ',' :: s =>
      let (vs, s) ← items fuel depth (skip s)
      return (v :: vs, s)
    | ']' :: s => return ([v], s)
    | _ => none

/-- The members of an object up to its closing brace, and what follows the brace. -/
def members : Nat → Nat → List Char → Option (List (List Char × Value) × List Char)
  | 0, _, _ => none
  | fuel + 1, depth, s => match s with
    | '"' :: s => do
      let (key, s) ← literal s
      match skip s with
      | ':' :: s =>
        let (v, s) ← value fuel depth (skip s)
        match skip s with
        | ',' :: s =>
          let (ms, s) ← members fuel depth (skip s)
          return ((key, v) :: ms, s)
        | '}' :: s => return ([(key, v)], s)
        | _ => none
      | _ => none
    | _ => none

end

/-- So deep may values be nested. -/
def maxNestingDepth : Nat := 10000

/-- The value of a text that holds nothing else. -/
def read (s : List Char) : Option Value :=
  match value (2 * s.length + 2) maxNestingDepth (skip s) with
  | some (v, rest) => if skip rest = [] then some v else none
  | none => none

/-! ### Objects of strings -/

/-- A member whose value is a string, given by the literals of both. -/
def member (m : List Char × List Char) : List Char :=
  '"' :: (m.1 ++ '"' :: ':' :: '"' :: (m.2 ++ ['"']))

def object : List (List Char × List Char) → List Char
  | [] => ['{', '}']
  | m :: ms => '{' :: (member m ++ (ms.flatMap fun m => ',' :: member m) ++ ['}'])

/-! ### What is written is read back -/

theorem hexValue_digitChar : ∀ n < 16, hexValue (Nat.digitChar n) = some n := by decide

theorem getu4_u4 {n : Nat} (h : n < 0x10000) :
    getu4 (Nat.digitChar (n / 4096 % 16)) (Nat.digitChar (n / 256 % 16)) (Nat.digitChar (n / 16 % 16))
      (Nat.digitChar (n % 16)) = some n := by
  have hdigit : ∀ m, hexValue (Nat.digitChar (m % 16)) = some (m % 16) :=
    fun m => hexValue_digitChar _ (Nat.mod_lt m (by decide))
  simp only [getu4, hdigit, Option.pure_def, Option.bind_eq_bind, Option.bind_some, Option.some.injEq]
  omega

/-- Every character is written as itself, with a letter or with four digits. -/
theorem escapeChar_cases (c : Char) :
    (escapeChar c = [c] ∧ c ≠ '"' ∧ c ≠ '\\' ∧ 0x20 ≤ c.toNat) ∨
    (∃ e, escapeChar c = ['\\', e] ∧ e ∈ ['b', 'f', 'n', 'r', 't', '\\', '/', '"'] ∧ single e = c) ∨
    (escapeChar c = '\\' :: 'u' :: u4 c.toNat ∧ c.toNat < 0xd800) := by
  unfold escapeChar
  by_cases hquote : c = '"' ∨ c = '\\'
  · rw [if_pos hquote]
    refine .inr (.inl ⟨c, rfl, ?_⟩)
    rcases hquote with rfl | rfl <;> decide
  rw [if_neg hquote]
  by_cases hb : c = '\x08'
  · exact .inr (.inl ⟨'b', by rw [if_pos hb], by decide, hb.symm⟩)
  by_cases hf : c = '\x0c'
  · exact .inr (.inl ⟨'f', by rw [if_neg hb, if_pos hf], by decide, hf.symm⟩)
  by_cases hn : c = '\n'
  · exact .inr (.inl ⟨'n', by rw [if_neg hb, if_neg hf, if_pos hn], by decide, hn.symm⟩)
  by_cases hr : c = '\r'
  · exact .inr (.inl ⟨'r', by rw [if_neg hb, if_neg hf, if_neg hn, if_pos hr], by decide, hr.symm⟩)
  by_cases ht : c = '\t'
  · exact .inr (.inl ⟨'t', by rw [if_neg hb, if_neg hf, if_neg hn, if_neg hr, if_pos ht], by decide, ht.symm⟩)
  rw [if_neg hb, if_neg hf, if_neg hn, if_neg hr, if_neg ht]
  by_cases hdigits : c.toNat < 0x20 ∨ c = '<' ∨ c = '>' ∨ c = '&' ∨ c = '\u2028' ∨ c = '\u2029'
  · refine .inr (.inr ⟨if_pos hdigits, ?_⟩)
    rcases hdigits with h | rfl | rfl | rfl | rfl | rfl
    · exact Nat.lt_trans h (by decide)
    all_goals decide
  · rw [not_or] at hquote
    refine .inl ⟨if_neg hdigits, hquote.1, hquote.2, ?_⟩
    exact Nat.le_of_not_lt fun h => hdigits (.inl h)

/-- The reader takes a character as it is written. -/
theorem literal_escapeChar (c : Char) (s : List Char) :
    literal (escapeChar c ++ s) = (literal s).map fun r => (escapeChar c ++ r.1, r.2) := by
  rcases escapeChar_cases c with ⟨h, hquote, hslash, hprint⟩ | ⟨e, h, he, -⟩ | ⟨h, hrange⟩
  · rw [h, List.singleton_append, literal.eq_def]
    simp only [if_neg hquote, if_neg hslash, if_neg (Nat.not_lt.mpr hprint)]
    rfl
  · rw [h, List.cons_append, List.singleton_append, literal.eq_def]
    simp only [he, if_true]
    rfl
  · have hvalue := getu4_u4 (Nat.lt_trans hrange (by decide : 0xd800 < 0x10000))
    rw [h, u4]
    simp only [List.cons_append, List.nil_append]
    rw [literal.eq_def]
    simp [hvalue]

theorem literal_escape (cs s : List Char) : literal (escape cs ++ '"' :: s) = some (escape cs, s) := by
  induction cs with
  | nil => simp [escape, literal.eq_def]
  | cons c cs ih =>
    rw [escape, List.flatMap_cons, ← escape, List.append_assoc, literal_escapeChar, ih]
    rfl

theorem unquoteFrom_append (l s : List Char) : unquoteFrom l.length (l ++ s) = unquoteFrom 0 s := by
  induction l with
  | nil => rfl
  | cons c l ih => exact ih

theorem unquote_escapeChar (c : Char) (s : List Char) : unquote (escapeChar c ++ s) = c :: unquote s := by
  rcases escapeChar_cases c with ⟨h, -, hslash, -⟩ | ⟨e, h, he, hsingle⟩ | ⟨h, hrange⟩
  · rw [h, List.singleton_append, unquote, unquoteFrom, if_neg hslash]
    rfl
  · have hescaped : escaped (e :: s) = (c, 1) := by
      have hu : e ≠ 'u' := by
        intro heq
        rw [heq] at he
        exact absurd he (by decide)
      rw [← hsingle, escaped.eq_def]
      split <;> simp_all
    rw [h, List.cons_append, List.singleton_append, unquote, unquoteFrom, if_pos rfl, hescaped]
    rfl
  · have hvalue := getu4_u4 (Nat.lt_trans hrange (by decide : 0xd800 < 0x10000))
    have hescaped : escaped ('u' :: (u4 c.toNat ++ s)) = (c, 5) := by
      simp only [u4, List.cons_append, List.nil_append, escaped, hvalue, Option.getD_some]
      rw [if_neg (by omega), Char.ofNat_toNat]
    rw [h, List.cons_append, List.cons_append, unquote, unquoteFrom, if_pos rfl, hescaped]
    exact congrArg (c :: ·) (unquoteFrom_append ('u' :: u4 c.toNat) s)

theorem unquote_escape (cs : List Char) : unquote (escape cs) = cs := by
  induction cs with
  | nil => rfl
  | cons c cs ih => rw [escape, List.flatMap_cons, ← escape, unquote_escapeChar, ih]

/-- The reader takes a literal whole. -/
def Literal (raw : List Char) : Prop := ∀ s, literal (raw ++ '"' :: s) = some (raw, s)

theorem literal_plain {raw : List Char} (h : ∀ c ∈ raw, c ≠ '"' ∧ c ≠ '\\' ∧ 0x20 ≤ c.toNat) :
    Literal raw := by
  intro s
  induction raw with
  | nil => simp [literal.eq_def]
  | cons c raw ih =>
    obtain ⟨hquote, hslash, hprint⟩ := h c List.mem_cons_self
    rw [List.cons_append, literal.eq_def]
    simp only [if_neg hquote, if_neg hslash, if_neg (Nat.not_lt.mpr hprint)]
    rw [ih fun c' hc' => h c' (List.mem_cons_of_mem c hc')]
    rfl

theorem value_literal {raw : List Char} (h : Literal raw) (fuel depth : Nat) (s : List Char) :
    value (fuel + 1) depth ('"' :: (raw ++ '"' :: s)) = some (.str raw, s) := by
  rw [value.eq_def]
  simp only [h s, Option.map_some]

theorem skip_cons {c : Char} (h : isSpace c = false) (s : List Char) : skip (c :: s) = c :: s := by
  rw [skip, List.dropWhile_cons, h]
  rfl

/-- What follows the first member decides whether there are more. -/
theorem members_member {m : List Char × List Char} (hkey : Literal m.1) (hvalue : Literal m.2)
    (fuel depth : Nat) (s : List Char) :
    members (fuel + 2) depth (member m ++ s) = match skip s with
      | ',' :: s => (members (fuel + 1) depth (skip s)).map fun r => ((m.1, .str m.2) :: r.1, r.2)
      | '}' :: s => some ([(m.1, .str m.2)], s)
      | _ => none := by
  have hcolon : ∀ t, skip (':' :: t) = ':' :: t := skip_cons (by decide)
  have hquote : ∀ t, skip ('"' :: t) = '"' :: t := skip_cons (by decide)
  have htext : member m ++ s = '"' :: (m.1 ++ '"' :: (':' :: '"' :: (m.2 ++ '"' :: s))) := by
    simp [member]
  rw [htext, members.eq_def]
  simp only [hkey _, Option.bind_eq_bind, Option.bind_some, hcolon, hquote, value_literal hvalue]
  split <;> simp_all [Option.map_eq_bind, Function.comp_def]

theorem members_object {m : List Char × List Char} {ms : List (List Char × List Char)}
    (h : ∀ m' ∈ m :: ms, Literal m'.1 ∧ Literal m'.2) (fuel depth : Nat) (s : List Char) :
    members (fuel + ms.length + 2) depth
      (member m ++ ((ms.flatMap fun m => ',' :: member m) ++ '}' :: s)) =
      some ((m :: ms).map fun m => (m.1, .str m.2), s) := by
  obtain ⟨hkey, hvalue⟩ := h m List.mem_cons_self
  rw [members_member hkey hvalue]
  induction ms generalizing m with
  | nil =>
    have hbrace : skip ('}' :: s) = '}' :: s := skip_cons (by decide) s
    simp only [List.flatMap_nil, List.nil_append, hbrace, List.map_cons, List.map_nil]
  | cons m' ms ih =>
    have hcomma : ∀ t, skip (',' :: t) = ',' :: t := skip_cons (by decide)
    have hquote : ∀ t, skip (member m' ++ t) = member m' ++ t := fun t => skip_cons (by decide) _
    obtain ⟨hkey', hvalue'⟩ := h m' (List.mem_cons_of_mem m List.mem_cons_self)
    have hrest := ih (fun m'' hm'' => h m'' (List.mem_cons_of_mem m hm'')) hkey' hvalue'
    rw [← members_member hkey' hvalue' (fuel + ms.length) depth] at hrest
    simp only [List.flatMap_cons, List.cons_append, List.append_assoc, hcomma, hquote]
    rw [List.length_cons, ← Nat.add_assoc, hrest]
    rfl

theorem length_le_members (ms : List (List Char × List Char)) :
    ms.length ≤ (ms.flatMap fun m => ',' :: member m).length := by
  induction ms with
  | nil => exact Nat.le_refl 0
  | cons m ms ih =>
    rw [List.flatMap_cons, List.length_append, List.length_cons, List.length_cons]
    omega

/-- An object of strings is read back member by member. -/
theorem read_object {ms : List (List Char × List Char)} (h : ∀ m ∈ ms, Literal m.1 ∧ Literal m.2) :
    read (object ms) = some (.obj (ms.map fun m => (m.1, .str m.2))) := by
  cases ms with
  | nil => rfl
  | cons m ms =>
    have hbrace : ∀ s, skip ('{' :: s) = '{' :: s := skip_cons (by decide)
    have hquote : ∀ t, skip (member m ++ t) = member m ++ t := fun t => skip_cons (by decide) _
    have hlength : ms.length + 2 ≤ (object (m :: ms)).length := by
      have hmembers := length_le_members ms
      simp only [object, List.length_cons, List.length_append, List.length_nil]
      omega
    obtain ⟨fuel, hfuel⟩ : ∃ fuel, 2 * (object (m :: ms)).length + 2 = fuel + ms.length + 2 + 1 :=
      ⟨2 * (object (m :: ms)).length - ms.length - 1, by omega⟩
    have hvalue : value (2 * (object (m :: ms)).length + 2) maxNestingDepth (skip (object (m :: ms))) =
        some (.obj ((m :: ms).map fun m => (m.1, .str m.2)), []) := by
      rw [hfuel, object, hbrace, value.eq_def, List.append_assoc]
      simp only [hquote]
      exact congrArg (Option.map fun r => (Value.obj r.1, r.2)) (members_object h fuel 9999 [])
    rw [read, hvalue]
    rfl

/-! ### What a text is written with -/

theorem length_le_escape (cs : List Char) : cs.length ≤ (escape cs).length := by
  induction cs with
  | nil => exact Nat.le_refl 0
  | cons c cs ih =>
    have hpos : 0 < (escapeChar c).length := by
      rcases escapeChar_cases c with ⟨h, -⟩ | ⟨e, h, -⟩ | ⟨h, -⟩
      all_goals simp [h]
    rw [escape, List.flatMap_cons, ← escape, List.length_append, List.length_cons]
    omega

/-- No control characters, so the text is one line. -/
def Printable (s : List Char) : Prop := ∀ c ∈ s, 0x20 ≤ c.toNat

instance (s : List Char) : Decidable (Printable s) := inferInstanceAs (Decidable (∀ c ∈ s, 0x20 ≤ c.toNat))

theorem printable_cons {c : Char} {s : List Char} : Printable (c :: s) ↔ 0x20 ≤ c.toNat ∧ Printable s :=
  List.forall_mem_cons

theorem printable_append {s s' : List Char} : Printable (s ++ s') ↔ Printable s ∧ Printable s' :=
  List.forall_mem_append

theorem printable_nil : Printable [] := fun _ hc => absurd hc List.not_mem_nil

theorem printable_digit : ∀ n < 16, 0x20 ≤ (Nat.digitChar n).toNat := by decide

theorem printable_escapeChar (c : Char) : Printable (escapeChar c) := by
  have hdigit : ∀ n, 0x20 ≤ (Nat.digitChar (n % 16)).toNat :=
    fun n => printable_digit _ (Nat.mod_lt n (by decide))
  rcases escapeChar_cases c with ⟨h, -, -, hprint⟩ | ⟨e, h, he, -⟩ | ⟨h, -⟩
  · rw [h, printable_cons]
    exact ⟨hprint, printable_nil⟩
  · have hletter : ∀ e ∈ ['b', 'f', 'n', 'r', 't', '\\', '/', '"'], 0x20 ≤ e.toNat := by decide
    rw [h, printable_cons, printable_cons]
    exact ⟨by decide, hletter e he, printable_nil⟩
  · simp only [h, u4, printable_cons, hdigit, printable_nil, and_true]
    decide

theorem printable_escape (cs : List Char) : Printable (escape cs) := by
  intro c hc
  obtain ⟨d, -, hd⟩ := List.mem_flatMap.mp hc
  exact printable_escapeChar d c hd

theorem printable_member {m : List Char × List Char} (h : Printable m.1 ∧ Printable m.2) :
    Printable (member m) := by
  simp [member, printable_cons, printable_append, printable_nil, h]

theorem printable_object {ms : List (List Char × List Char)} (h : ∀ m ∈ ms, Printable m.1 ∧ Printable m.2) :
    Printable (object ms) := by
  cases ms with
  | nil => simp [object, printable_cons, printable_nil]
  | cons m ms =>
    have hmore : Printable (ms.flatMap fun m => ',' :: member m) := by
      intro c hc
      obtain ⟨m', hm', hmem⟩ := List.mem_flatMap.mp hc
      have hmember := printable_member (h m' (List.mem_cons_of_mem m hm'))
      exact printable_cons.mpr ⟨by decide, hmember⟩ c hmem
    have hfirst := printable_member (h m List.mem_cons_self)
    simp [object, printable_cons, printable_append, printable_nil, hfirst, hmore]

theorem object_end (ms : List (List Char × List Char)) : ∃ s, object ms = s ++ ['}'] := by
  cases ms with
  | nil => exact ⟨['{'], rfl⟩
  | cons m ms => exact ⟨'{' :: (member m ++ ms.flatMap fun m => ',' :: member m), rfl⟩

end JsonText
