import Marshal.Lib.Separator
import Marshal.Lib.Trim

/-! The lines of a systemd unit file.

A file is sections of lines `key=value`; empty lines and comments do not count. A line that
ends in a backslash goes on in the next one that is no comment, with a space for the
backslash. A line ends at a line feed or at a carriage return. The reader takes one
character after the other, so what it makes of a text is what it makes of its parts. -/
namespace UnitFile
open Separator Trim

def lineBreak (c : Char) : Bool := c == '\n' || c == '\r'

def white (c : Char) : Bool := c == ' ' || c == '\t'

structure Directive where
  inSection : List Char
  key : List Char
  value : List Char
  deriving DecidableEq, Repr

structure Reader where
  /-- The line read so far. -/
  line : List Char := []
  /-- The lines before it, if it goes on from them. -/
  pending : Option (List Char) := none
  inSection : List Char := []
  directives : List Directive := []
  deriving DecidableEq, Repr

def comment (line : List Char) : Bool :=
  match line.dropWhile white with
  | [] => false
  | c :: _ => c == '#' || c == ';'

namespace Reader

/-- A whole line: a section, a directive, or nothing that counts. -/
def enter (r : Reader) (whole : List Char) : Reader :=
  match trim white whole with
  | '[' :: rest => if rest.getLast? = some ']' then { r with inSection := rest.dropLast } else r
  | _ => match cut '=' whole with
    | some (key, value) =>
      { r with directives := r.directives ++ [⟨r.inSection, trim white key, value.dropWhile white⟩] }
    | none => r

def endLine (r : Reader) : Reader :=
  if comment r.line then { r with line := [] }
  else
    let whole := r.pending.getD [] ++ r.line
    if whole.getLast? = some '\\' then { r with line := [], pending := some (whole.dropLast ++ [' ']) }
    else { r with line := [], pending := none }.enter whole

def next (r : Reader) (c : Char) : Reader :=
  if lineBreak c then r.endLine else { r with line := r.line ++ [c] }

def feed (r : Reader) (text : List Char) : Reader := text.foldl next r

/-- The last line needs no end; a second end closes one that was to go on. -/
def finish (r : Reader) : List Directive := r.endLine.endLine.directives

end Reader

def parse (text : List Char) : List Directive := (Reader.feed {} text).finish

/-! ### Directives on lines of their own -/

/-- A key as it is written in front of its directive. -/
structure IsKey (key : List Char) : Prop where
  head : key.head?.any (fun c => !(white c || c == '[' || c == '#' || c == ';')) = true
  last : ∀ c ∈ key.getLast?, white c = false
  plain : '=' ∉ key
  breaks : ∀ c ∈ key, lineBreak c = false

theorem trim_cons {c : Char} (hc : white c = false) (rest : List Char) : ∃ rest', trim white (c :: rest) = c :: rest' := by
  obtain ⟨front, back, hfront, hback, hsplit⟩ := split_trim white (c :: rest)
  have hnil : front = [] := by
    cases front with
    | nil => rfl
    | cons d front =>
      rw [List.cons_append, List.cons_append] at hsplit
      have hd := hfront d List.mem_cons_self
      rw [← (List.cons.inj hsplit).1, hc] at hd
      cases hd
  rw [hnil, List.nil_append] at hsplit
  cases htrim : trim white (c :: rest) with
  | nil =>
    rw [htrim, List.nil_append] at hsplit
    have hd := hback c (by rw [← hsplit]; exact List.mem_cons_self)
    rw [hc] at hd
    cases hd
  | cons d rest' =>
    rw [htrim, List.cons_append] at hsplit
    exact ⟨rest', by rw [(List.cons.inj hsplit).1]⟩

section Lines
variable {r : Reader} {key value : List Char}

theorem enter_directive (hkey : IsKey key) (r : Reader) (value : List Char) :
    r.enter (key ++ '=' :: value) =
      { r with directives := r.directives ++ [⟨r.inSection, key, value.dropWhile white⟩] } := by
  obtain ⟨hhead, hlast, hplain, -⟩ := hkey
  cases key with
  | nil => cases hhead
  | cons c key =>
    have hc : white c = false ∧ c ≠ '[' := by
      have hc : (!(white c || c == '[' || c == '#' || c == ';')) = true := hhead
      simp only [Bool.not_eq_true', Bool.or_eq_false_iff, beq_eq_false_iff_ne] at hc
      exact ⟨hc.1.1.1, hc.1.1.2⟩
    obtain ⟨rest, htrim⟩ := trim_cons hc.1 (key ++ '=' :: value)
    have hself : trim white (c :: key) = c :: key := by
      refine trim_eq_self ⟨fun d hd => ?_, hlast⟩
      rw [← Option.some.inj hd]
      exact hc.1
    rw [Reader.enter, List.cons_append, htrim]
    have hcut := cut_append hplain value
    rw [List.cons_append] at hcut
    split
    · rename_i hbracket
      exact absurd (List.cons.inj hbracket).1 hc.2
    · rw [hcut]
      simp only [hself]

theorem comment_key (hkey : IsKey key) (rest : List Char) : comment (key ++ rest) = false := by
  obtain ⟨hhead, -, -, -⟩ := hkey
  cases key with
  | nil => cases hhead
  | cons c key =>
    have hc : (!(white c || c == '[' || c == '#' || c == ';')) = true := hhead
    simp only [Bool.not_eq_true', Bool.or_eq_false_iff] at hc
    rw [comment, List.cons_append, List.dropWhile_cons, if_neg (by rw [hc.1.1.1]; exact Bool.false_ne_true)]
    simp only [hc.1.2, hc.2, Bool.or_false]

theorem feed_append (r : Reader) (s t : List Char) : r.feed (s ++ t) = (r.feed s).feed t := List.foldl_append

/-- Within a line, what is read is put down. -/
theorem feed_plain {s : List Char} (hs : ∀ c ∈ s, lineBreak c = false) (r : Reader) :
    r.feed s = { r with line := r.line ++ s } := by
  induction s generalizing r with
  | nil => rw [List.append_nil]; rfl
  | cons c s ih =>
    obtain ⟨hc, hs⟩ := List.forall_mem_cons.mp hs
    have hnext : r.next c = { r with line := r.line ++ [c] } := by rw [Reader.next, hc]; rfl
    have hmore := ih hs { r with line := r.line ++ [c] }
    rw [List.append_assoc, List.singleton_append] at hmore
    rw [← hmore, ← hnext]
    rfl

theorem feed_break {c : Char} (hc : lineBreak c = true) (r : Reader) : r.feed [c] = r.endLine := by
  rw [Reader.feed, List.foldl_cons, List.foldl_nil, Reader.next, hc]
  rfl

/-- A line that is no comment and does not go on. -/
theorem endLine_whole (hcomment : comment r.line = false)
    (hlast : (r.pending.getD [] ++ r.line).getLast? ≠ some '\\') :
    r.endLine = { r with line := [], pending := none }.enter (r.pending.getD [] ++ r.line) := by
  rw [Reader.endLine, hcomment]
  simp only [Bool.false_eq_true, if_false, if_neg hlast]

theorem endLine_line (r : Reader) : r.endLine.line = [] := by
  rw [Reader.endLine]
  split
  · rfl
  · dsimp only
    split
    · rfl
    · rw [Reader.enter]
      split
      · split <;> rfl
      · split <;> rfl

theorem endLine_backslash (hcomment : comment r.line = false)
    (hlast : (r.pending.getD [] ++ r.line).getLast? = some '\\') :
    r.endLine = { r with line := [], pending := some ((r.pending.getD [] ++ r.line).dropLast ++ [' ']) } := by
  rw [Reader.endLine, hcomment]
  simp only [Bool.false_eq_true, if_false, if_pos hlast]

/-- A reader at the start of a line that goes on from none. -/
def Fresh (r : Reader) : Prop := r.line = [] ∧ r.pending = none

theorem feed_directive (hkey : IsKey key) (hfresh : Fresh r) (hbreaks : ∀ c ∈ key ++ '=' :: value, lineBreak c = false)
    (hlast : value.getLast? ≠ some '\\') {c : Char} (hc : lineBreak c = true) :
    r.feed (key ++ '=' :: value ++ [c]) =
      { r with directives := r.directives ++ [⟨r.inSection, key, value.dropWhile white⟩] } := by
  obtain ⟨hline, hpending⟩ := hfresh
  rw [feed_append, feed_plain hbreaks, feed_break hc, hline, List.nil_append]
  have hend : ('=' :: value).getLast? ≠ some '\\' := by
    cases value with
    | nil => decide
    | cons d value => rw [List.getLast?_cons_cons]; exact hlast
  have hwhole : (r.pending.getD [] ++ (key ++ '=' :: value)).getLast? ≠ some '\\' := by
    rw [hpending, Option.getD_none, List.nil_append, List.getLast?_append_of_ne_nil _ (List.cons_ne_nil _ _)]
    exact hend
  rw [endLine_whole (comment_key hkey _) hwhole]
  simp only [hpending, Option.getD_none, List.nil_append]
  rw [enter_directive hkey]

/-- A line that ends in a backslash is held back. -/
theorem feed_backslash (hkey : IsKey key) (hfresh : Fresh r)
    (hbreaks : ∀ c ∈ key ++ '=' :: (value ++ ['\\']), lineBreak c = false) {c : Char} (hc : lineBreak c = true) :
    r.feed (key ++ '=' :: (value ++ ['\\']) ++ [c]) = { r with pending := some (key ++ '=' :: (value ++ [' '])) } := by
  obtain ⟨hline, hpending⟩ := hfresh
  have hwhole : key ++ '=' :: (value ++ ['\\']) = (key ++ '=' :: value) ++ ['\\'] := by simp
  rw [feed_append, feed_plain hbreaks, feed_break hc, hline, List.nil_append]
  rw [endLine_backslash (comment_key hkey _)]
  · simp only [hpending, Option.getD_none, List.nil_append, hwhole, List.dropLast_concat]
    simp
  · rw [hpending, Option.getD_none, List.nil_append, hwhole, List.getLast?_concat]

/-! ### Directives that go on -/

/-- Directives that are read stay. -/
theorem directives_enter (r : Reader) (whole : List Char) : ∃ more, (r.enter whole).directives = r.directives ++ more := by
  rw [Reader.enter]
  split
  · split
    · exact ⟨[], (List.append_nil _).symm⟩
    · exact ⟨[], (List.append_nil _).symm⟩
  · split
    · exact ⟨_, rfl⟩
    · exact ⟨[], (List.append_nil _).symm⟩

theorem directives_endLine (r : Reader) : ∃ more, r.endLine.directives = r.directives ++ more := by
  rw [Reader.endLine]
  split
  · exact ⟨[], (List.append_nil _).symm⟩
  · dsimp only
    split
    · exact ⟨[], (List.append_nil _).symm⟩
    · exact directives_enter _ _

theorem directives_feed (r : Reader) (text : List Char) : ∃ more, (r.feed text).directives = r.directives ++ more := by
  induction text generalizing r with
  | nil => exact ⟨[], (List.append_nil _).symm⟩
  | cons c text ih =>
    obtain ⟨more, hmore⟩ := ih (r.next c)
    have hnext : ∃ more, (r.next c).directives = r.directives ++ more := by
      rw [Reader.next]
      split
      · exact directives_endLine r
      · exact ⟨[], (List.append_nil _).symm⟩
    obtain ⟨more', hmore'⟩ := hnext
    exact ⟨more' ++ more, by rw [Reader.feed, List.foldl_cons, ← Reader.feed, hmore, hmore', List.append_assoc]⟩

theorem directives_finish (r : Reader) : ∃ more, r.finish = r.directives ++ more := by
  obtain ⟨more, hmore⟩ := directives_endLine r
  obtain ⟨more', hmore'⟩ := directives_endLine r.endLine
  exact ⟨more ++ more', by rw [Reader.finish, hmore', hmore, List.append_assoc]⟩

theorem finish_feed (r : Reader) (text : List Char) : ∃ more, (r.feed text).finish = r.directives ++ more := by
  obtain ⟨more, hmore⟩ := directives_feed r text
  obtain ⟨more', hmore'⟩ := directives_finish (r.feed text)
  exact ⟨more ++ more', by rw [hmore', hmore, List.append_assoc]⟩

/-- The reader holds `key=value` back, and the value goes on. -/
structure Held (r : Reader) (key value : List Char) : Prop where
  pending : r.pending = some (key ++ '=' :: value)
  last : value.getLast? = some ' '

/-- What is made of a directive that goes on: it still does, or it was put down. -/
inductive Carried (r : Reader) (key value : List Char) (limit : Nat) (r' : Reader) : Prop where
  | still (more : List Char) (held : Held r' key (value ++ more)) (inSection : r'.inSection = r.inSection)
      (directives : r'.directives = r.directives) (length : more.length + r'.line.length ≤ limit)
  | done (more : List Char) (after : List Directive)
      (directives : r'.directives = r.directives ++ ⟨r.inSection, key, (value ++ more).dropWhile white⟩ :: after)
      (length : more.length + 1 ≤ limit)

theorem Carried.mono {limit limit' : Nat} {r' : Reader} (h : Carried r key value limit r') (hlimit : limit ≤ limit') :
    Carried r key value limit' r' := by
  cases h with
  | still more hheld hsection hdirectives hlength =>
    exact .still more hheld hsection hdirectives (hlength.trans hlimit)
  | done more after hdirectives hlength => exact .done more after hdirectives (hlength.trans hlimit)

theorem Carried.trans {limit limit' : Nat} {r' r'' : Reader} (h : Carried r key value limit r')
    (hstill : ∀ more, Held r' key (value ++ more) → more.length + r'.line.length ≤ limit →
      Carried r' key (value ++ more) (limit' - more.length) r'')
    (hdone : ∃ more, r''.directives = r'.directives ++ more) (hlimit : limit ≤ limit') :
    Carried r key value limit' r'' := by
  cases h with
  | still more hheld hsection hdirectives hlength =>
    cases hstill more hheld hlength with
    | still more' hheld' hsection' hdirectives' hlength' =>
      rw [List.append_assoc] at hheld'
      refine .still (more ++ more') hheld' (hsection'.trans hsection) (hdirectives'.trans hdirectives) ?_
      rw [List.length_append]
      omega
    | done more' after hdirectives' hlength' =>
      rw [hsection, hdirectives, List.append_assoc] at hdirectives'
      refine .done (more ++ more') after hdirectives' ?_
      rw [List.length_append]
      omega
  | done more after hdirectives hlength =>
    obtain ⟨after', hafter⟩ := hdone
    rw [hdirectives, List.append_assoc, List.cons_append] at hafter
    exact .done more (after ++ after') hafter (hlength.trans hlimit)

theorem carried_endLine (hkey : IsKey key) (hheld : Held r key value) :
    Carried r key value (r.line.length + 1) r.endLine := by
  obtain ⟨hpending, hspace⟩ := hheld
  have hwhole : r.pending.getD [] ++ r.line = key ++ '=' :: (value ++ r.line) := by
    rw [hpending, Option.getD_some, List.append_assoc, List.cons_append]
  cases hcomment : comment r.line with
  | true =>
    have hend : r.endLine = { r with line := [] } := by rw [Reader.endLine, hcomment, if_pos rfl]
    rw [hend]
    exact .still [] ⟨by rw [List.append_nil]; exact hpending, by rw [List.append_nil]; exact hspace⟩ rfl rfl
      (Nat.zero_le _)
  | false =>
    by_cases hlast : (r.pending.getD [] ++ r.line).getLast? = some '\\'
    · have hline : r.line.getLast? = some '\\' := by
        rw [hwhole, List.getLast?_append_of_ne_nil _ (List.cons_ne_nil _ _)] at hlast
        cases hnil : r.line with
        | nil =>
          obtain ⟨front, hfront⟩ := List.getLast?_eq_some_iff.mp hspace
          rw [hnil, List.append_nil, hfront, ← List.cons_append, List.getLast?_concat] at hlast
          cases hlast
        | cons c line =>
          rw [hnil, ← List.cons_append, List.getLast?_append_of_ne_nil _ (List.cons_ne_nil _ _)] at hlast
          exact hlast
      obtain ⟨front, hfront⟩ := List.getLast?_eq_some_iff.mp hline
      have hback : key ++ '=' :: (value ++ (front ++ ['\\'])) = (key ++ '=' :: (value ++ front)) ++ ['\\'] := by
        simp
      rw [endLine_backslash hcomment hlast, hwhole, hfront, hback, List.dropLast_concat]
      refine .still (front ++ [' ']) ⟨by simp, ?_⟩ rfl rfl ?_
      · rw [← List.append_assoc, List.getLast?_concat]
      · simp only [List.length_append, List.length_cons, List.length_nil]
        omega
    · rw [endLine_whole hcomment hlast, hwhole, enter_directive hkey]
      exact .done r.line [] rfl (Nat.le_refl _)

/-- By induction on what is read, character by character. -/
theorem carried_feed (hkey : IsKey key) (hheld : Held r key value) (text : List Char) :
    Carried r key value (r.line.length + text.length) (r.feed text) := by
  induction text generalizing r value with
  | nil =>
    refine .still [] ?_ rfl rfl (by simp [Reader.feed])
    rw [List.append_nil]
    exact hheld
  | cons c text ih =>
    have hfeed : r.feed (c :: text) = (r.next c).feed text := rfl
    rw [hfeed, Reader.next]
    split
    · refine (carried_endLine hkey hheld).trans (fun more hmore hlength => ?_) (directives_feed _ _) ?_
      · refine (ih hmore).mono ?_
        rw [List.length_cons]
        omega
      · rw [List.length_cons]
        omega
    · have hrest := ih (r := { r with line := r.line ++ [c] }) ⟨hheld.pending, hheld.last⟩
      rw [List.length_append, List.length_singleton, Nat.add_assoc, Nat.add_comm 1] at hrest
      cases hrest with
      | still more hmore hsection hdirectives hlength => exact .still more hmore hsection hdirectives hlength
      | done more after hdirectives hlength => exact .done more after hdirectives hlength

/-- In the end it is put down. -/
theorem finish_held (hkey : IsKey key) (hheld : Held r key value) :
    ∃ more after, r.finish = r.directives ++ ⟨r.inSection, key, (value ++ more).dropWhile white⟩ :: after := by
  have hstart := carried_endLine hkey hheld
  have hend : r.finish = r.endLine.endLine.directives := rfl
  cases hstart with
  | still more hmore hsection hdirectives _ =>
    have hline : r.endLine.line = [] := endLine_line r
    have hblank : comment r.endLine.line = false := by rw [hline]; rfl
    have hwhole : r.endLine.pending.getD [] ++ r.endLine.line = key ++ '=' :: (value ++ more) := by
      rw [hmore.pending, hline, Option.getD_some, List.append_nil]
    refine ⟨more, [], ?_⟩
    rw [hend, endLine_whole hblank, hwhole, enter_directive hkey]
    · simp only [hsection, hdirectives]
    · obtain ⟨front, hfront⟩ := List.getLast?_eq_some_iff.mp hmore.last
      rw [hwhole, hfront, ← List.cons_append, ← List.append_assoc, List.getLast?_concat]
      decide
  | done more after hdirectives _ =>
    obtain ⟨after', hafter⟩ := directives_endLine r.endLine
    refine ⟨more, after ++ after', ?_⟩
    rw [hend, hafter, hdirectives, List.append_assoc, List.cons_append]

/-! ### A directive with any value -/

theorem plain_or_split (s : List Char) : (∀ c ∈ s, lineBreak c = false) ∨
    ∃ front b back, s = front ++ b :: back ∧ lineBreak b = true ∧ ∀ c ∈ front, lineBreak c = false := by
  induction s with
  | nil => exact .inl (List.forall_mem_nil _)
  | cons c s ih =>
    cases hc : lineBreak c with
    | true => exact .inr ⟨[], c, s, rfl, hc, List.forall_mem_nil _⟩
    | false =>
      rcases ih with hs | ⟨front, b, back, rfl, hb, hfront⟩
      · exact .inl (List.forall_mem_cons.mpr ⟨hc, hs⟩)
      · exact .inr ⟨c :: front, b, back, rfl, hb, List.forall_mem_cons.mpr ⟨hc, hfront⟩⟩

theorem IsKey.plain_append (hkey : IsKey key) (hvalue : ∀ c ∈ value, lineBreak c = false) :
    ∀ c ∈ key ++ '=' :: value, lineBreak c = false := by
  intro c hc
  rcases List.mem_append.mp hc with hc | hc
  · exact hkey.breaks c hc
  · rcases List.mem_cons.mp hc with rfl | hc
    · rfl
    · exact hvalue c hc

/-- The line that a directive begins in has its value, or the value's beginning if the line ends in a
backslash. -/
theorem finish_line (hkey : IsKey key) (hfresh : Fresh r) (hvalue : ∀ c ∈ value, lineBreak c = false) {b : Char}
    (hb : lineBreak b = true) (rest : List Char) :
    ∃ v after, (r.feed (key ++ '=' :: value ++ [b] ++ rest)).finish =
        r.directives ++ ⟨r.inSection, key, v.dropWhile white⟩ :: after ∧
      (value.getLast? ≠ some '\\' → v = value) ∧
      ∀ front, value = front ++ ['\\'] → ∃ more, v = front ++ ' ' :: more := by
  by_cases hlast : value.getLast? = some '\\'
  · obtain ⟨front, rfl⟩ := List.getLast?_eq_some_iff.mp hlast
    have hheld : Held { r with pending := some (key ++ '=' :: (front ++ [' '])) } key (front ++ [' ']) :=
      ⟨rfl, List.getLast?_concat⟩
    rw [feed_append, feed_backslash hkey hfresh (hkey.plain_append hvalue) hb]
    have hfinish : ∃ more after, ({ r with pending := some (key ++ '=' :: (front ++ [' '])) }.feed rest).finish =
        r.directives ++ ⟨r.inSection, key, (front ++ [' '] ++ more).dropWhile white⟩ :: after := by
      cases carried_feed hkey hheld rest with
      | still more hmore hsection hdirectives _ =>
        obtain ⟨more', after, hafter⟩ := finish_held hkey hmore
        rw [hsection, hdirectives, List.append_assoc _ more] at hafter
        exact ⟨more ++ more', after, hafter⟩
      | done more after hdirectives _ =>
        obtain ⟨after', hafter⟩ := directives_finish ({ r with pending := some (key ++ '=' :: (front ++ [' '])) }.feed rest)
        rw [hdirectives, List.append_assoc, List.cons_append] at hafter
        exact ⟨more, after ++ after', hafter⟩
    obtain ⟨more, after, hafter⟩ := hfinish
    rw [List.append_assoc front, List.singleton_append] at hafter
    refine ⟨_, after, hafter, fun h => absurd hlast h, fun front' hfront => ⟨more, ?_⟩⟩
    rw [(List.append_inj' hfront rfl).1]
  · rw [feed_append, feed_directive hkey hfresh (hkey.plain_append hvalue) hlast hb]
    obtain ⟨more, hmore⟩ := finish_feed { r with directives := r.directives ++ [⟨r.inSection, key, value.dropWhile white⟩] } rest
    rw [List.append_assoc, List.singleton_append] at hmore
    refine ⟨value, more, hmore, fun _ => rfl, fun front hfront => absurd ?_ hlast⟩
    rw [hfront, List.getLast?_concat]

/-- What is read of `key=value` when the value may have line breaks of its own. -/
inductive Taken (r : Reader) (key value : List Char) (r' : Reader) : Prop where
  | whole (hbreaks : ∀ c ∈ value, lineBreak c = false) (hlast : value.getLast? ≠ some '\\')
      (read : r' = { r with directives := r.directives ++ [⟨r.inSection, key, value.dropWhile white⟩] })
  | less (v : List Char) (after : List Directive)
      (directives : r'.directives = r.directives ++ ⟨r.inSection, key, v.dropWhile white⟩ :: after)
      (length : v.length < value.length)
  | held (v : List Char) (held : Held r' key v) (line : r'.line = []) (inSection : r'.inSection = r.inSection)
      (directives : r'.directives = r.directives)

theorem taken (hkey : IsKey key) (hfresh : Fresh r) (value : List Char) {b : Char} (hb : lineBreak b = true) :
    Taken r key value (r.feed (key ++ '=' :: value ++ [b])) := by
  rcases plain_or_split value with hvalue | ⟨front, b', back, rfl, hb', hfront⟩
  · by_cases hlast : value.getLast? = some '\\'
    · obtain ⟨front, rfl⟩ := List.getLast?_eq_some_iff.mp hlast
      rw [feed_backslash hkey hfresh (hkey.plain_append hvalue) hb]
      exact .held (front ++ [' ']) ⟨rfl, List.getLast?_concat⟩ hfresh.1 rfl rfl
    · exact .whole hvalue hlast (feed_directive hkey hfresh (hkey.plain_append hvalue) hlast hb)
  · have hsplit : key ++ '=' :: (front ++ b' :: back) ++ [b] = key ++ '=' :: front ++ [b'] ++ (back ++ [b]) := by simp
    rw [hsplit, feed_append]
    by_cases hlast : front.getLast? = some '\\'
    · obtain ⟨front, rfl⟩ := List.getLast?_eq_some_iff.mp hlast
      have hheld : Held { r with pending := some (key ++ '=' :: (front ++ [' '])) } key (front ++ [' ']) :=
        ⟨rfl, List.getLast?_concat⟩
      rw [feed_backslash hkey hfresh (hkey.plain_append hfront) hb']
      cases carried_feed hkey hheld (back ++ [b]) with
      | still more hmore hsection hdirectives _ =>
        refine .held _ hmore ?_ hsection hdirectives
        rw [feed_append, feed_break hb, endLine_line]
      | done more after hdirectives hlength =>
        refine .less _ after hdirectives ?_
        simp only [hfresh.1, List.length_append, List.length_cons, List.length_nil] at hlength ⊢
        omega
    · rw [feed_directive hkey hfresh (hkey.plain_append hfront) hlast hb']
      obtain ⟨more, hmore⟩ :=
        directives_feed { r with directives := r.directives ++ [⟨r.inSection, key, front.dropWhile white⟩] } (back ++ [b])
      rw [List.append_assoc, List.singleton_append] at hmore
      refine .less front more hmore ?_
      rw [List.length_append, List.length_cons]
      omega

/-- Whatever the value, the directive is read. -/
theorem finish_key (hkey : IsKey key) (hfresh : Fresh r) (value : List Char) {b : Char} (hb : lineBreak b = true)
    (rest : List Char) : ∃ v after, (r.feed (key ++ '=' :: value ++ [b] ++ rest)).finish =
      r.directives ++ ⟨r.inSection, key, v⟩ :: after := by
  rcases plain_or_split value with hvalue | ⟨front, b', back, rfl, hb', hfront⟩
  · obtain ⟨v, after, hfinish, -, -⟩ := finish_line hkey hfresh hvalue hb rest
    exact ⟨_, after, hfinish⟩
  · have hsplit : key ++ '=' :: (front ++ b' :: back) ++ [b] ++ rest = key ++ '=' :: front ++ [b'] ++ (back ++ b :: rest) := by
      simp
    rw [hsplit]
    obtain ⟨v, after, hfinish, -, -⟩ := finish_line hkey hfresh hfront hb' (back ++ b :: rest)
    exact ⟨_, after, hfinish⟩

/-- A line that does not go on ends what is held back. -/
theorem feed_held (hkey : IsKey key) (hheld : Held r key value) (hline : r.line = []) {s : List Char}
    (hs : ∀ c ∈ s, lineBreak c = false) (hcomment : comment s = false) (hnil : s ≠ []) (hlast : s.getLast? ≠ some '\\')
    {b : Char} (hb : lineBreak b = true) : r.feed (s ++ [b]) =
      { r with pending := none, directives := r.directives ++ [⟨r.inSection, key, (value ++ s).dropWhile white⟩] } := by
  have hwhole : r.pending.getD [] ++ s = key ++ '=' :: (value ++ s) := by
    rw [hheld.pending, Option.getD_some, List.append_assoc, List.cons_append]
  rw [feed_append, feed_plain hs, feed_break hb, hline, List.nil_append, endLine_whole hcomment]
  · dsimp only
    rw [hwhole, enter_directive hkey]
  · rw [List.getLast?_append_of_ne_nil _ hnil]
    exact hlast

/-! ### Other lines -/

theorem fresh_enter (hfresh : Fresh r) (whole : List Char) : Fresh (r.enter whole) := by
  rw [Reader.enter]
  split
  · split
    · exact hfresh
    · exact hfresh
  · split
    · exact hfresh
    · exact hfresh

/-- Behind a line that does not go on the reader starts anew, whatever it held back. -/
theorem fresh_feed {s : List Char} {b : Char} (hline : r.line = []) (hs : ∀ c ∈ s, lineBreak c = false)
    (hb : lineBreak b = true) (hcomment : comment s = false) (hnil : s ≠ []) (hlast : s.getLast? ≠ some '\\') :
    Fresh (r.feed (s ++ [b])) := by
  rw [feed_append, feed_plain hs, feed_break hb, hline, List.nil_append, endLine_whole hcomment]
  · exact fresh_enter ⟨rfl, rfl⟩ _
  · rw [List.getLast?_append_of_ne_nil _ hnil]
    exact hlast

theorem feed_blank (hfresh : Fresh r) {b : Char} (hb : lineBreak b = true) : r.feed [b] = r := by
  obtain ⟨hline, hpending⟩ := hfresh
  cases r with
  | mk line pending inSection directives =>
    subst hline hpending
    rw [feed_break hb]
    rfl

theorem feed_section (hfresh : Fresh r) {name : List Char} (hname : ∀ c ∈ name, lineBreak c = false) {b : Char}
    (hb : lineBreak b = true) : r.feed ('[' :: name ++ [']'] ++ [b]) = { r with inSection := name } := by
  obtain ⟨hline, hpending⟩ := hfresh
  have hbreaks : ∀ c ∈ '[' :: name ++ [']'], lineBreak c = false := by
    intro c hc
    simp only [List.cons_append, List.mem_cons, List.mem_append, List.not_mem_nil, or_false] at hc
    rcases hc with rfl | hc | rfl
    · rfl
    · exact hname c hc
    · rfl
  have hself : trim white ('[' :: name ++ [']']) = '[' :: (name ++ [']']) := by
    refine trim_eq_self ⟨fun d hd => ?_, fun d hd => ?_⟩
    · rw [← Option.some.inj hd]
      rfl
    · rw [List.getLast?_concat] at hd
      rw [← Option.some.inj hd]
      rfl
  rw [feed_append, feed_plain hbreaks, feed_break hb, hline, List.nil_append, endLine_whole rfl]
  · simp only [hpending, Option.getD_none, List.nil_append, Reader.enter, hself, List.getLast?_concat, if_true,
      List.dropLast_concat]
  · rw [hpending, Option.getD_none, List.nil_append, List.getLast?_concat]
    decide

theorem finish_fresh (hfresh : Fresh r) : r.finish = r.directives := by
  obtain ⟨hline, hpending⟩ := hfresh
  cases r with
  | mk line pending inSection directives =>
    subst hline hpending
    rfl

/-! ### Readers that go on -/

/-- The reader with more directives. -/
def Reader.add (r : Reader) (more : List Directive) : Reader := { r with directives := r.directives ++ more }

@[simp] theorem directives_add (r : Reader) (more : List Directive) :
    (r.add more).directives = r.directives ++ more := rfl

@[simp] theorem inSection_add (r : Reader) (more : List Directive) : (r.add more).inSection = r.inSection := rfl

theorem add_add (r : Reader) (more more' : List Directive) : (r.add more).add more' = r.add (more ++ more') := by
  rw [Reader.add, Reader.add, Reader.add, List.append_assoc]

theorem add_nil (r : Reader) : r.add [] = r := by
  rw [Reader.add, List.append_nil]

theorem fresh_add (hfresh : Fresh r) (more : List Directive) : Fresh (r.add more) := hfresh

theorem feed_add (hkey : IsKey key) (hfresh : Fresh r) (hvalue : ∀ c ∈ value, lineBreak c = false)
    (hlast : value.getLast? ≠ some '\\') {b : Char} (hb : lineBreak b = true) :
    r.feed (key ++ '=' :: value ++ [b]) = r.add [⟨r.inSection, key, value.dropWhile white⟩] :=
  feed_directive hkey hfresh (hkey.plain_append hvalue) hlast hb

end Lines

/-! ### Directives by their names -/

def Directive.name (d : Directive) : List Char × List Char := (d.inSection, d.key)

/-- What the directives of one name set, in order. -/
def values (directives : List Directive) (inSection key : List Char) : List (List Char) :=
  (directives.filter fun d => d.name = (inSection, key)).map Directive.value

theorem values_nil (inSection key : List Char) : values [] inSection key = [] := rfl

theorem values_append (ds ds' : List Directive) (inSection key : List Char) :
    values (ds ++ ds') inSection key = values ds inSection key ++ values ds' inSection key := by
  rw [values, List.filter_append, List.map_append]
  rfl

theorem values_cons (d : Directive) (ds : List Directive) (inSection key : List Char) :
    values (d :: ds) inSection key =
      (if d.name = (inSection, key) then [d.value] else []) ++ values ds inSection key := by
  rw [values, List.filter_cons]
  split
  · rename_i hname
    rw [if_pos (of_decide_eq_true hname)]
    rfl
  · rename_i hname
    rw [if_neg fun h => hname (decide_eq_true h)]
    rfl

theorem values_self (ds : List Directive) (inSection key value : List Char) :
    values (⟨inSection, key, value⟩ :: ds) inSection key = value :: values ds inSection key := by
  rw [values_cons, if_pos (by rfl), List.singleton_append]

theorem length_values (ds : List Directive) (inSection key : List Char) :
    (values ds inSection key).length = (ds.map Directive.name).count (inSection, key) := by
  induction ds with
  | nil => rfl
  | cons d ds ih =>
    rw [values_cons, List.length_append, ih, List.map_cons, List.count_cons, Nat.add_comm]
    congr 1
    by_cases hname : d.name = (inSection, key)
    · rw [if_pos hname, hname, if_pos (beq_self_eq_true _)]
      rfl
    · rw [if_neg hname, if_neg (by simpa using hname)]
      rfl

theorem values_eq_nil {ds : List Directive} {inSection key : List Char}
    (h : (inSection, key) ∉ ds.map Directive.name) : values ds inSection key = [] :=
  List.eq_nil_of_length_eq_zero (by rw [length_values, List.count_eq_zero.mpr h])

end UnitFile
