import Marshal.Lib.Chars
import Mathlib.Data.List.Basic

/-! XML documents, and the property lists that are written in them.

A document is read character by character into events, and the events into elements. The reader
takes nothing it has no reading for: no comment, no section of character data, no declarations of the
document's own, no carriage return and no lone `>` in a text. What a text reads as does not
depend on what follows it (`Content`), so a document is put together from its parts; and so are
the arrays (`Items`) and the dictionaries (`Entries`) of a property list. -/
namespace Xml

/-- The characters a document may hold. -/
def isChar (c : Char) : Bool :=
  c = '\t' || c = '\n' || c = '\r' || (0x20 ≤ c.toNat && c.toNat ≤ 0xD7FF) ||
    (0xE000 ≤ c.toNat && c.toNat ≤ 0xFFFD) || (0x10000 ≤ c.toNat && c.toNat ≤ 0x10FFFF)

abbrev Attributes := List (List Char × List Char)

inductive Event where
  | opened (name : List Char) (attributes : Attributes)
  | closed (name : List Char)
  /-- An element that is opened and closed by one tag. -/
  | void (name : List Char) (attributes : Attributes)
  | char (c : Char)
  deriving DecidableEq, Repr

/-! ### References -/

def digit (c : Char) : Option Nat :=
  if '0' ≤ c ∧ c ≤ '9' then some (c.toNat - 48)
  else if 'a' ≤ c ∧ c ≤ 'f' then some (c.toNat - 87)
  else if 'A' ≤ c ∧ c ≤ 'F' then some (c.toNat - 55)
  else none

def number (base : Nat) (digits : List Char) : Option Nat :=
  if digits = [] then none
  else digits.foldlM (fun n c => (digit c).bind fun d => if d < base then some (n * base + d) else none) 0

def numbered (n : Nat) : Option Char :=
  if n.isValidChar ∧ isChar (Char.ofNat n) then some (Char.ofNat n) else none

/-- The character that is meant by a name between `&` and `;`. -/
def referred : List Char → Option Char
  | ['l', 't'] => some '<'
  | ['g', 't'] => some '>'
  | ['a', 'm', 'p'] => some '&'
  | ['q', 'u', 'o', 't'] => some '"'
  | ['a', 'p', 'o', 's'] => some '\''
  | '#' :: 'x' :: digits => (number 16 digits).bind numbered
  | '#' :: digits => (number 10 digits).bind numbered
  | _ => none

/-! ### Events -/

/-- Where the reader stands. -/
inductive Mode where
  | text
  | reference (name : List Char)
  /-- After `<`, and after `<!`. -/
  | markup
  | declared
  | closing (name : List Char)
  | tag (name : List Char)
  /-- Behind a name or an attribute, and behind the blanks that follow it. -/
  | attributed (name : List Char) (attributes : Attributes)
  | between (name : List Char) (attributes : Attributes)
  | key (name : List Char) (attributes : Attributes) (key : List Char)
  | equals (name : List Char) (attributes : Attributes) (key : List Char)
  | value (name : List Char) (attributes : Attributes) (key : List Char) (quote : Char) (value : List Char)
  | slash (name : List Char) (attributes : Attributes)
  | instruction (mark : Bool)
  | declaration (quote : Option Char)
  deriving DecidableEq, Repr

def blank (c : Char) : Bool := c = ' ' || c = '\t' || c = '\n'

def nameStart (c : Char) : Bool := c.isAlpha || c = '_'

def nameChar (c : Char) : Bool := c.isAlphanum || c = '_' || c = '-' || c = '.'

/-- How a tag goes on where its name or an attribute has just ended. -/
def afterName (name : List Char) (attributes : Attributes) (c : Char) : Option (List Event × Mode) :=
  if c = '>' then some ([.opened name attributes], .text)
  else if c = '/' then some ([], .slash name attributes)
  else if blank c then some ([], .between name attributes)
  else none

/-- One character: the events it completes, and how reading goes on. -/
def step (mode : Mode) (c : Char) : Option (List Event × Mode) :=
  match mode with
  | .text =>
    if c = '<' then some ([], .markup)
    else if c = '&' then some ([], .reference [])
    else if c = '>' ∨ c = '\r' ∨ isChar c = false then none
    else some ([.char c], .text)
  | .reference name =>
    if c = ';' then (referred name).map fun d => ([.char d], .text)
    else some ([], .reference (name ++ [c]))
  | .markup =>
    if c = '/' then some ([], .closing [])
    else if c = '?' then some ([], .instruction false)
    else if c = '!' then some ([], .declared)
    else if nameStart c then some ([], .tag [c])
    else none
  | .declared => if c = 'D' then some ([], .declaration none) else none
  | .closing name =>
    if c = '>' then if name = [] then none else some ([.closed name], .text)
    else if nameChar c then some ([], .closing (name ++ [c]))
    else none
  | .tag name => if nameChar c then some ([], .tag (name ++ [c])) else afterName name [] c
  | .attributed name attributes => afterName name attributes c
  | .between name attributes =>
    if nameStart c then some ([], .key name attributes [c]) else afterName name attributes c
  | .key name attributes key =>
    if c = '=' then some ([], .equals name attributes key)
    else if nameChar c then some ([], .key name attributes (key ++ [c]))
    else none
  | .equals name attributes key =>
    if c = '"' ∨ c = '\'' then some ([], .value name attributes key c []) else none
  | .value name attributes key quote value =>
    if c = quote then some ([], .attributed name (attributes ++ [(key, value)]))
    else if c = '<' ∨ c = '&' ∨ c < ' ' ∨ isChar c = false then none
    else some ([], .value name attributes key quote (value ++ [c]))
  | .slash name attributes => if c = '>' then some ([.void name attributes], .text) else none
  | .instruction mark =>
    if mark ∧ c = '>' then some ([], .text) else some ([], .instruction (c == '?'))
  | .declaration (some quote) => some ([], .declaration (if c = quote then none else some quote))
  | .declaration none =>
    if c = '>' then some ([], .text)
    else if c = '"' ∨ c = '\'' then some ([], .declaration (some c))
    else if c = '[' ∨ c = '<' then none
    else some ([], .declaration none)

/-- The events of a text; none where it ends inside of markup. -/
def read (mode : Mode) : List Char → Option (List Event)
  | [] => if mode = .text then some [] else none
  | c :: rest => (step mode c).bind fun s => (read s.2 rest).map (s.1 ++ ·)

theorem read_cons (mode : Mode) (c : Char) (rest : List Char) :
    read mode (c :: rest) = (step mode c).bind fun s => (read s.2 rest).map (s.1 ++ ·) := rfl

/-- A character that completes nothing. -/
theorem read_step {mode mode' : Mode} {c : Char} (h : step mode c = some ([], mode')) (rest : List Char) :
    read mode (c :: rest) = read mode' rest := by
  rw [read_cons, h, Option.bind_some]
  exact Option.map_id'

theorem read_event {mode : Mode} {c : Char} {e : Event} (h : step mode c = some ([e], .text)) (rest : List Char) :
    read mode (c :: rest) = (read .text rest).map ([e] ++ ·) := by
  rw [read_cons, h, Option.bind_some]

/-- Whatever follows it, the text reads as these events. -/
def Reads (text : List Char) (events : List Event) : Prop :=
  ∀ rest, read .text (text ++ rest) = (read .text rest).map (events ++ ·)

theorem Reads.nil : Reads [] [] := fun _ => Option.map_id'.symm

theorem Reads.append {text text' : List Char} {events events' : List Event} (h : Reads text events)
    (h' : Reads text' events') : Reads (text ++ text') (events ++ events') := by
  intro rest
  rw [List.append_assoc, h, h', Option.map_map]
  congr 1
  funext more
  exact (List.append_assoc events events' more).symm

/-- How reading goes on behind a text that completes nothing. -/
def quiet (mode : Mode) : List Char → Option Mode
  | [] => some mode
  | c :: rest => (step mode c).bind fun s => if s.1 = [] then quiet s.2 rest else none

theorem read_quiet {mode mode' : Mode} {text : List Char} (h : quiet mode text = some mode') (rest : List Char) :
    read mode (text ++ rest) = read mode' rest := by
  induction text generalizing mode with
  | nil => rw [List.nil_append, Option.some.inj h]
  | cons c text ih =>
    obtain ⟨s, hstep, hquiet⟩ := Option.bind_eq_some_iff.mp h
    obtain ⟨events, next⟩ := s
    by_cases hnil : events = []
    · subst hnil
      rw [List.cons_append, read_step hstep, ih hquiet]
    · rw [if_neg hnil] at hquiet
      cases hquiet

/-- Markup that says nothing about the elements. -/
theorem Reads.quiet {text : List Char} (h : quiet .text text = some .text) : Reads text [] := by
  intro rest
  rw [read_quiet h]
  exact Option.map_id'.symm

/-- Markup whose last character completes an event. -/
theorem Reads.event {text : List Char} {mode : Mode} {c : Char} {e : Event} (h : Xml.quiet .text text = some mode)
    (hc : step mode c = some ([e], .text)) : Reads (text ++ [c]) [e] := by
  intro rest
  rw [List.append_assoc, read_quiet h]
  exact read_event hc rest

/-! ### Tags -/

structure IsName (name : List Char) : Prop where
  start : ∃ c rest, name = c :: rest ∧ nameStart c = true
  chars : ∀ c ∈ name, nameChar c = true

instance (name : List Char) : Decidable (IsName name) :=
  match name with
  | [] => isFalse fun h => by obtain ⟨c, rest, heq, -⟩ := h.start; cases heq
  | c :: rest => decidable_of_iff (nameStart c = true ∧ (c :: rest).all nameChar = true)
      ⟨fun h => ⟨⟨c, rest, rfl, h.1⟩, List.all_eq_true.mp h.2⟩, fun h => ⟨by
        obtain ⟨d, more, heq, hd⟩ := h.start
        cases heq
        exact hd, List.all_eq_true.mpr h.chars⟩⟩

theorem plain_of_nameChar {c : Char} (hc : nameChar c = true) : c ≠ '>' ∧ c ≠ '/' := by
  constructor
  · intro h
    rw [h] at hc
    cases hc
  · intro h
    rw [h] at hc
    cases hc

theorem read_tag {more : List Char} (hmore : ∀ c ∈ more, nameChar c = true) (name rest : List Char) :
    read (.tag name) (more ++ rest) = read (.tag (name ++ more)) rest := by
  induction more generalizing name with
  | nil => rw [List.nil_append, List.append_nil]
  | cons c more ih =>
    obtain ⟨hc, hmore⟩ := List.forall_mem_cons.mp hmore
    have hstep : step (.tag name) c = some ([], .tag (name ++ [c])) := if_pos hc
    rw [List.cons_append, read_step hstep, ih hmore, List.append_assoc]
    rfl

theorem step_open : step .text '<' = some ([], .markup) := rfl

/-- A tag is opened and its name is read. -/
theorem read_name {name : List Char} (hname : IsName name) (rest : List Char) :
    read .text ('<' :: name ++ rest) = read (.tag name) rest := by
  obtain ⟨c, more, rfl, hc⟩ := hname.start
  have hplain := plain_of_nameChar (hname.chars c List.mem_cons_self)
  have hmarkup : step .markup c = some ([], .tag [c]) := by
    have hmark : c ≠ '?' ∧ c ≠ '!' := by
      constructor
      · intro h
        rw [h] at hc
        cases hc
      · intro h
        rw [h] at hc
        cases hc
    simp only [step, if_neg hplain.2, if_neg hmark.1, if_neg hmark.2, hc, if_true]
  rw [List.cons_append, read_step step_open, List.cons_append, read_step hmarkup,
    read_tag fun d hd => hname.chars d (List.mem_cons_of_mem c hd)]
  rfl

theorem read_closing {more : List Char} (hmore : ∀ c ∈ more, nameChar c = true) (name rest : List Char) :
    read (.closing name) (more ++ rest) = read (.closing (name ++ more)) rest := by
  induction more generalizing name with
  | nil => rw [List.nil_append, List.append_nil]
  | cons c more ih =>
    obtain ⟨hc, hmore⟩ := List.forall_mem_cons.mp hmore
    have hstep : step (.closing name) c = some ([], .closing (name ++ [c])) := by
      simp only [step, if_neg (plain_of_nameChar hc).1, hc, if_true]
    rw [List.cons_append, read_step hstep, ih hmore, List.append_assoc]
    rfl

theorem Reads.opened {name : List Char} (hname : IsName name) : Reads ('<' :: name ++ ['>']) [.opened name []] := by
  intro rest
  have hend : nameChar '>' = false := by decide
  rw [List.append_assoc, read_name hname, List.singleton_append]
  exact read_event (by simp only [step, hend, Bool.false_eq_true, if_false, afterName, if_true]) rest

theorem Reads.void {name : List Char} (hname : IsName name) :
    Reads ('<' :: name ++ ['/', '>']) [.void name []] := by
  intro rest
  have hslash : nameChar '/' = false := by decide
  have hstop : step (.tag name) '/' = some ([], .slash name []) := by simp [step, hslash, afterName]
  rw [List.append_assoc, read_name hname, List.cons_append, List.singleton_append, read_step hstop]
  have hend : step (.slash name []) '>' = some ([.void name []], .text) := rfl
  exact read_event hend rest

theorem Reads.closed {name : List Char} (hname : IsName name) :
    Reads ('<' :: '/' :: name ++ ['>']) [.closed name] := by
  intro rest
  obtain ⟨c, more, hcons, -⟩ := hname.start
  have hne : name ≠ [] := by
    rw [hcons]
    exact List.cons_ne_nil c more
  have hslash : step .markup '/' = some ([], .closing []) := rfl
  rw [List.append_assoc, List.cons_append, List.cons_append, read_step step_open, read_step hslash,
    read_closing hname.chars, List.nil_append, List.singleton_append]
  exact read_event (by simp only [step, if_true, if_neg hne]) rest

/-! ### Elements -/

inductive Node where
  | char (c : Char)
  | element (name : List Char) (attributes : Attributes) (children : List Node)

/-- The nodes of the events, within elements that are still open, each with the nodes in front of it. -/
def build : List (List Char × Attributes × List Node) → List Node → List Event → Option (List Node)
  | [], nodes, [] => some nodes
  | _ :: _, _, [] => none
  | outer, nodes, .char c :: rest => build outer (nodes ++ [.char c]) rest
  | outer, nodes, .opened name attributes :: rest => build ((name, attributes, nodes) :: outer) [] rest
  | outer, nodes, .void name attributes :: rest => build outer (nodes ++ [.element name attributes []]) rest
  | [], _, .closed _ :: _ => none
  | (name, attributes, before) :: outer, nodes, .closed name' :: rest =>
    if name' = name then build outer (before ++ [.element name attributes nodes]) rest else none

/-- The nodes of a document. -/
def parse (text : List Char) : Option (List Node) := (read .text text).bind (build [] [])

/-- Wherever it stands, the text reads as these nodes. -/
def Content (text : List Char) (nodes : List Node) : Prop :=
  ∃ events, Reads text events ∧
    ∀ outer before rest, build outer before (events ++ rest) = build outer (before ++ nodes) rest

theorem Content.nil : Content [] [] := ⟨[], .nil, fun outer before rest => by rw [List.append_nil]; rfl⟩

theorem Content.append {text text' : List Char} {nodes nodes' : List Node} (h : Content text nodes)
    (h' : Content text' nodes') : Content (text ++ text') (nodes ++ nodes') := by
  obtain ⟨events, hread, hbuild⟩ := h
  obtain ⟨events', hread', hbuild'⟩ := h'
  refine ⟨events ++ events', hread.append hread', fun outer before rest => ?_⟩
  rw [List.append_assoc, hbuild, hbuild', List.append_assoc]

theorem Content.element {start name text : List Char} {attributes : Attributes} {children : List Node}
    (hstart : Reads start [.opened name attributes]) (h : Content text children) (hname : IsName name) :
    Content (start ++ text ++ ('<' :: '/' :: name ++ ['>'])) [.element name attributes children] := by
  obtain ⟨events, hread, hbuild⟩ := h
  refine ⟨_, (hstart.append hread).append (.closed hname), fun outer before rest => ?_⟩
  rw [List.append_assoc, List.append_assoc, List.singleton_append, List.singleton_append]
  simp only [build]
  rw [hbuild, List.nil_append]
  cases outer with
  | nil => exact if_pos rfl
  | cons frame outer => exact if_pos rfl

theorem Content.quiet {text : List Char} (h : quiet .text text = some .text) : Content text [] :=
  ⟨[], .quiet h, fun outer before rest => by rw [List.append_nil, List.nil_append]⟩

theorem Content.void {name : List Char} (hname : IsName name) :
    Content ('<' :: name ++ ['/', '>']) [.element name [] []] :=
  ⟨_, .void hname, fun outer before rest => by simp only [List.singleton_append, build]⟩

theorem Content.char {c : Char} {text : List Char} (h : Reads text [.char c]) : Content text [.char c] :=
  ⟨_, h, fun outer before rest => by simp only [List.singleton_append, build]⟩

/-- A text that is written character by character. -/
theorem Content.chars {write : Char → List Char} {meant : Char → Char} {s : List Char}
    (h : ∀ c ∈ s, Reads (write c) [.char (meant c)]) : Content (s.flatMap write) ((s.map meant).map .char) := by
  induction s with
  | nil => exact .nil
  | cons c s ih =>
    obtain ⟨hc, hs⟩ := List.forall_mem_cons.mp h
    rw [List.flatMap_cons, List.map_cons, List.map_cons]
    exact (Content.char hc).append (ih hs)

theorem Reads.plain {c : Char} (hmarkup : c ≠ '<' ∧ c ≠ '&' ∧ c ≠ '>' ∧ c ≠ '\r') (hc : isChar c = true) :
    Reads [c] [.char c] := by
  obtain ⟨hopen, hand, hclose, hreturn⟩ := hmarkup
  intro rest
  refine read_event ?_ rest
  simp [step, hopen, hand, hclose, hreturn, hc]

theorem Content.plain {s : List Char} (hs : ∀ c ∈ s, (c ≠ '<' ∧ c ≠ '&' ∧ c ≠ '>' ∧ c ≠ '\r') ∧ isChar c = true) :
    Content s (s.map .char) := by
  have hread : ∀ c ∈ s, Reads [c] [.char (id c)] := fun c hc => .plain (hs c hc).1 (hs c hc).2
  have hcontent := Content.chars hread
  rwa [List.flatMap_singleton', List.map_id] at hcontent

theorem Content.blank {s : List Char} (hs : ∀ c ∈ s, blank c = true) : Content s (s.map .char) := by
  refine .plain fun c hc => ?_
  have hblank := hs c hc
  simp only [Xml.blank, Bool.or_eq_true, decide_eq_true_eq] at hblank
  rcases hblank with (rfl | rfl) | rfl
  · decide
  · decide
  · decide

theorem parse_content {text : List Char} {nodes : List Node} (h : Content text nodes) : parse text = some nodes := by
  obtain ⟨events, hread, hbuild⟩ := h
  have hevents := hread []
  rw [List.append_nil] at hevents
  have hnodes := hbuild [] [] []
  rw [List.append_nil] at hnodes
  rw [parse, hevents]
  simp only [read, if_true, Option.map_some, List.append_nil, Option.bind_some]
  exact hnodes

end Xml

/-! ### Property lists -/

namespace Plist
open Xml

inductive Value where
  | string (s : List Char)
  | bool (b : Bool)
  | array (items : List Value)
  | dict (entries : List (List Char × Value))

def isBlank : Node → Bool
  | .char c => blank c
  | .element _ _ _ => false

def char? : Node → Option Char
  | .char c => some c
  | .element _ _ _ => none

/-- What the elements are called. -/
inductive Tag where
  | key
  | string
  | yes
  | no
  | array
  | dict
  deriving DecidableEq, Repr

def tag : List Char → Option Tag
  | ['k', 'e', 'y'] => some .key
  | ['s', 't', 'r', 'i', 'n', 'g'] => some .string
  | ['t', 'r', 'u', 'e'] => some .yes
  | ['f', 'a', 'l', 's', 'e'] => some .no
  | ['a', 'r', 'r', 'a', 'y'] => some .array
  | ['d', 'i', 'c', 't'] => some .dict
  | _ => none

/-- The key an element is, if it is one. -/
def keyOf : Node → Option (List Char)
  | .char _ => none
  | .element name attributes children =>
    if tag name = some .key ∧ attributes = [] then children.mapM char? else none

mutual

/-- The value an element is; numbers, dates and data are not read. -/
def value : Node → Option Value
  | .char _ => none
  | .element name attributes children =>
    if attributes ≠ [] then none
    else match tag name with
      | some .string => (children.mapM char?).map .string
      | some .yes => if children.isEmpty then some (.bool true) else none
      | some .no => if children.isEmpty then some (.bool false) else none
      | some .array => (values children).map .array
      | some .dict => (entries none children).map .dict
      | _ => none

def values : List Node → Option (List Value)
  | [] => some []
  | n :: rest => if isBlank n then values rest else (value n).bind fun v => (values rest).map (v :: ·)

/-- The entries that follow, behind a key whose value is still to come. -/
def entries : Option (List Char) → List Node → Option (List (List Char × Value))
  | key, [] => if key.isNone then some [] else none
  | key, n :: rest =>
    if isBlank n then entries key rest
    else match key with
      | none => (keyOf n).bind fun k => entries (some k) rest
      | some k => (value n).bind fun v => (entries none rest).map ((k, v) :: ·)

end

/-! ### What is written of a property list -/

theorem mapM_char (s : List Char) : (s.map Node.char).mapM char? = some s := by
  induction s with
  | nil => rfl
  | cons c s ih => rw [List.map_cons, List.mapM_cons, ih]; rfl

theorem isBlank_chars {s : List Char} (hs : ∀ c ∈ s, blank c = true) : ∀ n ∈ s.map Node.char, isBlank n = true := by
  intro n hn
  obtain ⟨c, hc, rfl⟩ := List.mem_map.mp hn
  exact hs c hc

/-- The text is one value. -/
def Item (text : List Char) (v : Value) : Prop :=
  ∃ n, Content text [n] ∧ isBlank n = false ∧ value n = some v

/-- The text is values of an array, whatever follows them. -/
def Items (text : List Char) (vs : List Value) : Prop :=
  ∃ nodes, Content text nodes ∧ ∀ rest, values (nodes ++ rest) = (values rest).map (vs ++ ·)

/-- The text is entries of a dictionary, whatever follows them. -/
def Entries (text : List Char) (es : List (List Char × Value)) : Prop :=
  ∃ nodes, Content text nodes ∧ ∀ rest, entries none (nodes ++ rest) = (entries none rest).map (es ++ ·)

theorem Item.string {text s : List Char} (h : Content text (s.map .char)) :
    Item ("<string>".toList ++ text ++ "</string>".toList) (.string s) := by
  have hname : IsName "string".toList := by decide
  refine ⟨_, Content.element (.opened hname) h hname, rfl, ?_⟩
  have htag : tag "string".toList = some .string := rfl
  simp only [value, ne_eq, not_true_eq_false, if_false, htag, mapM_char, Option.map_some]

theorem Item.bool (b : Bool) : Item ('<' :: (if b then "true".toList else "false".toList) ++ ['/', '>']) (.bool b) := by
  cases b with
  | false => exact ⟨_, Content.void (by decide), rfl, rfl⟩
  | true => exact ⟨_, Content.void (by decide), rfl, rfl⟩

theorem Item.array {text : List Char} {vs : List Value} (h : Items text vs) :
    Item ("<array>".toList ++ text ++ "</array>".toList) (.array vs) := by
  obtain ⟨nodes, hcontent, hvalues⟩ := h
  have hname : IsName "array".toList := by decide
  refine ⟨_, Content.element (.opened hname) hcontent hname, rfl, ?_⟩
  have htag : tag "array".toList = some .array := rfl
  have hall := hvalues []
  rw [List.append_nil] at hall
  simp only [value, ne_eq, not_true_eq_false, if_false, htag, hall, values, Option.map_some, List.append_nil]

theorem Item.dict {text : List Char} {es : List (List Char × Value)} (h : Entries text es) :
    Item ("<dict>".toList ++ text ++ "</dict>".toList) (.dict es) := by
  obtain ⟨nodes, hcontent, hentries⟩ := h
  have hname : IsName "dict".toList := by decide
  refine ⟨_, Content.element (.opened hname) hcontent hname, rfl, ?_⟩
  have htag : tag "dict".toList = some .dict := rfl
  have hall := hentries []
  rw [List.append_nil] at hall
  simp only [value, ne_eq, not_true_eq_false, if_false, htag, hall, entries, Option.isNone_none, if_true,
    Option.map_some, List.append_nil]

theorem values_blank {nodes : List Node} (h : ∀ n ∈ nodes, isBlank n = true) (rest : List Node) :
    values (nodes ++ rest) = values rest := by
  induction nodes with
  | nil => rfl
  | cons n nodes ih =>
    obtain ⟨hn, hnodes⟩ := List.forall_mem_cons.mp h
    rw [List.cons_append, values, if_pos hn, ih hnodes]

theorem entries_blank {nodes : List Node} (h : ∀ n ∈ nodes, isBlank n = true) (key : Option (List Char))
    (rest : List Node) : entries key (nodes ++ rest) = entries key rest := by
  induction nodes with
  | nil => rfl
  | cons n nodes ih =>
    obtain ⟨hn, hnodes⟩ := List.forall_mem_cons.mp h
    have hskip : entries key (n :: (nodes ++ rest)) = entries key (nodes ++ rest) := by
      cases key with
      | none => exact if_pos hn
      | some k => exact if_pos hn
    rw [List.cons_append, hskip, ih hnodes]

theorem Items.blank {s : List Char} (hs : ∀ c ∈ s, blank c = true) : Items s [] := by
  refine ⟨_, .blank hs, fun rest => ?_⟩
  rw [values_blank (isBlank_chars hs)]
  exact Option.map_id'.symm

theorem Items.append {text text' : List Char} {vs vs' : List Value} (h : Items text vs) (h' : Items text' vs') :
    Items (text ++ text') (vs ++ vs') := by
  obtain ⟨nodes, hcontent, hvalues⟩ := h
  obtain ⟨nodes', hcontent', hvalues'⟩ := h'
  refine ⟨_, hcontent.append hcontent', fun rest => ?_⟩
  rw [List.append_assoc, hvalues, hvalues', Option.map_map]
  congr 1
  funext more
  exact (List.append_assoc vs vs' more).symm

theorem Item.items {text : List Char} {v : Value} (h : Item text v) : Items text [v] := by
  obtain ⟨n, hcontent, hblank, hvalue⟩ := h
  refine ⟨_, hcontent, fun rest => ?_⟩
  rw [List.singleton_append, values, hblank, if_neg Bool.false_ne_true, hvalue, Option.bind_some]
  rfl

/-- Values that are written one after another. -/
theorem Items.flatMap {α : Type*} {write : α → List Char} {v : α → Value} {l : List α}
    (h : ∀ a ∈ l, Items (write a) [v a]) : Items (l.flatMap write) (l.map v) := by
  induction l with
  | nil => exact .blank fun c hc => absurd hc List.not_mem_nil
  | cons a l ih =>
    obtain ⟨ha, hl⟩ := List.forall_mem_cons.mp h
    rw [List.flatMap_cons, List.map_cons]
    exact ha.append (ih hl)

theorem Entries.blank {s : List Char} (hs : ∀ c ∈ s, blank c = true) : Entries s [] := by
  refine ⟨_, .blank hs, fun rest => ?_⟩
  rw [entries_blank (isBlank_chars hs)]
  exact Option.map_id'.symm

theorem Entries.append {text text' : List Char} {es es' : List (List Char × Value)} (h : Entries text es)
    (h' : Entries text' es') : Entries (text ++ text') (es ++ es') := by
  obtain ⟨nodes, hcontent, hentries⟩ := h
  obtain ⟨nodes', hcontent', hentries'⟩ := h'
  refine ⟨_, hcontent.append hcontent', fun rest => ?_⟩
  rw [List.append_assoc, hentries, hentries', Option.map_map]
  congr 1
  funext more
  exact (List.append_assoc es es' more).symm

/-- A key, and behind blanks its value. -/
theorem Entries.entry {key gap text k : List Char} {v : Value} (hkey : Content key (k.map .char))
    (hgap : ∀ c ∈ gap, Xml.blank c = true) (h : Item text v) :
    Entries ("<key>".toList ++ key ++ "</key>".toList ++ gap ++ text) [(k, v)] := by
  obtain ⟨n, hcontent, hblank, hvalue⟩ := h
  have hname : IsName "key".toList := by decide
  refine ⟨_, ((Content.element (.opened hname) hkey hname).append (.blank hgap)).append hcontent, fun rest => ?_⟩
  have htag : tag "key".toList = some .key := rfl
  have hkeyOf : keyOf (.element "key".toList [] (k.map .char)) = some k := by
    rw [keyOf, if_pos ⟨htag, rfl⟩, mapM_char]
  rw [List.append_assoc, List.append_assoc, List.singleton_append, List.singleton_append, entries,
    if_neg (show ¬isBlank (Node.element "key".toList [] (k.map .char)) = true from Bool.false_ne_true)]
  simp only [hkeyOf, Option.bind_some]
  rw [entries_blank (isBlank_chars hgap), entries, hblank, if_neg Bool.false_ne_true]
  simp only [hvalue, Option.bind_some]
  rfl

/-- The value of a document: what its `plist` is around. -/
def read (text : List Char) : Option Value :=
  (parse text).bind fun nodes => match nodes.filter (fun n => !isBlank n) with
    | [.element name _ children] =>
      if name = "plist".toList then (values children).bind fun items => match items with
        | [v] => some v
        | _ => none
      else none
    | _ => none

/-- A document of blanks and markup around one value. -/
theorem read_document {front start text back : List Char} {attributes : Attributes} {before after : List Node} {v : Value}
    (hfront : Content front before) (hbefore : ∀ n ∈ before, isBlank n = true)
    (hstart : Reads start [.opened "plist".toList attributes]) (hitems : Items text [v])
    (hback : Content back after) (hafter : ∀ n ∈ after, isBlank n = true) :
    read (front ++ (start ++ text ++ "</plist>".toList) ++ back) = some v := by
  obtain ⟨nodes, hcontent, hvalues⟩ := hitems
  have hname : IsName "plist".toList := by decide
  have hdrop : ∀ nodes : List Node, (∀ n ∈ nodes, isBlank n = true) → nodes.filter (fun n => !isBlank n) = [] := by
    intro nodes hnodes
    refine List.filter_eq_nil_iff.mpr fun n hn => ?_
    rw [hnodes n hn]
    exact Bool.false_ne_true
  have hall := hvalues []
  rw [List.append_nil] at hall
  have hfilter : (before ++ [Node.element "plist".toList attributes nodes] ++ after).filter (fun n => !isBlank n) =
      [.element "plist".toList attributes nodes] := by
    rw [List.filter_append, List.filter_append, hdrop before hbefore, hdrop after hafter, List.append_nil,
      List.nil_append]
    rfl
  have hparse : parse (front ++ (start ++ text ++ "</plist>".toList) ++ back) = _ :=
    parse_content ((hfront.append (.element hstart hcontent hname)).append hback)
  rw [read, hparse, Option.bind_some]
  simp only [hfilter, if_true, hall, values, Option.map_some, List.append_nil, Option.bind_some]

end Plist
