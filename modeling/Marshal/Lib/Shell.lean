import Marshal.Lib.Chars
import Mathlib.Data.List.Basic

/-! How a POSIX shell reads a command line.

Tokens are recognised character by character: quotes and backslashes take the meaning of
what they quote away, blanks end a word, operators are as long as they can be, and `#` at
the start of a word begins a comment. A text in which a substitution begins is not read
any further. A word then has its tilde expanded, is matched against the files if it holds
an unquoted pattern character, and loses its quotes. -/
namespace Shell

/-- A character of a word, and whether it was quoted. -/
structure Piece where
  char : Char
  quoted : Bool
  deriving DecidableEq, Repr

inductive Token where
  | word (pieces : List Piece)
  | operator (o : List Char)
  | newline
  deriving DecidableEq, Repr

/-! ### Tokens -/

def blank (c : Char) : Bool := c == ' ' || c == '\t'

def operators : List (List Char) :=
  ["&", "&&", ";", ";;", "|", "||", "(", ")", "<", ">", ">|", "<<", ">>", "<&", ">&", "<<-", "<>"].map
    String.toList

/-- `$` and the backquote begin a substitution. -/
def substitutes (c : Char) : Bool := c == '$' || c == '\x60'

/-- The token that is being read. -/
inductive Pending where
  | none
  | word (pieces : List Piece)
  | operator (o : List Char)
  deriving DecidableEq, Repr

def Pending.close : Pending → List Token
  | .none => []
  | .word pieces => [.word pieces]
  | .operator o => [.operator o]

/-- The pieces go on with the word or begin one. -/
def Pending.put (pieces : List Piece) : Pending → List Token × Pending
  | .none => ([], .word pieces)
  | .word before => ([], .word (before ++ pieces))
  | .operator o => ([.operator o], .word pieces)

/-- Where the reader stands: outside of quotes, after a backslash, in quotes, or in a comment. -/
inductive Mode where
  | bare
  | escaped
  | single
  | double
  | doubleEscaped
  | comment
  deriving DecidableEq, Repr

/-- One character: the tokens it ends, and how reading goes on. -/
def step (mode : Mode) (pending : Pending) (c : Char) : Option (List Token × Mode × Pending) :=
  match mode with
  | .bare =>
    if c = '\\' then some ([], .escaped, pending)
    else if c = '\'' then some ((pending.put []).1, .single, (pending.put []).2)
    else if c = '"' then some ((pending.put []).1, .double, (pending.put []).2)
    else if substitutes c then none
    else match pending with
      | .operator o =>
        if o ++ [c] ∈ operators then some ([], .bare, .operator (o ++ [c]))
        else if [c] ∈ operators then some ([.operator o], .bare, .operator [c])
        else if c = '\n' then some ([.operator o, .newline], .bare, .none)
        else if blank c then some ([.operator o], .bare, .none)
        else if c = '#' then some ([.operator o], .comment, .none)
        else some ([.operator o], .bare, .word [⟨c, false⟩])
      | .none =>
        if [c] ∈ operators then some ([], .bare, .operator [c])
        else if c = '\n' then some ([.newline], .bare, .none)
        else if blank c then some ([], .bare, .none)
        else if c = '#' then some ([], .comment, .none)
        else some ([], .bare, .word [⟨c, false⟩])
      | .word pieces =>
        if [c] ∈ operators then some ([.word pieces], .bare, .operator [c])
        else if c = '\n' then some ([.word pieces, .newline], .bare, .none)
        else if blank c then some ([.word pieces], .bare, .none)
        else some ([], .bare, .word (pieces ++ [⟨c, false⟩]))
  | .escaped =>
    -- a backslash and a newline join two lines
    if c = '\n' then some ([], .bare, pending)
    else some ((pending.put [⟨c, true⟩]).1, .bare, (pending.put [⟨c, true⟩]).2)
  | .single =>
    if c = '\'' then some ([], .bare, pending)
    else some ((pending.put [⟨c, true⟩]).1, .single, (pending.put [⟨c, true⟩]).2)
  | .double =>
    if c = '"' then some ([], .bare, pending)
    else if c = '\\' then some ([], .doubleEscaped, pending)
    else if substitutes c then none
    else some ((pending.put [⟨c, true⟩]).1, .double, (pending.put [⟨c, true⟩]).2)
  | .doubleEscaped =>
    if c = '\n' then some ([], .double, pending)
    else if substitutes c || c == '"' || c == '\\' then
      some ((pending.put [⟨c, true⟩]).1, .double, (pending.put [⟨c, true⟩]).2)
    else some ((pending.put [⟨'\\', true⟩, ⟨c, true⟩]).1, .double, (pending.put [⟨'\\', true⟩, ⟨c, true⟩]).2)
  | .comment => if c = '\n' then some ([.newline], .bare, .none) else some ([], .comment, .none)

/-- The tokens of a text; none where a quote is left open or a substitution begins. -/
def read (mode : Mode) (pending : Pending) : List Char → Option (List Token)
  | [] => match mode with
    | .bare | .comment => some pending.close
    | .escaped => some ((pending.put [⟨'\\', true⟩]).1 ++ (pending.put [⟨'\\', true⟩]).2.close)
    | .single | .double | .doubleEscaped => none
  | c :: rest =>
    (step mode pending c).bind fun s => (read s.2.1 s.2.2 rest).map fun tokens => s.1 ++ tokens

def tokens (text : List Char) : Option (List Token) := read .bare .none text

/-! ### Words -/

/-- What the expansions depend on: the directory of a login name, and the paths that match a pattern. -/
structure Host where
  home : List Char → Option (List Char)
  paths : List Piece → List (List Char)

/-- The unquoted name behind a leading `~`, and what follows it. -/
def tildeName : List Piece → Option (List Char × List Piece)
  | ⟨'~', false⟩ :: rest =>
    let name := rest.takeWhile fun p => p.char != '/'
    if name.all fun p => !p.quoted then some (name.map Piece.char, rest.drop name.length) else none
  | _ => none

def expandTilde (host : Host) (word : List Piece) : List Piece :=
  match tildeName word with
  | some (name, rest) => match host.home name with
    | some dir => dir.map (⟨·, true⟩) ++ rest
    | none => word
  | none => word

/-- An unquoted `*`, `?` or `[` makes a pattern of a word. -/
def isPattern (word : List Piece) : Bool := word.any fun p => !p.quoted && decide (p.char ∈ ['*', '?', '['])

/-- A word's fields: a pattern that matches nothing stands for itself. -/
def expand (host : Host) (word : List Piece) : List (List Char) :=
  let word := expandTilde host word
  if isPattern word then
    match host.paths word with
    | [] => [word.map Piece.char]
    | paths => paths
  else [word.map Piece.char]

def Token.word? : Token → Option (List Piece)
  | .word pieces => some pieces
  | _ => none

/-- The fields of a single simple command without redirections. -/
def fields (host : Host) (text : List Char) : Option (List (List Char)) := do
  let words ← (← tokens text).mapM Token.word?
  return words.flatMap (expand host)

/-! ### Words without meaning -/

/-- Outside of quotes the character stands for itself. -/
def ordinary (c : Char) : Bool :=
  !(substitutes c || blank c || c ∈ ['\\', '\'', '"', '\n', '#', '*', '?', '[', '~'] || [c] ∈ operators)

/-- Every character is quoted or ordinary. -/
def Inert (word : List Piece) : Prop := ∀ p ∈ word, p.quoted = true ∨ ordinary p.char = true

theorem ordinary_iff {c : Char} : ordinary c = true ↔ substitutes c = false ∧ blank c = false ∧
    c ∉ ['\\', '\'', '"', '\n', '#', '*', '?', '[', '~'] ∧ [c] ∉ operators := by
  simp only [ordinary, Bool.not_eq_true', Bool.or_eq_false_iff, decide_eq_false_iff_not, and_assoc]

theorem read_cons (mode : Mode) (pending : Pending) (c : Char) (rest : List Char) :
    read mode pending (c :: rest) =
      (step mode pending c).bind fun s => (read s.2.1 s.2.2 rest).map fun tokens => s.1 ++ tokens := rfl

/-- A character that ends no token. -/
theorem read_step {mode mode' : Mode} {pending pending' : Pending} {c : Char}
    (h : step mode pending c = some ([], mode', pending')) (rest : List Char) :
    read mode pending (c :: rest) = read mode' pending' rest := by
  rw [read_cons, h, Option.bind_some]
  simp only [List.nil_append, Option.map_id']

/-- A word is begun or goes on. -/
def Pending.pieces : Pending → List Piece
  | .word pieces => pieces
  | _ => []

theorem step_ordinary {c : Char} (hc : ordinary c = true) {pending : Pending} (hp : ∀ o, pending ≠ .operator o) :
    step .bare pending c = some ([], .bare, .word (pending.pieces ++ [⟨c, false⟩])) := by
  obtain ⟨hsub, hblank, hspecial, hop⟩ := ordinary_iff.mp hc
  simp only [List.mem_cons, List.not_mem_nil, or_false, not_or] at hspecial
  obtain ⟨hback, hsingle, hdouble, hnew, hhash, -⟩ := hspecial
  cases pending with
  | none => simp [step, Pending.pieces, hsub, hblank, hback, hsingle, hdouble, hnew, hhash, hop]
  | word pieces => simp [step, Pending.pieces, hsub, hblank, hback, hsingle, hdouble, hnew, hop]
  | operator o => exact absurd rfl (hp o)

/-- Ordinary characters become a word as they are. -/
theorem read_ordinary {s : List Char} (hs : ∀ c ∈ s, ordinary c = true) (pieces : List Piece) (rest : List Char) :
    read .bare (.word pieces) (s ++ rest) = read .bare (.word (pieces ++ s.map (⟨·, false⟩))) rest := by
  induction s generalizing pieces with
  | nil => rw [List.nil_append, List.map_nil, List.append_nil]
  | cons c s ih =>
    obtain ⟨hc, hs⟩ := List.forall_mem_cons.mp hs
    rw [List.cons_append, read_cons, step_ordinary hc (by intro o; exact Pending.noConfusion)]
    simp only [Option.bind_some, Pending.pieces, List.nil_append, Option.map_id']
    rw [ih hs, List.append_assoc]
    rfl

theorem tildeName_inert {word : List Piece} (h : Inert word) : tildeName word = none := by
  unfold tildeName
  split
  · rename_i rest
    rcases h _ List.mem_cons_self with hquoted | hordinary
    · cases hquoted
    · exact absurd hordinary (by decide)
  · rfl

theorem isPattern_inert {word : List Piece} (h : Inert word) : isPattern word = false := by
  refine List.any_eq_false.mpr fun p hp hpattern => ?_
  simp only [Bool.and_eq_true, Bool.not_eq_true', decide_eq_true_eq] at hpattern
  obtain ⟨hquoted, hchar⟩ := hpattern
  rcases h p hp with hq | hordinary
  · rw [hq] at hquoted
    cases hquoted
  · refine (ordinary_iff.mp hordinary).2.2.1 ?_
    simp only [List.mem_cons, List.not_mem_nil, or_false] at hchar ⊢
    tauto

/-- Nothing is expanded in such a word, whatever files and users there are. -/
theorem expand_inert {word : List Piece} (h : Inert word) (host : Host) : expand host word = [word.map Piece.char] := by
  have htilde : expandTilde host word = word := by rw [expandTilde, tildeName_inert h]
  simp only [expand, htilde, isPattern_inert h, Bool.false_eq_true, if_false]

theorem fields_inert {text : List Char} {words : List (List Piece)} (h : tokens text = some (words.map .word))
    (hwords : ∀ word ∈ words, Inert word) (host : Host) :
    fields host text = some (words.map fun word => word.map Piece.char) := by
  have hall : (words.map Token.word).mapM Token.word? = some words := by
    clear h hwords
    induction words with
    | nil => rfl
    | cons word words ih =>
      rw [List.map_cons, List.mapM_cons, ih]
      rfl
  have hexpand : words.flatMap (expand host) = words.map fun word => word.map Piece.char := by
    rw [List.map_eq_flatMap]
    exact List.flatMap_congr fun word hword => expand_inert (hwords word hword) host
  simp only [fields, h, hall, hexpand, Option.bind_eq_bind, Option.bind_some, Option.pure_def]

end Shell
