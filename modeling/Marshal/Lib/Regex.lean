import Marshal.Lib.Chars
import Mathlib.Data.List.Basic

/-! Regular expressions, matched by backtracking.

A pattern is tried at one place of a text and gives the places where a match may end,
the preferred ones first: a choice prefers its left side, a repetition goes on as long as
it can. The match at a place is the first of these, and a search takes the leftmost
place with a match. -/
namespace Regex

/-- A place in a text, and what the groups closed so far hold, in the order of their closing. -/
structure Place where
  behind : Option Char
  ahead : List Char
  groups : List (List Char) := []
  deriving DecidableEq, Repr

inductive Pat where
  | empty
  /-- `^`: the start of the text. -/
  | start
  /-- `\b`: a word character on exactly one side. -/
  | boundary
  | one (accepts : Char → Bool)
  | seq (p q : Pat)
  | or (p q : Pat)
  | star (p : Pat)
  | group (p : Pat)

/-! ### Character classes -/

def digit (c : Char) : Bool := decide ('0' ≤ c ∧ c ≤ '9')

def hexDigit (c : Char) : Bool :=
  digit c || decide ('a' ≤ c ∧ c ≤ 'f') || decide ('A' ≤ c ∧ c ≤ 'F')

def letter (c : Char) : Bool := decide ('a' ≤ c ∧ c ≤ 'z') || decide ('A' ≤ c ∧ c ≤ 'Z')

/-- `\w` -/
def word (c : Char) : Bool := letter c || digit c || c == '_'

/-- `\s` -/
def space (c : Char) : Bool := c ∈ ['\t', '\n', '\x0c', '\r', ' ']

/-- `d` is the lower-case letter `c` or has the same simple case folding. -/
def foldsTo (c d : Char) : Bool :=
  d == c || (letter c && d == c.toUpper) || (c == 's' && d == '\u017f') ||
    (c == 'k' && d == '\u212a') || (c == '\u00b5' && d ∈ ['\u039c', '\u03bc'])

/-! ### Matching -/

def Place.atBoundary (s : Place) : Bool := s.behind.any word != s.ahead.head?.any word

/-- Where repetitions end, with the longest first. Each takes at least one character. -/
def iterate (next : Place → List Place) : Nat → Place → List Place
  | 0, s => [s]
  | n + 1, s =>
    ((next s).filter fun t => t.ahead.length < s.ahead.length).flatMap (iterate next n) ++ [s]

namespace Pat

/-- Where a match from here may end, the preferred end first. -/
def ends : Pat → Place → List Place
  | .empty, s => [s]
  | .start, s => if s.behind.isNone then [s] else []
  | .boundary, s => if s.atBoundary then [s] else []
  | .one accepts, s => match s.ahead with
    | [] => []
    | c :: rest => if accepts c then [{ s with behind := some c, ahead := rest }] else []
  | .seq p q, s => (p.ends s).flatMap q.ends
  | .or p q, s => p.ends s ++ q.ends s
  | .star p, s => iterate p.ends s.ahead.length s
  | .group p, s => (p.ends s).map fun t =>
    { t with groups := t.groups ++ [s.ahead.take (s.ahead.length - t.ahead.length)] }

/-- The match that starts at a place. -/
def here (p : Pat) (behind : Option Char) (text : List Char) : Option Place :=
  (p.ends { behind := behind, ahead := text }).head?

/-- The leftmost match from a place on. -/
def search (p : Pat) (behind : Option Char) : List Char → Option Place
  | [] => p.here behind []
  | c :: rest => (p.here behind (c :: rest)).or (p.search (some c) rest)

/-- What the groups of the leftmost match hold. -/
def find (p : Pat) (text : List Char) : Option (List (List Char)) :=
  (p.search none text).map Place.groups

def matchesIn (p : Pat) (text : List Char) : Bool := (p.search none text).isSome

/-- Replaces the matches from a place on, after `skip` characters that belong to a match already
replaced. An empty match is none. -/
def replaceFrom (p : Pat) (new : List Char) (behind : Option Char) (skip : Nat) : List Char → List Char
  | [] => []
  | c :: rest => match skip with
    | k + 1 => p.replaceFrom new (some c) k rest
    | 0 =>
      match (p.here behind (c :: rest)).map fun s => rest.length + 1 - s.ahead.length with
      | some (k + 1) => new ++ p.replaceFrom new (some c) k rest
      | some 0 | none => c :: p.replaceFrom new (some c) 0 rest

def replaceAll (p : Pat) (text new : List Char) : List Char := p.replaceFrom new none 0 text

/-! ### Derived patterns -/

def char (c : Char) : Pat := one (· == c)

/-- One pattern after the other. -/
def all (ps : List Pat) : Pat := ps.foldr seq empty

def text (s : String) : Pat := all (s.toList.map char)

/-- `(?i)` of a text in lower case. -/
def caseless (s : String) : Pat := all (s.toList.map fun c => one (foldsTo c))

/-- The first of the patterns that leads to a match. -/
def any : List Pat → Pat
  | [] => one fun _ => false
  | [p] => p
  | p :: ps => or p (any ps)

def plus (p : Pat) : Pat := seq p (star p)

def opt (p : Pat) : Pat := or p empty

/-- `p{n}` -/
def times (n : Nat) (p : Pat) : Pat := all (List.replicate n p)

/-- `p{0,n}` -/
def upTo : Nat → Pat → Pat
  | 0, _ => empty
  | n + 1, p => opt (seq p (upTo n p))

end Pat

/-- The leftmost place decides, then the order of the choices. -/
example : (Pat.group (.or (.text "b") (.plus (.char 'a')))).find "caab".toList = some ["aa".toList] := by
  decide

example : (Pat.plus (.one digit)).replaceAll "a12b3".toList ['#'] = "a#b#".toList := by decide

end Regex
