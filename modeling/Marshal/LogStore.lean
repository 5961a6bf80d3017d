import Mathlib.Data.List.Basic

/-! The log store: captured lines in one SQL table per agent.

Rows carry SQLite's rowid, which a query may order by: without `AUTOINCREMENT` a
new row takes one more than the largest in the table. -/
namespace Marshal.LogStore

/-- One captured line to append; `label` is `app#instance`. -/
structure Line where
  tsMs : Int
  label : String
  stderr : Bool
  text : String
deriving DecidableEq

/-- One row read back. -/
structure StoredLine where
  rowID : Nat
  tsMs : Int
  label : String
  stderr : Bool
  text : String
deriving DecidableEq

inductive StreamFilter where
  | any
  | stdout
  | stderr
deriving DecidableEq

structure Store where
  /-- In rowid order. -/
  rows : List StoredLine := []
deriving DecidableEq

/-! ### Writing -/

def nextRowID (s : Store) : Nat := ((s.rows.map StoredLine.rowID).max?).getD 0 + 1

def appendLine (s : Store) (l : Line) : Store :=
  ⟨s.rows ++ [⟨nextRowID s, l.tsMs, l.label, l.stderr, l.text⟩]⟩

/-- All lines in a single transaction, in slice order. -/
def append (s : Store) (lines : List Line) : Store := lines.foldl appendLine s

/-- `DELETE FROM log_line WHERE ts < beforeMs`. -/
def prune (s : Store) (beforeMs : Int) : Store :=
  ⟨s.rows.filter fun r => beforeMs ≤ r.tsMs⟩

/-! ### SQL `LIKE` -/

def asciiLower (c : Char) : Char := if 'A' ≤ c ∧ c ≤ 'Z' then Char.ofNat (c.toNat + 32) else c

/-- `text LIKE pattern ESCAPE '\'`: `%` is any run, `_` any one character, an
escaped character itself; letters compare without ASCII case. -/
def like : List Char → List Char → Bool
  | [], text => text.isEmpty
  | '\\' :: c :: pattern, text => match text with
    | [] => false
    | x :: text => asciiLower c == asciiLower x && like pattern text
  | '%' :: pattern, text => text.tails.any (like pattern)
  | '_' :: pattern, text => match text with
    | [] => false
    | _ :: text => like pattern text
  | c :: pattern, text => match text with
    | [] => false
    | x :: text => c != '\\' && asciiLower c == asciiLower x && like pattern text

/-- Backslash-escape the `LIKE` metacharacters. -/
def escapeLike (s : String) : String :=
  String.ofList (s.toList.flatMap fun c => if c = '\\' ∨ c = '%' ∨ c = '_' then ['\\', c] else [c])

/-! ### Reading -/

def StreamFilter.accepts : StreamFilter → Bool → Bool
  | .any, _ => true
  | .stdout, err => !err
  | .stderr, err => err

/-- The stream and text conditions of a query; an empty text is no condition. -/
def matching (filter : StreamFilter) (text : String) (r : StoredLine) : Bool :=
  filter.accepts r.stderr &&
    (text == "" || like ('%' :: (escapeLike text).toList ++ ['%']) r.text.toList)

/-- The `LIMIT` clause; `limit ≤ 0` is no limit. -/
def limited (limit : Int) (rows : List StoredLine) : List StoredLine :=
  if 0 < limit then rows.take limit.toNat else rows

/-- The newest `limit` lines of one label, oldest first. Equal timestamps are read
from the index backwards, so in descending rowid order before the final reverse. -/
def tail (s : Store) (label : String) (limit : Int) (filter : StreamFilter) (text : String) :
    List StoredLine :=
  let matched := s.rows.filter fun r => r.label = label && matching filter text r
  let desc := (matched.mergeSort fun a b => decide (a.tsMs ≤ b.tsMs)).reverse
  (limited limit desc).reverse

/-- Lines of the labels past `afterRowID`, or the newest `limit` of them when
`afterRowID ≤ 0`, ascending by rowid, and the next cursor. -/
def since (s : Store) (labels : List String) (afterRowID : Int) (limit : Int)
    (filter : StreamFilter) (text : String) : List StoredLine × Int :=
  if labels.isEmpty then ([], afterRowID)
  else
    let matched := s.rows.filter fun r => decide (r.label ∈ labels) && matching filter text r
    let out :=
      if 0 < afterRowID then limited limit (matched.filter fun r => afterRowID < r.rowID)
      else (limited limit matched.reverse).reverse
    (out, out.foldl (fun cursor r => if cursor < r.rowID then r.rowID else cursor) afterRowID)

/-- The largest stored timestamp, or 0 when the store is empty. -/
def maxTs (s : Store) : Int := ((s.rows.map StoredLine.tsMs).max?).getD 0

/-- The distinct labels, ascending. -/
def labels (s : Store) : List String :=
  ((s.rows.map StoredLine.label).eraseDups).mergeSort (fun a b => decide (a ≤ b))

/-- Per label, the number of stderr lines since `sinceMs`; labels with none are left out. -/
def errorCounts (s : Store) (labels : List String) (sinceMs : Int) : List (String × Nat) :=
  let counted := labels.map fun l =>
    (l, (s.rows.filter fun r => r.label = l ∧ r.stderr = true ∧ sinceMs ≤ r.tsMs).length)
  counted.filter fun p => p.2 ≠ 0

/-- The stderr lines of the labels since `sinceMs`, ordered by label, then timestamp. -/
def stderrSince (s : Store) (labels : List String) (sinceMs : Int) : List StoredLine :=
  let matched := s.rows.filter fun r => r.label ∈ labels ∧ r.stderr = true ∧ sinceMs ≤ r.tsMs
  matched.mergeSort fun a b => decide (a.label < b.label ∨ a.label = b.label ∧ a.tsMs ≤ b.tsMs)

/-- Merge per-label ascending series into one, stable on equal timestamps, and keep
the newest `limit` lines (`limit ≤ 0` keeps all). -/
def mergeTail (series : List (List StoredLine)) (limit : Int) : List StoredLine :=
  let all := series.flatten.mergeSort fun a b => decide (a.tsMs ≤ b.tsMs)
  if 0 < limit then all.drop (all.length - limit.toNat) else all

/-! ### Small facts -/

/-- What a stored line says, without its rowid. -/
def StoredLine.line (r : StoredLine) : Line := ⟨r.tsMs, r.label, r.stderr, r.text⟩

/-- The stored lines after an append: those before it and the appended ones, in order. -/
@[simp] theorem lines_append (s : Store) (lines : List Line) :
    (append s lines).rows.map StoredLine.line = s.rows.map StoredLine.line ++ lines := by
  induction lines generalizing s with
  | nil => simp [append]
  | cons l rest ih =>
    have hline : (appendLine s l).rows.map StoredLine.line = s.rows.map StoredLine.line ++ [l] := by
      simp [appendLine, StoredLine.line]
    simp only [append, List.foldl_cons] at ih ⊢
    rw [ih, hline, List.append_assoc, List.singleton_append]

/-! ### Row ids -/

theorem rowID_lt_next {s : Store} {r : StoredLine} (h : r ∈ s.rows) : r.rowID < nextRowID s := by
  unfold nextRowID
  cases hmax : (s.rows.map StoredLine.rowID).max? with
  | none =>
    rw [List.max?_eq_none_iff, List.map_eq_nil_iff] at hmax
    rw [hmax] at h
    cases h
  | some m =>
    have hle := (List.max?_eq_some_iff.mp hmax).2 r.rowID (List.mem_map_of_mem h)
    simp only [Option.getD_some]
    omega

theorem nextRowID_appendLine (s : Store) (l : Line) :
    nextRowID (appendLine s l) = nextRowID s + 1 := by
  have hmax : ((appendLine s l).rows.map StoredLine.rowID).max? = some (nextRowID s) := by
    refine List.max?_eq_some_iff.mpr ⟨by simp [appendLine], fun n hn => ?_⟩
    simp only [appendLine, List.map_append, List.map_cons, List.map_nil, List.mem_append,
      List.mem_singleton] at hn
    rcases hn with hn | rfl
    · obtain ⟨r, hr, rfl⟩ := List.mem_map.mp hn
      exact Nat.le_of_lt (rowID_lt_next hr)
    · exact Nat.le_refl _
  rw [nextRowID, hmax]
  rfl

/-- The lines as rows, with ids from `n` on. -/
def numbered (n : Nat) : List Line → List StoredLine
  | [] => []
  | l :: rest => ⟨n, l.tsMs, l.label, l.stderr, l.text⟩ :: numbered (n + 1) rest

theorem rows_append (s : Store) (lines : List Line) :
    (append s lines).rows = s.rows ++ numbered (nextRowID s) lines := by
  induction lines generalizing s with
  | nil => simp [append, numbered]
  | cons l rest ih =>
    have hrest : (append s (l :: rest)).rows = (append (appendLine s l) rest).rows := rfl
    rw [hrest, ih, nextRowID_appendLine, numbered]
    simp [appendLine]

theorem le_of_numbered {n : Nat} {lines : List Line} {r : StoredLine} (h : r ∈ numbered n lines) :
    n ≤ r.rowID := by
  induction lines generalizing n with
  | nil => cases h
  | cons l rest ih =>
    rcases List.mem_cons.mp h with rfl | h
    · exact Nat.le_refl _
    · exact Nat.le_of_succ_le (ih h)

theorem numbered_ascending (n : Nat) (lines : List Line) :
    (numbered n lines).Pairwise fun a b => a.rowID < b.rowID := by
  induction lines generalizing n with
  | nil => exact List.Pairwise.nil
  | cons l rest ih => exact List.pairwise_cons.mpr ⟨fun r hr => le_of_numbered hr, ih (n + 1)⟩

end Marshal.LogStore
