import Marshal.Lib.FilePath

/-! The file system under the deployer.

A `Disk` says what is at each location; a location is a clean absolute path without
links on the way. A path of the program is resolved first: links are followed, as
often as the operating system or the library allows. -/
namespace Marshal.Deploy
open FilePath

inductive Node where
  | dir
  | file (content : List UInt8)
  | link (target : String)
  deriving DecidableEq, Repr

/-- What is at each location; the parent of anything is a directory. -/
structure Disk where
  node : List String → Option Node
  parents : ∀ (p : List String) (c : String), node (p ++ [c]) ≠ none → node p = some .dir

namespace Disk

/-! ### Resolution -/

/-- How far a walk comes without following a link. -/
inductive Walked where
  | done (p : List String)
  | broken
  | link (dest : List String) (target : String) (rest : List String)
  deriving DecidableEq, Repr

def advance (disk : Disk) (dest : List String) : List String → Walked
  | [] => .done dest
  | c :: rest =>
    if c = "" ∨ c = "." then disk.advance dest rest
    else if c = ".." then disk.advance dest.dropLast rest
    else match disk.node (dest ++ [c]) with
      | none => .broken
      | some .dir => disk.advance (dest ++ [c]) rest
      | some (.file _) => if rest = [] then .done (dest ++ [c]) else .broken
      | some (.link target) => .link dest target rest

/-- Where a link leads, relative to the directory it is in. -/
def linkBase (dest : List String) (target : String) : List String :=
  if IsAbs target then [] else dest

/-- The location of a path, when at most so many links are on the way. -/
def walk (disk : Disk) : Nat → List String → List String → Option (List String)
  | 0, dest, todo => match disk.advance dest todo with
    | .done p => some p
    | .broken | .link _ _ _ => none
  | limit + 1, dest, todo => match disk.advance dest todo with
    | .done p => some p
    | .broken => none
    | .link d target rest => disk.walk limit (linkBase d target) (split target ++ rest)

/-- What the operating system allows. -/
def maxSymlinks : Nat := 40

/-- The location a path leads to. -/
def resolve (disk : Disk) (p : List String) : Option (List String) := disk.walk maxSymlinks [] p

def EvalSymlinks (disk : Disk) (p : List String) : Option (List String) := disk.walk 255 [] p

/-- The location a path names, a link itself where its last component is one. -/
def locate (disk : Disk) (p : List String) : Option (List String) :=
  match p.getLast? with
  | none => some []
  | some c => (disk.resolve p.dropLast).map (· ++ [c])

def Stat (disk : Disk) (p : List String) : Option Node := (disk.resolve p).bind disk.node

def Lstat (disk : Disk) (p : List String) : Option Node := (disk.locate p).bind disk.node

/-! ### Removal -/

/-- Everything at and below a location is gone. -/
def remove (disk : Disk) (q : List String) : Disk where
  node p := if q <+: p then none else disk.node p
  parents p c h := by
    by_cases hqc : q <+: p ++ [c]
    · simp [hqc] at h
    · have hqp : ¬ q <+: p := fun hq => hqc (hq.trans (List.prefix_append p [c]))
      rw [if_neg hqc] at h
      rw [if_neg hqp]
      exact disk.parents p c h

def RemoveAll (disk : Disk) (p : List String) : Disk :=
  match disk.locate p with
  | none => disk
  | some q => disk.remove q

/-- Directories only: these, and those they are in. -/
def ofDirs (ps : List (List String)) : Disk where
  node p := if ps.any fun q => p.isPrefixOf q then some .dir else none
  parents p c h := by
    have hany : (ps.any fun q => (p ++ [c]).isPrefixOf q) = true := by
      by_contra hnone
      simp [hnone] at h
    obtain ⟨q, hq, hpre⟩ := List.any_eq_true.mp hany
    have hp : p.isPrefixOf q = true :=
      List.isPrefixOf_iff_prefix.mpr
        ((List.prefix_append p [c]).trans (List.isPrefixOf_iff_prefix.mp hpre))
    exact if_pos (List.any_eq_true.mpr ⟨q, hq, hp⟩)

/-- What is at the ends of some paths, and the directories they are in. -/
def ofLeaves (leaves : List (List String × Node)) : Disk where
  node p :=
    if leaves.any fun e => p.isPrefixOf e.1 && p != e.1 then some .dir
    else (leaves.find? fun e => e.1 == p).map Prod.snd
  parents p c h := by
    have hbelow : ∃ e ∈ leaves, p ++ [c] <+: e.1 := by
      split at h
      · rename_i hany
        obtain ⟨e, he, hpre⟩ := List.any_eq_true.mp hany
        exact ⟨e, he, List.isPrefixOf_iff_prefix.mp (Bool.and_eq_true_iff.mp hpre).1⟩
      · rw [ne_eq, Option.map_eq_none_iff] at h
        obtain ⟨e, hfind⟩ := Option.ne_none_iff_exists'.mp h
        have heq := List.find?_some hfind
        exact ⟨e, List.mem_of_find?_eq_some hfind, (beq_iff_eq.mp heq) ▸ List.prefix_refl _⟩
    obtain ⟨e, he, hpre⟩ := hbelow
    refine if_pos (List.any_eq_true.mpr ⟨e, he, ?_⟩)
    have hproper : p ≠ e.1 := by
      rintro rfl
      have hlen := hpre.length_le
      rw [List.length_append, List.length_singleton] at hlen
      omega
    simpa [hproper] using (List.prefix_append p [c]).trans hpre

/-! ### Walks -/

theorem advance_snoc (disk : Disk) {c : String} (hc : Ordinary c) (dest todo : List String) :
    disk.advance dest (todo ++ [c]) = match disk.advance dest todo with
      | .done p => disk.advance p [c]
      | .broken => .broken
      | .link d target rest => .link d target (rest ++ [c]) := by
  induction todo generalizing dest with
  | nil => rfl
  | cons d rest ih =>
    simp only [List.cons_append, advance]
    split
    · exact ih dest
    · split
      · exact ih dest.dropLast
      · cases hnode : disk.node (dest ++ [d]) with
        | none => rfl
        | some node =>
          cases node with
          | dir => exact ih (dest ++ [d])
          | link target => rfl
          | file content =>
            -- Nothing is below a file.
            have hbelow : disk.node (dest ++ [d] ++ [c]) = none := by
              by_contra hsome
              rw [disk.parents _ c hsome] at hnode
              cases hnode
            by_cases hrest : rest = []
            · subst hrest
              show Walked.broken = disk.advance (dest ++ [d]) [c]
              simp only [advance, hc.nonempty, hc.dot, hc.dotdot, or_self, if_false, hbelow]
            · simp [hrest]

theorem walk_done {disk : Disk} {dest todo p : List String} (h : disk.advance dest todo = .done p)
    (limit : Nat) : disk.walk limit dest todo = some p := by
  cases limit <;> simp [walk, h]

theorem advance_of_walk {disk : Disk} {dest todo p : List String} {limit : Nat}
    (hnext : ∀ d target rest, disk.advance dest todo ≠ .link d target rest)
    (h : disk.walk limit dest todo = some p) : disk.advance dest todo = .done p := by
  cases hadv : disk.advance dest todo with
  | done q =>
    rw [walk_done hadv, Option.some.injEq] at h
    rw [h]
  | broken => cases limit <;> simp [walk, hadv] at h
  | link d target rest => exact absurd hadv (hnext d target rest)

theorem walk_succ {disk : Disk} {n : Nat} {dest todo p : List String}
    (h : disk.walk n dest todo = some p) : disk.walk (n + 1) dest todo = some p := by
  induction n generalizing dest todo with
  | zero =>
    rw [walk] at h
    cases hadv : disk.advance dest todo with
    | done q =>
      rw [hadv] at h
      rw [walk_done hadv]
      exact h
    | broken | link => simp [hadv] at h
  | succ n ih =>
    rw [walk] at h
    cases hadv : disk.advance dest todo with
    | done q =>
      rw [hadv] at h
      rw [walk_done hadv]
      exact h
    | broken => simp [hadv] at h
    | link d target rest =>
      simp only [hadv] at h
      rw [walk, hadv]
      exact ih h

/-- A path that can be followed with fewer links can be with more. -/
theorem walk_mono {disk : Disk} {n m : Nat} {dest todo p : List String} (hle : n ≤ m)
    (h : disk.walk n dest todo = some p) : disk.walk m dest todo = some p := by
  induction m, hle using Nat.le_induction with
  | base => exact h
  | succ m _ ih => exact walk_succ ih

/-- A resolved path with one component more: the directory is resolved first. -/
theorem walk_snoc {disk : Disk} {c : String} (hc : Ordinary c) {limit : Nat}
    {dest todo q : List String} (h : disk.walk limit dest (todo ++ [c]) = some q) :
    ∃ p n, n ≤ limit ∧ disk.walk limit dest todo = some p ∧ disk.walk n p [c] = some q := by
  induction limit generalizing dest todo with
  | zero =>
    rw [walk, advance_snoc disk hc] at h
    cases hadv : disk.advance dest todo with
    | done p =>
      simp only [hadv] at h
      exact ⟨p, 0, Nat.le_refl 0, walk_done hadv 0, h⟩
    | broken | link => simp [hadv] at h
  | succ limit ih =>
    rw [walk, advance_snoc disk hc] at h
    cases hadv : disk.advance dest todo with
    | done p =>
      simp only [hadv] at h
      exact ⟨p, limit + 1, Nat.le_refl _, walk_done hadv _, h⟩
    | broken => simp [hadv] at h
    | link d target rest =>
      simp only [hadv, ← List.append_assoc] at h
      rw [walk, hadv]
      obtain ⟨p, n, hn, hp, hq⟩ := ih h
      exact ⟨p, n, Nat.le_succ_of_le hn, hp, hq⟩

/-- An entry that is no link is where it is. -/
theorem walk_entry {disk : Disk} {c : String} (hc : Ordinary c) {n : Nat} {p q : List String}
    (hlink : ∀ target, disk.node (p ++ [c]) ≠ some (.link target))
    (h : disk.walk n p [c] = some q) : q = p ++ [c] := by
  have hstep : disk.advance p [c] = match disk.node (p ++ [c]) with
      | none => .broken
      | some .dir => .done (p ++ [c])
      | some (.file _) => .done (p ++ [c])
      | some (.link target) => .link p target [] := by
    simp only [advance, hc.nonempty, hc.dot, hc.dotdot, or_self, if_false, if_true]
  have hadv : disk.advance p [c] = .done q := by
    refine advance_of_walk ?_ h
    intro d target rest heq
    rw [hstep] at heq
    split at heq <;> cases heq
    rename_i hnode
    exact hlink _ hnode
  rw [hstep] at hadv
  split at hadv <;> cases hadv <;> rfl

theorem EvalSymlinks_entry {disk : Disk} {c : String} (hc : Ordinary c) {p q : List String}
    (hlink : ∀ r target, disk.EvalSymlinks p = some r → disk.node (r ++ [c]) ≠ some (.link target))
    (h : disk.EvalSymlinks (p ++ [c]) = some q) :
    ∃ r, disk.EvalSymlinks p = some r ∧ q = r ++ [c] := by
  obtain ⟨r, n, -, hr, hq⟩ := walk_snoc hc h
  exact ⟨r, hr, walk_entry hc (fun target => hlink r target hr) hq⟩

end Disk
end Marshal.Deploy
