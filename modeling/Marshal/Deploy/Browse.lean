import Marshal.Deploy.Disk

/-! File browsing and commits inside one deployment.

A request names a path below a trusted root. `confine` checks the cleaned join and
then, with the links followed, the location itself; `confineNew` does the same for a
path that need not exist, with its deepest existing ancestor. -/
namespace Marshal.Deploy
open FilePath

def absolutePath : String := "absolute paths not allowed"
def escapesRoot : String := "path escapes deploy root"
def escapesBySymlink : String := "path escapes deploy root via symlink"
def rootUnavailable : String := "deploy root unavailable"

/-- The path is the root or below it. -/
def inside (root full : List String) : Bool := full == root || under root full

def confine (disk : Disk) (root : List String) (rel : String) : Except String (List String) :=
  if IsAbs rel then .error absolutePath
  else if inside root (join root rel) = false then .error escapesRoot
  else match disk.EvalSymlinks root, disk.EvalSymlinks (join root rel) with
    | none, _ => .error rootUnavailable
    | some _, none => .error "not found"
    | some realRoot, some realFull =>
      if inside realRoot realFull then .ok realFull else .error escapesBySymlink

/-- The deepest ancestor that exists, at the root at the latest, and the components below it; the
path is given with its last component first. -/
def ancestor (disk : Disk) (root : List String) : List String → List String → List String × List String
  | [], tail => ([], tail)
  | c :: up, tail =>
    if (c :: up).reverse = root ∨ (disk.Lstat (c :: up).reverse).isSome then
      ((c :: up).reverse, tail)
    else ancestor disk root up (c :: tail)

def confineNew (disk : Disk) (root : List String) (rel : String) : Except String (List String) :=
  if IsAbs rel then .error absolutePath
  else if inside root (join root rel) = false then .error escapesRoot
  else
    let (anc, tail) := ancestor disk root (join root rel).reverse []
    match disk.EvalSymlinks root, disk.EvalSymlinks anc with
    | none, _ => .error rootUnavailable
    | some _, none => .error escapesRoot
    | some realRoot, some realAnc =>
      if inside realRoot realAnc then .ok (realAnc ++ tail) else .error escapesBySymlink

/-- The path addresses the clone's own `.git`. -/
def isGitInternal (rel : String) : Bool :=
  !IsAbs rel && (relative rel).1 == 0 && (relative rel).2.head? == some ".git"

inductive CommitKind where
  | edit
  | create
  | delete
  | rename
  | other (n : Nat)
  deriving DecidableEq, Repr

/-- The locations a file mutation is let through to. -/
def mutate (disk : Disk) (dir : List String) (kind : CommitKind) (rel newRel : String) :
    Except String (List (List String)) :=
  if isGitInternal rel ∨ (kind = .rename ∧ isGitInternal newRel) then .error "cannot modify .git"
  else match kind with
    | .edit | .delete => (confine disk dir rel).map fun full => [full]
    | .create => (confineNew disk dir rel).map fun full => [full]
    | .rename => do
      let old ← confine disk dir rel
      let full ← confineNew disk dir newRel
      pure [old, full]
    | .other _ => .error "unknown commit kind"

/-! ### Reading a file -/

def maxFileBytes : Nat := 1024 * 1024

/-- How many bytes are looked at to tell a binary file. -/
def sniffBytes : Nat := 8 * 1024

structure FileContent where
  Path : String
  Content : List UInt8
  Size : Nat
  Truncated : Bool
  Binary : Bool
  deriving DecidableEq, Repr

/-- The head of a file; `fault` is an error in opening or reading it. -/
def ReadFile (disk : Disk) (root : List String) (rel : String) (fault : Option String) :
    Except String FileContent :=
  match confine disk root rel with
  | .error text => .error text
  | .ok full => match disk.node full, fault with
    | none, _ | some (.link _), _ => .error "no such file or directory"
    | some .dir, _ => .error "path is a directory"
    | some (.file _), some text => .error text
    | some (.file content), none =>
      let buf := content.take maxFileBytes
      .ok ⟨rel, buf, content.length, buf.length < content.length, (buf.take sniffBytes).contains 0⟩

/-! ### What is let through is inside the root -/

theorem prefix_of_inside {root full : List String} (h : inside root full = true) :
    root <+: full := by
  rw [inside, Bool.or_eq_true, beq_iff_eq] at h
  rcases h with rfl | h
  · exact List.prefix_refl _
  · exact prefix_of_under h

/-- What a confined path is: the join, below the root as it is written and as it is resolved. -/
theorem confine_ok {disk : Disk} {root p : List String} {rel : String}
    (h : confine disk root rel = .ok p) :
    ∃ realRoot, disk.EvalSymlinks root = some realRoot ∧ disk.EvalSymlinks (join root rel) = some p ∧
      inside root (join root rel) = true ∧ inside realRoot p = true := by
  unfold confine at h
  split at h
  · cases h
  · split at h
    · cases h
    · rename_i hlexical
      split at h
      · cases h
      · cases h
      · rename_i realRoot realFull hroot hfull
        split at h <;> cases h
        rename_i hinside
        exact ⟨realRoot, hroot, hfull, by simpa using hlexical, hinside⟩

theorem confine_prefix {disk : Disk} {root p : List String} {rel : String}
    (h : confine disk root rel = .ok p) :
    ∃ realRoot, disk.EvalSymlinks root = some realRoot ∧ realRoot <+: p := by
  obtain ⟨realRoot, hroot, -, -, hinside⟩ := confine_ok h
  exact ⟨realRoot, hroot, prefix_of_inside hinside⟩

theorem confineNew_prefix {disk : Disk} {root p : List String} {rel : String}
    (h : confineNew disk root rel = .ok p) :
    ∃ realRoot, disk.EvalSymlinks root = some realRoot ∧ realRoot <+: p := by
  unfold confineNew at h
  split at h
  · cases h
  · split at h
    · cases h
    · simp only at h
      split at h
      · cases h
      · cases h
      · rename_i realRoot realAnc hroot hanc
        split at h <;> cases h
        rename_i hinside
        exact ⟨realRoot, hroot, (prefix_of_inside hinside).trans (List.prefix_append _ _)⟩

theorem mutate_prefix {disk : Disk} {dir : List String} {kind : CommitKind} {rel newRel : String}
    {ps : List (List String)} (h : mutate disk dir kind rel newRel = .ok ps) {p : List String}
    (hp : p ∈ ps) : ∃ realRoot, disk.EvalSymlinks dir = some realRoot ∧ realRoot <+: p := by
  unfold mutate at h
  split at h
  · cases h
  · cases kind with
    | edit | delete =>
      cases hconfine : confine disk dir rel with
      | error text => simp [hconfine, Except.map] at h
      | ok full =>
        simp only [hconfine, Except.map, Except.ok.injEq] at h
        subst h
        rw [List.mem_singleton.mp hp]
        exact confine_prefix hconfine
    | create =>
      cases hconfine : confineNew disk dir rel with
      | error text => simp [hconfine, Except.map] at h
      | ok full =>
        simp only [hconfine, Except.map, Except.ok.injEq] at h
        subst h
        rw [List.mem_singleton.mp hp]
        exact confineNew_prefix hconfine
    | rename =>
      cases hold : confine disk dir rel with
      | error text => simp [hold, Bind.bind, Except.bind] at h
      | ok old =>
        cases hnew : confineNew disk dir newRel with
        | error text => simp [hold, hnew, Bind.bind, Except.bind] at h
        | ok full =>
          simp only [hold, hnew, Bind.bind, Except.bind, Pure.pure, Except.pure, Except.ok.injEq] at h
          subst h
          rcases List.mem_cons.mp hp with rfl | hp
          · exact confine_prefix hold
          · rw [List.mem_singleton.mp hp]
            exact confineNew_prefix hnew
    | other n => cases h

end Marshal.Deploy
