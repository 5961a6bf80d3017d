import Marshal.Deploy.Deployer
import Marshal.Deploy.GitGuard
import Marshal.Lib.WorkTree

/-! One file mutation: the change, the commit and the push.

`mutateAndPush` changes a file of a deployment's clone, stages what it touched, commits
and pushes. Once HEAD is known, any failure rolls the clone back: a hard reset to it,
and the removal of the one path that a creation or a rename may have left. What git and
the operating system answer comes from outside (`World`); each command does what it is
documented to do. -/
namespace Marshal.Deploy
open FilePath

structure CommitInfo where
  sha : String
  message : String
  name : String
  email : String
  deriving DecidableEq, Repr

abbrev Commit := WorkTree.Commit String Node CommitInfo

/-- The clone's work tree; git's own files are not among its files. -/
abbrev Clone := WorkTree.Clone String Node CommitInfo

structure CommitResult where
  Sha : String
  Branch : String
  deriving DecidableEq, Repr

/-! ### What comes from outside -/

/-- How writing a file ends: with all of the content, without touching the file, or with only so
many bytes of it. -/
inductive Wrote where
  | done
  | fails
  | torn (n : Nat)
  deriving DecidableEq, Repr

structure World where
  /-- What `git symbolic-ref` prints. -/
  branch : Option String
  revParse : Bool
  mkdir : Bool
  write : Wrote
  /-- The paths that `git add` or `git rm` acts on: a pathspec may match others than the one meant. -/
  paths : List String → Bool
  /-- Whether that command succeeds. -/
  staged : Bool
  mv : Bool
  /-- The new commit, if there is one. -/
  commit : Option String
  credential : Bool
  push : Bool
  /-- Whether HEAD can be read in the end. -/
  head : Bool

namespace Disk

/-- The files and links, by location. -/
def files (disk : Disk) (p : List String) : Option Node :=
  match disk.node p with
  | some .dir => none
  | node => node

/-- Whatever is on the way, and at the end of it, is a directory. -/
def clear (disk : Disk) (p : List String) : Bool := p.inits.all fun q => (disk.files q).isNone

/-- A file can be written there: it is not a directory. -/
def writable (disk : Disk) (p : List String) : Bool := p ≠ [] && disk.node p != some .dir

end Disk

/-- What git holds of a clone. -/
structure Repo where
  index : List String → Option Node
  head : Commit

/-- The clone with the files that are there. -/
def checkout (disk : Disk) (pre : Repo) : Clone := ⟨disk.files, pre.index, pre.head⟩

@[simp] theorem checkout_files (disk : Disk) (pre : Repo) : (checkout disk pre).files = disk.files := rfl

@[simp] theorem checkout_index (disk : Disk) (pre : Repo) : (checkout disk pre).index = pre.index := rfl

@[simp] theorem checkout_head (disk : Disk) (pre : Repo) : (checkout disk pre).head = pre.head := rfl

/-! ### The change -/

/-- What a change leaves: its result, the clone, and the path to remove on rollback. -/
structure Applied where
  result : Except String Unit
  clone : Clone
  leftover : Option (List String)

variable (disk : Disk) (dir : List String) (w : World)

def MkdirAll (p : List String) : Bool := w.mkdir && disk.clear p

/-- The clone, and whether the content is written. -/
def WriteFile (s : Clone) (full : List String) (content : List UInt8) : Clone × Bool :=
  if disk.writable full = false then (s, false)
  else match w.write with
    | .done => (s.write full (.file content), true)
    | .fails => (s, false)
    | .torn n => (s.write full (.file (content.take n)), false)

def gitAdd (s : Clone) (leftover : Option (List String)) : Applied :=
  ⟨if w.staged then .ok () else .error "git add failed", s.stage w.paths, leftover⟩

def applyEdit (s : Clone) (rel : String) (content : List UInt8) : Applied :=
  match confine disk dir rel with
  | .error text => ⟨.error text, s, none⟩
  | .ok full => match WriteFile disk w s full content with
    | (s, false) => ⟨.error "write failed", s, none⟩
    | (s, true) => gitAdd w s none

def applyCreate (s : Clone) (rel : String) (content : List UInt8) : Applied :=
  match confineNew disk dir rel with
  | .error text => ⟨.error text, s, none⟩
  | .ok full =>
    if MkdirAll disk w full.dropLast = false then ⟨.error "mkdir failed", s, none⟩
    else match WriteFile disk w s full content with
      | (s, false) => ⟨.error "write failed", s, none⟩
      | (s, true) => gitAdd w s (some full)

def applyDelete (s : Clone) (rel : String) : Applied :=
  match confine disk dir rel with
  | .error text => ⟨.error text, s, none⟩
  | .ok _ => ⟨if w.staged then .ok () else .error "git rm failed", s.drop w.paths, none⟩

/-- Where git finds a path of the clone: it does not follow a link. -/
def gitPath (rel : String) : List String := (disk.EvalSymlinks dir).getD [] ++ below dir rel

/-- Where `git mv` moves a path to, if it does: into a directory that is there, and never over
something. A file has to be tracked. -/
def gitMv (s : Clone) (rel newRel : String) (full : List String) : Option (List String) :=
  let src := gitPath disk dir rel
  let dst := match disk.Lstat (join dir newRel) with
    | none => some full
    | some .dir => some (full ++ src.getLast?.toList)
    | some _ => none
  dst.filter fun dst =>
    w.mv && (disk.node dst).isNone && disk.clear dst.dropLast && !src.isPrefixOf dst &&
      ((s.files src).isNone || (s.index src).isSome)

def applyRename (s : Clone) (rel newRel : String) : Applied :=
  match confine disk dir rel with
  | .error text => ⟨.error text, s, none⟩
  | .ok _ => match confineNew disk dir newRel with
    | .error text => ⟨.error text, s, none⟩
    | .ok full => match gitMv disk dir w s rel newRel full with
      | none => ⟨.error "git mv failed", s, some full⟩
      | some dst => ⟨.ok (), s.move (gitPath disk dir rel) dst, some full⟩

def apply (s : Clone) (kind : CommitKind) (rel newRel : String) (content : List UInt8) : Applied :=
  match kind with
  | .edit => applyEdit disk dir w s rel content
  | .create => applyCreate disk dir w s rel content
  | .delete => applyDelete disk dir w s rel
  | .rename => applyRename disk dir w s rel newRel
  | .other _ => ⟨.error "unknown commit kind", s, none⟩

/-! ### The whole -/

def gitIdentity (Username : String) : String × String :=
  if Username ≠ "" then (Username, Username ++ "@marshal.local") else ("Marshal", "marshal@localhost")

def rollback (s : Clone) (pre : Commit) (leftover : Option (List String)) : Clone :=
  match leftover with
  | none => s.reset pre
  | some p => (s.reset pre).unlink p

/-- The result and the clone afterwards; before, git holds `pre`. -/
def mutateAndPush (pre : Repo) (Username : String) (kind : CommitKind) (rel newRel : String)
    (content : List UInt8) (message : String) : Except String CommitResult × Clone :=
  let s := checkout disk pre
  match w.branch with
  | none => (.error "deployment is not on a branch (read-only)", s)
  | some branch =>
    if branch = "" then (.error "deployment is not on a branch (read-only)", s)
    else if isGitInternal rel ∨ (kind = .rename ∧ isGitInternal newRel) then
      (.error "cannot modify .git", s)
    else if w.revParse = false then (.error "git rev-parse failed", s)
    else
      let ⟨result, s, leftover⟩ := apply disk dir w s kind rel newRel content
      match result with
      | .error text => (.error text, rollback s pre.head leftover)
      | .ok () => match w.commit with
        | none => (.error "git commit failed", rollback s pre.head leftover)
        | some sha =>
          let (name, email) := gitIdentity Username
          let s := s.commit ⟨sha, if message = "" then "Update via Marshal" else message, name, email⟩
          if w.credential = false then (.error "credential setup failed", rollback s pre.head leftover)
          else if w.push = false then
            (.error "push rejected (origin moved or credential lacks write access)",
              rollback s pre.head leftover)
          else (.ok ⟨if w.head then sha else "", branch⟩, s)

/-- HEAD is known before anything is changed. -/
def Captured (kind : CommitKind) (rel newRel : String) : Prop :=
  (∃ branch ∈ w.branch, branch ≠ "") ∧ ¬ (isGitInternal rel ∨ (kind = .rename ∧ isGitInternal newRel)) ∧
    w.revParse = true

/-! ### What is refused -/

variable {disk dir w} {pre : Repo} {Username : String} {kind : CommitKind} {rel newRel : String}
  {content : List UInt8} {message : String}

/-- What the guards do not let through is an error of the change, which has done nothing then. -/
theorem apply_refused {text : String} (hgit : ¬ (isGitInternal rel ∨ (kind = .rename ∧ isGitInternal newRel)))
    (h : mutate disk dir kind rel newRel = .error text) (s : Clone) :
    apply disk dir w s kind rel newRel content = ⟨.error text, s, none⟩ := by
  unfold mutate at h
  rw [if_neg hgit] at h
  cases kind with
  | edit | delete =>
    cases hconfine : confine disk dir rel with
    | ok full => simp [hconfine, Except.map] at h
    | error text' =>
      simp only [hconfine, Except.map, Except.error.injEq] at h
      simp [apply, applyEdit, applyDelete, hconfine, h]
  | create =>
    cases hconfine : confineNew disk dir rel with
    | ok full => simp [hconfine, Except.map] at h
    | error text' =>
      simp only [hconfine, Except.map, Except.error.injEq] at h
      simp [apply, applyCreate, hconfine, h]
  | rename =>
    cases hold : confine disk dir rel with
    | error text' =>
      simp only [hold, Bind.bind, Except.bind, Except.error.injEq] at h
      simp [apply, applyRename, hold, h]
    | ok old =>
      cases hnew : confineNew disk dir newRel with
      | ok full => simp [hold, hnew, Bind.bind, Except.bind, Pure.pure, Except.pure] at h
      | error text' =>
        simp only [hold, hnew, Bind.bind, Except.bind, Except.error.injEq] at h
        simp [apply, applyRename, hold, hnew, h]
  | other n =>
    simp only [Except.error.injEq] at h
    simp [apply, h]

/-- Before HEAD is known nothing is changed. -/
theorem mutateAndPush_early (h : ¬ Captured w kind rel newRel) :
    ∃ text, mutateAndPush disk dir w pre Username kind rel newRel content message =
      (.error text, checkout disk pre) := by
  unfold mutateAndPush
  cases hbranch : w.branch with
  | none => exact ⟨_, rfl⟩
  | some branch =>
    simp only
    split
    · exact ⟨_, rfl⟩
    · rename_i hne
      split
      · exact ⟨_, rfl⟩
      · rename_i hgit
        split
        · exact ⟨_, rfl⟩
        · rename_i hrev
          exact absurd ⟨⟨branch, hbranch, hne⟩, hgit, by simpa using hrev⟩ h

/-- The change, the commit and the push are all made. -/
def Lands (w : World) (applied : Applied) : Prop :=
  applied.result = .ok () ∧ w.commit.isSome = true ∧ w.credential = true ∧ w.push = true

/-- After that, a mutation stays if it lands, and is rolled back if not. -/
theorem mutateAndPush_captured {applied : Applied} (hcaptured : Captured w kind rel newRel)
    (happlied : apply disk dir w (checkout disk pre) kind rel newRel content = applied) :
    (Lands w applied ∧
      (∃ r, (mutateAndPush disk dir w pre Username kind rel newRel content message).1 = .ok r) ∧
      (mutateAndPush disk dir w pre Username kind rel newRel content message).2.files =
        applied.clone.files) ∨
    (¬ Lands w applied ∧
      (∃ text, (mutateAndPush disk dir w pre Username kind rel newRel content message).1 = .error text) ∧
      (mutateAndPush disk dir w pre Username kind rel newRel content message).2 =
        rollback applied.clone pre.head applied.leftover) := by
  obtain ⟨⟨branch, hbranch, hne⟩, hgit, hrev⟩ := hcaptured
  rw [Option.mem_def] at hbranch
  have hrev : ¬ w.revParse = false := by simp [hrev]
  unfold mutateAndPush Lands
  simp only [hbranch, if_neg hne, if_neg hgit, if_neg hrev, happlied]
  obtain ⟨result, s, leftover⟩ := applied
  cases result with
  | error text => exact .inr ⟨by simp, ⟨text, rfl⟩, rfl⟩
  | ok u =>
    cases hcommit : w.commit with
    | none => exact .inr ⟨by simp, ⟨_, rfl⟩, rfl⟩
    | some sha =>
      -- A reset does not look at the commit it leaves.
      have hreset : ∀ info, rollback (s.commit info) pre.head leftover = rollback s pre.head leftover := by
        intro info
        cases leftover <;> rfl
      cases hcred : w.credential with
      | false => exact .inr ⟨by simp, ⟨_, rfl⟩, hreset _⟩
      | true =>
        cases hpush : w.push with
        | false => exact .inr ⟨by simp, ⟨_, rfl⟩, hreset _⟩
        | true => exact .inl ⟨by simp, ⟨_, rfl⟩, rfl⟩

theorem mutateAndPush_error {text : String} (hcaptured : Captured w kind rel newRel)
    (h : (mutateAndPush disk dir w pre Username kind rel newRel content message).1 = .error text) :
    (mutateAndPush disk dir w pre Username kind rel newRel content message).2 =
      rollback (apply disk dir w (checkout disk pre) kind rel newRel content).clone pre.head
        (apply disk dir w (checkout disk pre) kind rel newRel content).leftover := by
  obtain ⟨-, ⟨r, hr⟩, -⟩ | ⟨-, -, hroll⟩ := @mutateAndPush_captured disk dir w pre Username kind rel newRel
    content message _ hcaptured rfl
  · rw [hr] at h
    cases h
  · exact hroll

/-! ### One commit request -/

/-- The result, and the clone afterwards; `gitSourced` tells the managed apps with a repository. -/
def Deployer.Commit (d : Deployer) (gitSourced : String → Bool) (w : World) (pre : Repo) (name : String)
    (kind : CommitKind) (rel newRel : String) (content : List UInt8) (message Username : String) :
    Except String CommitResult × Clone :=
  if gitSourced name = false then (.error "app %q is not git-sourced", checkout d.disk pre)
  else match d.Root name with
    | none => (.error Deployer.notDeployment, checkout d.disk pre)
    | some dir =>
      if (d.states.get name).isSome then (.error "app %q is deploying", checkout d.disk pre)
      else mutateAndPush d.disk dir w pre Username kind rel newRel content message

end Marshal.Deploy
