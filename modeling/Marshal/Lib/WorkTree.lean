import Mathlib.Data.List.Basic

/-! A work tree under version control.

Files are by location, a location being a list of components. The index says what is
tracked, with the content staged; a commit keeps an index. A hard reset gives every
file of the commit its content and takes away the tracked files it does not have. So
after a reset everything is as it was exactly when every file is tracked or was there
before (`reset_unlink_rolledBack_iff`). -/
namespace WorkTree
variable {α N I : Type*}

structure Commit (α N I : Type*) where
  info : I
  tree : List α → Option N

structure Clone (α N I : Type*) where
  files : List α → Option N
  index : List α → Option N
  head : Commit α N I

namespace Clone

/-- Matching paths are staged as they are, those without a file as gone. -/
def stage (s : Clone α N I) (m : List α → Bool) : Clone α N I :=
  { s with index := fun p => if m p then s.files p else s.index p }

/-- Matching tracked files are gone, from the index too. -/
def drop (s : Clone α N I) (m : List α → Bool) : Clone α N I :=
  { s with
    files := fun p => if m p ∧ (s.index p).isSome then none else s.files p
    index := fun p => if m p then none else s.index p }

def commit (s : Clone α N I) (info : I) : Clone α N I := { s with head := ⟨info, s.index⟩ }

/-- Files of the commit get their content back; other tracked files go, other untracked ones stay. -/
def reset (s : Clone α N I) (c : Commit α N I) : Clone α N I where
  files p := match c.tree p with
    | some n => some n
    | none => if (s.index p).isSome then none else s.files p
  index := c.tree
  head := c

variable [DecidableEq α]

def write (s : Clone α N I) (p : List α) (n : N) : Clone α N I :=
  { s with files := fun q => if q = p then some n else s.files q }

def unlink (s : Clone α N I) (p : List α) : Clone α N I :=
  { s with files := fun q => if q = p then none else s.files q }

/-- A table with what is at and below `src` at and below `dst` instead. -/
def moved (src dst : List α) (table : List α → Option N) (p : List α) : Option N :=
  if dst <+: p then table (src ++ p.drop dst.length)
  else if src <+: p then none else table p

def move (s : Clone α N I) (src dst : List α) : Clone α N I :=
  { s with files := moved src dst s.files, index := moved src dst s.index }

end Clone

/-- The work tree of a commit: tracked files are as in it, and there may be others. -/
structure Clean (s : Clone α N I) : Prop where
  index : s.index = s.head.tree
  files : ∀ p n, s.head.tree p = some n → s.files p = some n

/-- A change was taken back: the commit is the one before, its files have their content, and no
untracked file is there that was not before. -/
structure RolledBack (before after : Clone α N I) : Prop where
  head : after.head = before.head
  tracked : ∀ p n, before.head.tree p = some n → after.files p = some n
  untracked : ∀ p, after.index p = none → after.files p ≠ none → before.files p ≠ none

/-- Every file is tracked or was there before. -/
def NothingNew (before s : Clone α N I) : Prop :=
  ∀ p, s.index p = none → s.files p ≠ none → before.files p ≠ none

variable {before s : Clone α N I}

/-! ### One reset -/

@[simp] theorem reset_commit (s : Clone α N I) (info : I) (c : Commit α N I) :
    (s.commit info).reset c = s.reset c := rfl

theorem reset_untracked {c : Commit α N I} {p : List α} (htree : c.tree p = none) (hindex : s.index p = none) :
    (s.reset c).files p = s.files p := by
  simp [Clone.reset, htree, hindex]

theorem reset_tracked {c : Commit α N I} {p : List α} {n : N} (htree : c.tree p = some n) :
    (s.reset c).files p = some n := by
  simp [Clone.reset, htree]

/-- A file that is there after a reset, and not in the commit, was untracked. -/
theorem reset_files {c : Commit α N I} {p : List α} (htree : c.tree p = none)
    (h : (s.reset c).files p ≠ none) : s.index p = none ∧ (s.reset c).files p = s.files p := by
  cases hindex : s.index p with
  | none => exact ⟨rfl, reset_untracked htree hindex⟩
  | some n => simp [Clone.reset, htree, hindex] at h

/-! ### What keeps that nothing is new -/

theorem nothingNew_refl : NothingNew s s := fun _ _ h => h

theorem nothingNew_stage (h : NothingNew before s) (m : List α → Bool) : NothingNew before (s.stage m) := by
  intro p hindex hfile
  simp only [Clone.stage] at hindex hfile
  split at hindex
  · exact absurd hindex hfile
  · exact h p hindex hfile

theorem nothingNew_drop (h : NothingNew before s) (m : List α → Bool) : NothingNew before (s.drop m) := by
  intro p hindex hfile
  simp only [Clone.drop] at hindex hfile
  by_cases hm : m p = true
  · -- A matching file that is left was not tracked.
    cases htracked : s.index p with
    | none => exact h p htracked (by simpa [hm, htracked] using hfile)
    | some n => simp [hm, htracked] at hfile
  · exact h p (by simpa [hm] using hindex) (by simpa [hm] using hfile)

variable [DecidableEq α]

theorem nothingNew_write (h : NothingNew before s) {p : List α} (hp : before.files p ≠ none) (n : N) :
    NothingNew before (s.write p n) := by
  intro q hq hfile
  by_cases hqp : q = p
  · rwa [hqp]
  · simp only [Clone.write, if_neg hqp] at hfile
    exact h q hq hfile

/-- A move brings nothing new when all it takes along is tracked. -/
theorem nothingNew_move (h : NothingNew before s) {src dst : List α}
    (htracked : ∀ p, src <+: p → s.files p ≠ none → s.index p ≠ none) :
    NothingNew before (s.move src dst) := by
  intro p hindex hfile
  simp only [Clone.move, Clone.moved] at hindex hfile
  split at hindex
  · rename_i hdst
    rw [if_pos hdst] at hfile
    exact absurd hindex (htracked _ (List.prefix_append _ _) hfile)
  · rename_i hdst
    rw [if_neg hdst] at hfile
    split at hindex
    · rename_i hsrc
      rw [if_pos hsrc] at hfile
      exact absurd rfl hfile
    · rename_i hsrc
      rw [if_neg hsrc] at hfile
      exact h p hindex hfile

/-! ### What a reset takes back -/

/-- **After a reset and the removal of one path everything is as it was exactly when the commit does
not have the path, and every other file was tracked, in the commit or there before.** -/
theorem reset_unlink_rolledBack_iff (hclean : Clean before) (leftover : Option (List α)) :
    RolledBack before (leftover.elim (s.reset before.head) (s.reset before.head).unlink) ↔
      (∀ p ∈ leftover, before.head.tree p = none) ∧
        ∀ p, p ∉ leftover → s.index p = none → s.files p ≠ none → before.files p ≠ none := by
  constructor
  · intro h
    constructor
    · rintro p rfl
      by_contra hsome
      obtain ⟨n, hn⟩ := Option.ne_none_iff_exists'.mp hsome
      have hgone := h.tracked p n hn
      simp [Clone.unlink] at hgone
    · intro p hp hindex hfile
      cases htree : before.head.tree p with
      | some n => simp [hclean.files p n htree]
      | none =>
        refine h.untracked p ?_ ?_
        · cases leftover <;> exact htree
        · have hkeep := reset_untracked htree hindex
          cases leftover with
          | none => rwa [Option.elim_none, hkeep]
          | some q =>
            have hpq : p ≠ q := fun heq => hp (by rw [heq]; rfl)
            simpa [Clone.unlink, hpq, hkeep] using hfile
  · rintro ⟨hleft, hnew⟩
    refine ⟨?_, ?_, ?_⟩
    · cases leftover <;> rfl
    · intro p n hn
      cases leftover with
      | none => exact reset_tracked hn
      | some q =>
        have hpq : p ≠ q := by
          rintro rfl
          rw [hleft p rfl] at hn
          cases hn
        simpa [Clone.unlink, hpq] using reset_tracked hn
    · intro p hindex hfile
      have htree : before.head.tree p = none := by cases leftover <;> exact hindex
      cases leftover with
      | none =>
        obtain ⟨hs, heq⟩ := reset_files htree hfile
        rw [Option.elim_none, heq] at hfile
        exact hnew p (by simp) hs hfile
      | some q =>
        have hpq : p ≠ q := by
          rintro rfl
          simp [Clone.unlink] at hfile
        rw [Option.elim_some] at hfile
        simp only [Clone.unlink, if_neg hpq] at hfile
        obtain ⟨hs, heq⟩ := reset_files htree hfile
        rw [heq] at hfile
        exact hnew p (by simpa using Ne.symm hpq) hs hfile

end WorkTree
