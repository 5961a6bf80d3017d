import Marshal.Deploy.Mutate

/-! What a failed mutation leaves.

A rollback resets the clone and removes one path. That path is the one the request
names, whether or not a tracked file was there, and it is noted only once a file is
written in full. So a creation or a rename onto a tracked file takes the file away; a
creation torn off leaves a new file, and so does a rename that takes untracked files
along. In all other failures the clone is as it was (`rolled_back_iff`). -/
namespace Marshal.Deploy
open WorkTree FilePath

variable {disk : Disk} {dir : List String} {w : World} {pre : Repo} {rel newRel : String}
  {content : List UInt8} {full : List String}

/-! ### When a failure is taken back -/

/-- A creation that writes its file writes it where no tracked one was, and one torn off where a
file was. -/
def CreateSpared (disk : Disk) (dir : List String) (w : World) (pre : Repo) (rel : String) : Prop :=
  ∀ full, confineNew disk dir rel = .ok full → MkdirAll disk w full.dropLast = true →
    disk.writable full = true → match w.write with
      | .done => pre.head.tree full = none
      | .fails => True
      | .torn _ => disk.files full ≠ none

/-- A rename asks for a path where no tracked file is, and if git moves anything, all of it is
tracked. -/
def RenameSpared (disk : Disk) (dir : List String) (w : World) (pre : Repo) (rel newRel : String) : Prop :=
  (∃ old, confine disk dir rel = .ok old) → ∀ full, confineNew disk dir newRel = .ok full →
    pre.head.tree full = none ∧
      ((gitMv disk dir w (checkout disk pre) rel newRel full).isSome →
        ∀ p, gitPath disk dir rel <+: p → disk.files p ≠ none → pre.head.tree p ≠ none)

def Spared (disk : Disk) (dir : List String) (w : World) (pre : Repo) (kind : CommitKind)
    (rel newRel : String) : Prop :=
  match kind with
  | .edit | .delete | .other _ => True
  | .create => CreateSpared disk dir w pre rel
  | .rename => RenameSpared disk dir w pre rel newRel

/-- What an `Applied` change leaves is taken back. -/
def TakenBack (disk : Disk) (pre : Repo) (applied : Applied) : Prop :=
  RolledBack (checkout disk pre) (rollback applied.clone pre.head applied.leftover)

theorem takenBack_iff (hclean : Clean (checkout disk pre)) (applied : Applied) :
    TakenBack disk pre applied ↔
      (∀ p ∈ applied.leftover, pre.head.tree p = none) ∧
        ∀ p, p ∉ applied.leftover → applied.clone.index p = none → applied.clone.files p ≠ none →
          disk.files p ≠ none := by
  have hroll : rollback applied.clone pre.head applied.leftover =
      applied.leftover.elim (applied.clone.reset pre.head) (applied.clone.reset pre.head).unlink := by
    cases applied.leftover <;> rfl
  unfold TakenBack
  rw [hroll]
  exact reset_unlink_rolledBack_iff hclean applied.leftover

/-- With nothing to remove, it is enough that nothing is new. -/
theorem takenBack_of_nothingNew (hclean : Clean (checkout disk pre)) {result : Except String Unit} {s : Clone}
    (h : NothingNew (checkout disk pre) s) : TakenBack disk pre ⟨result, s, none⟩ :=
  (takenBack_iff hclean _).mpr ⟨by simp, fun p _ => h p⟩

/-! ### Edits and deletions -/

theorem writable_dir (h : disk.writable full = true) : disk.node full ≠ some .dir := by
  simp only [Disk.writable, Bool.and_eq_true, bne_iff_ne, ne_eq] at h
  exact h.2

theorem files_of_writable (hthere : disk.node full ≠ none) (h : disk.writable full = true) :
    disk.files full ≠ none := by
  unfold Disk.files
  split
  · exact absurd ‹_› (writable_dir h)
  · exact hthere

/-- What is edited is there. -/
theorem confined_file (hconfine : confine disk dir rel = .ok full) (hwritable : disk.writable full = true) :
    disk.files full ≠ none := by
  refine files_of_writable ?_ hwritable
  obtain ⟨-, -, hp, -, -⟩ := confine_ok hconfine
  rcases (Disk.EvalSymlinks_real hp).there with rfl | h
  · simp [Disk.writable] at hwritable
  · exact h

/-- Writing over a file brings nothing new. -/
theorem nothingNew_WriteFile {s : Clone} (h : NothingNew (checkout disk pre) s)
    (hthere : disk.writable full = true → disk.files full ≠ none) :
    NothingNew (checkout disk pre) (WriteFile disk w s full content).1 := by
  unfold WriteFile
  split
  · exact h
  · rename_i hwritable
    have hfile := hthere (by simpa using hwritable)
    cases w.write with
    | done => exact nothingNew_write h hfile _
    | fails => exact h
    | torn n => exact nothingNew_write h hfile _

theorem applyEdit_takenBack (hclean : Clean (checkout disk pre)) :
    TakenBack disk pre (applyEdit disk dir w (checkout disk pre) rel content) := by
  unfold applyEdit
  cases hconfine : confine disk dir rel with
  | error text => exact takenBack_of_nothingNew hclean nothingNew_refl
  | ok full =>
    have hnew := @nothingNew_WriteFile disk w pre content full _ nothingNew_refl (confined_file hconfine)
    simp only
    split
    · rename_i s heq
      rw [heq] at hnew
      exact takenBack_of_nothingNew hclean hnew
    · rename_i s heq
      rw [heq] at hnew
      exact takenBack_of_nothingNew hclean (nothingNew_stage hnew w.paths)

theorem applyDelete_takenBack (hclean : Clean (checkout disk pre)) :
    TakenBack disk pre (applyDelete disk dir w (checkout disk pre) rel) := by
  unfold applyDelete
  cases confine disk dir rel with
  | error text => exact takenBack_of_nothingNew hclean nothingNew_refl
  | ok full => exact takenBack_of_nothingNew hclean (nothingNew_drop nothingNew_refl w.paths)

/-! ### Creations -/

theorem files_checkout_ne (hclean : Clean (checkout disk pre)) (h : pre.head.tree full ≠ none) :
    disk.files full ≠ none := by
  obtain ⟨n, hn⟩ := Option.ne_none_iff_exists'.mp h
  rw [show disk.files full = some n from hclean.files full n hn]
  exact Option.some_ne_none n

/-- A file written whole and then removed: nothing else is new. -/
theorem created_takenBack_iff (hclean : Clean (checkout disk pre)) (node : Node) :
    TakenBack disk pre (gitAdd w ((checkout disk pre).write full node) (some full)) ↔
      pre.head.tree full = none := by
  rw [takenBack_iff hclean]
  refine ⟨fun h => h.1 full rfl, fun htree => ⟨?_, fun p hp hindex hfile => ?_⟩⟩
  · rintro p ⟨⟩
    exact htree
  · have hpfull : p ≠ full := fun heq => hp (by rw [heq]; rfl)
    have hnew : NothingNew ((checkout disk pre).write full node)
        (((checkout disk pre).write full node).stage w.paths) := nothingNew_stage nothingNew_refl w.paths
    have hthere := hnew p hindex hfile
    simpa [Clone.write, hpfull] using hthere

/-- A file torn off stays, where there was none. -/
theorem torn_takenBack_iff (hclean : Clean (checkout disk pre)) (result : Except String Unit) (node : Node) :
    TakenBack disk pre ⟨result, (checkout disk pre).write full node, none⟩ ↔ disk.files full ≠ none := by
  constructor
  · intro h
    rw [takenBack_iff hclean] at h
    by_contra hnone
    have htree : pre.head.tree full = none := by
      by_contra hsome
      exact files_checkout_ne hclean hsome hnone
    have hindex : pre.index full = none := (congrFun hclean.index full).trans htree
    exact h.2 full (by simp) hindex (by simp [Clone.write]) hnone
  · intro h
    exact takenBack_of_nothingNew hclean (nothingNew_write nothingNew_refl h node)

theorem applyCreate_takenBack_iff (hclean : Clean (checkout disk pre)) :
    TakenBack disk pre (applyCreate disk dir w (checkout disk pre) rel content) ↔
      CreateSpared disk dir w pre rel := by
  have hkept : ∀ result, TakenBack disk pre ⟨result, checkout disk pre, none⟩ :=
    fun _ => takenBack_of_nothingNew hclean nothingNew_refl
  unfold applyCreate CreateSpared
  cases hconfine : confineNew disk dir rel with
  | error text => simp [hkept]
  | ok full =>
    simp only [Except.ok.injEq, forall_eq']
    cases hmkdir : MkdirAll disk w full.dropLast with
    | false => simp [hkept]
    | true =>
      cases hwritable : disk.writable full with
      | false => simp [WriteFile, hwritable, hkept]
      | true =>
        cases hwrite : w.write with
        | done => simpa [WriteFile, hwritable, hwrite] using created_takenBack_iff hclean _
        | fails => simp [WriteFile, hwritable, hwrite, hkept]
        | torn n => simpa [WriteFile, hwritable, hwrite] using torn_takenBack_iff hclean _ _

/-! ### Renames -/

/-- A move that git makes: to the path asked for or below it, where nothing is. -/
theorem gitMv_spec {s : Clone} {dst : List String} (h : gitMv disk dir w s rel newRel full = some dst) :
    full <+: dst ∧ disk.node dst = none ∧ disk.clear dst.dropLast = true ∧
      (s.files (gitPath disk dir rel) ≠ none → s.index (gitPath disk dir rel) ≠ none) := by
  unfold gitMv at h
  simp only [Option.filter_eq_some_iff, Bool.and_eq_true, Bool.or_eq_true, Option.isNone_iff_eq_none,
    Option.isSome_iff_ne_none] at h
  obtain ⟨hdst, ⟨⟨⟨-, hnode⟩, hclear⟩, -⟩, htracked⟩ := h
  refine ⟨?_, hnode, hclear, fun hfile => htracked.resolve_left hfile⟩
  split at hdst <;> cases hdst
  · exact List.prefix_refl _
  · exact List.prefix_append _ _

theorem moved_below {N : Type} (src dst rest : List String) (table : List String → Option N) :
    Clone.moved src dst table (dst ++ rest) = table (src ++ rest) := by
  simp [Clone.moved]

/-- The leftover of a rename apart, a move is taken back exactly when all it took along is tracked. -/
theorem moved_takenBack_iff (hclean : Clean (checkout disk pre)) {dst : List String}
    (h : gitMv disk dir w (checkout disk pre) rel newRel full = some dst) :
    TakenBack disk pre ⟨.ok (), (checkout disk pre).move (gitPath disk dir rel) dst, some full⟩ ↔
      pre.head.tree full = none ∧ ∀ p, gitPath disk dir rel <+: p → disk.files p ≠ none → pre.head.tree p ≠ none := by
  obtain ⟨hfull, hnode, -, hsrc⟩ := gitMv_spec h
  rw [takenBack_iff hclean, ← show pre.index = pre.head.tree from hclean.index]
  constructor
  · rintro ⟨hleft, hnew⟩
    refine ⟨hleft full rfl, ?_⟩
    rintro p ⟨rest, rfl⟩ hfile htree
    -- The file is now at the same place below the destination, and nothing was there.
    have hempty : disk.files (dst ++ rest) = none := by
      simp [Disk.files, Disk.node_none_append hnode rest]
    have hother : dst ++ rest ≠ full := by
      intro heq
      have hlen := hfull.length_le
      have hsame := congrArg List.length heq
      rw [List.length_append] at hsame
      obtain rfl : rest = [] := List.eq_nil_of_length_eq_zero (by omega)
      rw [List.append_nil] at hfile htree
      exact hsrc hfile htree
    refine hnew (dst ++ rest) (by simpa using Ne.symm hother) ?_ ?_ hempty
    · exact (moved_below _ _ _ _).trans htree
    · exact (moved_below _ _ _ _).trans_ne hfile
  · rintro ⟨htree, htracked⟩
    refine ⟨?_, fun p _ => nothingNew_move nothingNew_refl htracked p⟩
    rintro p ⟨⟩
    exact htree

theorem applyRename_takenBack_iff (hclean : Clean (checkout disk pre)) :
    TakenBack disk pre (applyRename disk dir w (checkout disk pre) rel newRel) ↔
      RenameSpared disk dir w pre rel newRel := by
  have hkept : ∀ result, TakenBack disk pre ⟨result, checkout disk pre, none⟩ :=
    fun _ => takenBack_of_nothingNew hclean nothingNew_refl
  unfold applyRename RenameSpared
  cases hold : confine disk dir rel with
  | error text => simp [hkept]
  | ok old =>
    cases hnew : confineNew disk dir newRel with
    | error text => simp [hkept]
    | ok full =>
      simp only [Except.ok.injEq, exists_eq', forall_const, forall_eq']
      cases hmv : gitMv disk dir w (checkout disk pre) rel newRel full with
      | some dst => simpa [hmv] using moved_takenBack_iff hclean hmv
      | none =>
        simp only [Option.isSome_none, Bool.false_eq_true, false_imp_iff, and_true]
        rw [takenBack_iff hclean]
        refine ⟨fun h => h.1 full rfl, fun htree => ⟨?_, fun p _ => nothingNew_refl p⟩⟩
        rintro p ⟨⟩
        exact htree

/-! ### Nothing in the way

Git would also delete an untracked file where a reset needs a directory, or below where it
needs a file. A mutation leaves none there. -/

/-- No file is on the way to the location, and no directory at it. -/
structure Placed (disk : Disk) (p : List String) : Prop where
  above : ∀ q, q <+: p → q ≠ p → disk.files q = none
  here : disk.node p ≠ some .dir

theorem files_of_dir (h : disk.node full = some .dir) : disk.files full = none := by
  simp [Disk.files, h]

theorem placed_of_file (h : disk.files full ≠ none) : Placed disk full := by
  have hdir : disk.node full ≠ some .dir := fun hdir => h (files_of_dir hdir)
  have hnode : disk.node full ≠ none := fun hnone => h (by simp [Disk.files, hnone])
  exact ⟨fun q hq hne => files_of_dir (Disk.node_parent hnode hq hne), hdir⟩

theorem prefix_dropLast {p q : List String} (h : q <+: p) (hne : q ≠ p) : q <+: p.dropLast := by
  obtain ⟨rest, rfl⟩ := h
  rcases List.eq_nil_or_concat rest with rfl | ⟨rest, c, rfl⟩
  · exact absurd (List.append_nil q).symm hne
  · rw [List.concat_eq_append, ← List.append_assoc, List.dropLast_concat]
    exact List.prefix_append _ _

theorem placed_of_clear (hclear : disk.clear full.dropLast = true) (hdir : disk.node full ≠ some .dir) :
    Placed disk full := by
  refine ⟨fun q hq hne => ?_, hdir⟩
  have hmem : q ∈ full.dropLast.inits := (List.mem_inits _ _).mpr (prefix_dropLast hq hne)
  exact Option.isNone_iff_eq_none.mp (List.all_eq_true.mp hclear q hmem)

/-- What is moved to a free place stays placed. -/
theorem placed_append (h : Placed disk full) (hnode : disk.node full = none) (rest : List String) :
    Placed disk (full ++ rest) := by
  refine ⟨fun q hq hne => ?_, by simp [Disk.node_none_append hnode rest]⟩
  rcases List.prefix_or_prefix_of_prefix hq (List.prefix_append full rest) with hbefore | ⟨more, rfl⟩
  · by_cases hqfull : q = full
    · simp [Disk.files, hqfull, hnode]
    · exact h.above q hbefore hqfull
  · simp [Disk.files, Disk.node_none_append hnode more]

/-- A tracked file and a file elsewhere are not one on the way to the other. -/
theorem placed_apart (hclean : Clean (checkout disk pre)) {p q : List String} (hp : Placed disk p)
    (hq : pre.head.tree q ≠ none) (hne : p ≠ q) : ¬ p <+: q ∧ ¬ q <+: p := by
  have hfile := files_checkout_ne hclean hq
  refine ⟨fun hpq => ?_, fun hqp => hfile (hp.above q hqp (Ne.symm hne))⟩
  have hnode : disk.node q ≠ none := fun hnone => hfile (by simp [Disk.files, hnone])
  exact hp.here (Disk.node_parent hnode hpq hne)

def AllPlaced (disk : Disk) (s : Clone) : Prop := ∀ p, s.files p ≠ none → Placed disk p

theorem allPlaced_checkout : AllPlaced disk (checkout disk pre) := fun _ => placed_of_file

theorem allPlaced_WriteFile {s : Clone} (h : AllPlaced disk s)
    (hfull : disk.writable full = true → Placed disk full) :
    AllPlaced disk (WriteFile disk w s full content).1 := by
  have hwrite : Placed disk full → ∀ node, AllPlaced disk (s.write full node) := by
    intro hplaced node p hfile
    by_cases hp : p = full
    · rwa [hp]
    · exact h p (by simpa [Clone.write, hp] using hfile)
  unfold WriteFile
  split
  · exact h
  · rename_i hwritable
    have hplaced := hfull (by simpa using hwritable)
    cases w.write with
    | done => exact hwrite hplaced _
    | fails => exact h
    | torn n => exact hwrite hplaced _

theorem allPlaced_drop {s : Clone} (h : AllPlaced disk s) (m : List String → Bool) :
    AllPlaced disk (s.drop m) := by
  intro p hfile
  refine h p ?_
  simp only [Clone.drop] at hfile
  split at hfile
  · exact absurd rfl hfile
  · exact hfile

theorem allPlaced_move {s : Clone} (h : AllPlaced disk s) {src dst : List String}
    (hdst : Placed disk dst) (hnode : disk.node dst = none) : AllPlaced disk (s.move src dst) := by
  intro p hfile
  simp only [Clone.move, Clone.moved] at hfile
  split at hfile
  · rename_i hbelow
    obtain ⟨rest, rfl⟩ := hbelow
    exact placed_append hdst hnode rest
  · split at hfile
    · exact absurd rfl hfile
    · exact h p hfile

theorem allPlaced_apply (kind : CommitKind) :
    AllPlaced disk (apply disk dir w (checkout disk pre) kind rel newRel content).clone := by
  cases kind with
  | other n => exact allPlaced_checkout
  | delete =>
    simp only [apply, applyDelete]
    cases confine disk dir rel with
    | error text => exact allPlaced_checkout
    | ok full => exact allPlaced_drop allPlaced_checkout w.paths
  | edit =>
    simp only [apply, applyEdit]
    cases hconfine : confine disk dir rel with
    | error text => exact allPlaced_checkout
    | ok full =>
      have hplaced := @allPlaced_WriteFile disk w content full (checkout disk pre) allPlaced_checkout
        fun hwritable => placed_of_file (confined_file hconfine hwritable)
      simp only
      split <;> rename_i s heq <;> rw [heq] at hplaced <;> exact hplaced
  | create =>
    simp only [apply, applyCreate]
    cases confineNew disk dir rel with
    | error text => exact allPlaced_checkout
    | ok full =>
      simp only
      split
      · exact allPlaced_checkout
      · rename_i hmkdir
        simp only [MkdirAll, Bool.not_eq_false, Bool.and_eq_true] at hmkdir
        have hplaced := @allPlaced_WriteFile disk w content full (checkout disk pre) allPlaced_checkout
          fun hwritable => placed_of_clear hmkdir.2 (writable_dir hwritable)
        split <;> rename_i s heq <;> rw [heq] at hplaced <;> exact hplaced
  | rename =>
    simp only [apply, applyRename]
    cases confine disk dir rel with
    | error text => exact allPlaced_checkout
    | ok old =>
      cases confineNew disk dir newRel with
      | error text => exact allPlaced_checkout
      | ok full =>
        cases hmv : gitMv disk dir w (checkout disk pre) rel newRel full with
        | none =>
          simp only [hmv]
          exact allPlaced_checkout
        | some dst =>
          simp only [hmv]
          obtain ⟨-, hnode, hclear, -⟩ := gitMv_spec hmv
          exact allPlaced_move allPlaced_checkout (placed_of_clear hclear (by simp [hnode])) hnode

/-- When a mutation is rolled back, no file is on the way to a tracked one or below it. -/
theorem nothing_in_way (hclean : Clean (checkout disk pre)) (kind : CommitKind) {p q : List String}
    (hp : (apply disk dir w (checkout disk pre) kind rel newRel content).clone.files p ≠ none)
    (hq : pre.head.tree q ≠ none) (hne : p ≠ q) : ¬ p <+: q ∧ ¬ q <+: p :=
  placed_apart hclean (allPlaced_apply kind p hp) hq hne

/-! ### All failures -/

/-- A clone in `/d` with one tracked file. -/
def oneFile : Disk := Disk.ofLeaves [(["d", "a.txt"], .file [97, 10])]

def oneFileTree (p : List String) : Option Node :=
  if p = ["d", "a.txt"] then some (.file [97, 10]) else none

def oneFileRepo : Repo := ⟨oneFileTree, ⟨⟨"c0", "", "", ""⟩, oneFileTree⟩⟩

/-- All goes well until the push. -/
def pushRejected : World :=
  { branch := some "main", revParse := true, mkdir := true, write := .done, paths := fun _ => true,
    staged := true, mv := true, commit := some "c1", credential := true, push := false, head := true }

theorem oneFile_clean : Clean (checkout oneFile oneFileRepo) := by
  refine ⟨rfl, fun p n h => ?_⟩
  have hp : p = ["d", "a.txt"] := by
    by_contra hne
    simp [checkout, oneFileRepo, oneFileTree, hne] at h
  subst hp
  rw [← h]
  decide

end Marshal.Deploy
