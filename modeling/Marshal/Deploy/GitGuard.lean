import Marshal.Deploy.Confine
import Marshal.Lib.Crossing

/-! The clone's own `.git`, and the mutations that reach it.

`.git` is guarded by looking at the request's text, the root by following links. So a
request reaches into `.git` that climbs out of the root and back in, or passes a link
that leads there. Going down the cleaned join one component at a time, a mutation's
location is inside `.git` exactly when some component enters it and none after that is a
link out of it (`mutate_outside_git_iff`). -/
namespace Marshal.Deploy
open FilePath

/-! ### One component down -/

namespace Disk

/-- Where an entry leads that is a link. -/
def leads (disk : Disk) (dest : List String) (c : String) : Option (List String) :=
  match disk.node (dest ++ [c]) with
  | some (.link target) => disk.walk 255 (linkBase dest target) (split target)
  | _ => none

/-- The location of an entry, through a link if it is one. -/
def down (disk : Disk) (dest : List String) (c : String) : List String :=
  (disk.leads dest c).getD (dest ++ [c])

/-- The entry is `.git`, or a link that leads into it. -/
def Enters (disk : Disk) (git dest : List String) (c : String) : Prop :=
  match disk.leads dest c with
  | some d => git <+: d
  | none => dest ++ [c] = git

/-- The entry is a link that leads to somewhere outside `.git`. -/
def Leaves (disk : Disk) (git dest : List String) (c : String) : Prop :=
  ∃ d ∈ disk.leads dest c, ¬ git <+: d

variable {disk : Disk}

theorem down_inside (git dest : List String) (c : String) :
    git <+: disk.down dest c ↔ disk.Enters git dest c ∨ git <+: dest ∧ ¬ disk.Leaves git dest c := by
  unfold down Enters Leaves
  cases disk.leads dest c with
  | some d =>
    simp only [Option.getD_some, Option.mem_def, Option.some.injEq, exists_eq_left', not_not]
    exact ⟨.inl, fun h => h.elim id And.right⟩
  | none =>
    simp only [Option.getD_none, Option.mem_def, reduceCtorEq, false_and, exists_false, not_false_eq_true,
      and_true]
    rw [List.prefix_concat_iff]
    exact or_congr_left eq_comm

theorem down_missing {dest : List String} {c : String} (h : disk.node (dest ++ [c]) = none) :
    disk.down dest c = dest ++ [c] := by
  simp [down, leads, h]

/-- One component more, resolved. -/
theorem down_of_walk {dest q : List String} {c : String} (hc : Ordinary c) {n : Nat} (hn : n ≤ 255)
    (h : disk.walk n dest [c] = some q) : disk.down dest c = q := by
  unfold down leads
  cases hnode : disk.node (dest ++ [c]) with
  | none => exact (walk_entry hc (by simp [hnode]) h).symm
  | some node =>
    cases node with
    | dir => exact (walk_entry hc (by simp [hnode]) h).symm
    | file content => exact (walk_entry hc (by simp [hnode]) h).symm
    | link target =>
      have hadv : disk.advance dest [c] = .link dest target [] := by
        simp [advance, hc.nonempty, hc.dot, hc.dotdot, hnode]
      cases n with
      | zero => simp [walk, hadv] at h
      | succ n =>
        simp only [walk, hadv, List.append_nil] at h
        have hlead := walk_mono (Nat.le_of_succ_le hn) h
        simp [hlead]

theorem EvalSymlinks_down {root realRoot cs p : List String} (hcs : ∀ c ∈ cs, Ordinary c)
    (hroot : disk.EvalSymlinks root = some realRoot) (h : disk.EvalSymlinks (root ++ cs) = some p) :
    cs.foldl disk.down realRoot = p := by
  induction cs using List.reverseRecOn generalizing p with
  | nil =>
    rw [List.append_nil, hroot, Option.some.injEq] at h
    exact h
  | append_singleton cs c ih =>
    have hc := hcs c (by simp)
    rw [← List.append_assoc] at h
    obtain ⟨r, n, hn, hr, hq⟩ := walk_snoc hc h
    have hr := ih (fun d hd => hcs d (by simp [hd])) hr
    rw [List.foldl_append, hr]
    exact down_of_walk hc hn hq

end Disk

/-! ### What a request reaches -/

variable {disk : Disk} {root realRoot p : List String} {rel : String}

/-- The components of the cleaned join below the root. -/
def below (root : List String) (rel : String) : List String := (join root rel).drop root.length

/-- On the way down `.git` is entered and not left again. -/
def ReachesGit (disk : Disk) (root realRoot : List String) (rel : String) : Prop :=
  let git := realRoot ++ [".git"]
  Crossing.Stays disk.down (disk.Enters git) (disk.Leaves git) realRoot (below root rel)

theorem join_below (h : inside root (join root rel) = true) : join root rel = root ++ below root rel := by
  obtain ⟨rest, hrest⟩ := prefix_of_inside h
  unfold below
  rw [← hrest, List.drop_left]

theorem below_clean (hroot : ∀ c ∈ root, Ordinary c) (rel : String) : ∀ c ∈ below root rel, Ordinary c :=
  fun c hc => join_clean hroot rel c (List.mem_of_mem_drop hc)

theorem confine_down (hroot : ∀ c ∈ root, Ordinary c) (hreal : disk.EvalSymlinks root = some realRoot)
    (h : confine disk root rel = .ok p) : (below root rel).foldl disk.down realRoot = p := by
  obtain ⟨-, -, hfull, hinside, -⟩ := confine_ok h
  rw [join_below hinside] at hfull
  exact Disk.EvalSymlinks_down (below_clean hroot rel) hreal hfull

theorem foldl_down_missing {dest tail : List String}
    (h : ∀ before c after, tail = before ++ c :: after → disk.node (dest ++ before ++ [c]) = none) :
    tail.foldl disk.down dest = dest ++ tail := by
  induction tail generalizing dest with
  | nil => rw [List.append_nil]; rfl
  | cons c tail ih =>
    have hc : disk.node (dest ++ [c]) = none := by simpa using h [] c tail rfl
    rw [List.foldl_cons, Disk.down_missing hc, ih]
    · simp
    · intro before d after hsplit
      have hd := h (c :: before) d after (by rw [hsplit, List.cons_append])
      simpa using hd

theorem confineNew_down (hroot : ∀ c ∈ root, Ordinary c) (htruth : disk.Truthful)
    (hreal : disk.EvalSymlinks root = some realRoot) (h : confineNew disk root rel = .ok p) :
    (below root rel).foldl disk.down realRoot = p := by
  obtain ⟨realRoot', anc, tail, realAnc, hsplit⟩ := confineNew_split hroot htruth h
  obtain ⟨cs, rfl⟩ := hsplit.below
  have hbelow : below root rel = cs ++ tail := by
    unfold below
    rw [← hsplit.path, List.append_assoc, List.drop_left]
  have hcs : ∀ c ∈ cs, Ordinary c := by
    intro c hc
    refine below_clean hroot rel c ?_
    rw [hbelow]
    exact List.mem_append_left _ hc
  rw [hbelow, List.foldl_append, Disk.EvalSymlinks_down hcs hreal hsplit.anc,
    foldl_down_missing hsplit.missing, hsplit.result]

theorem git_iff_reaches (hdown : (below root rel).foldl disk.down realRoot = p) :
    realRoot ++ [".git"] <+: p ↔ ReachesGit disk root realRoot rel := by
  have hout : ¬ realRoot ++ [".git"] <+: realRoot := by
    intro hpre
    have hlen := hpre.length_le
    rw [List.length_append, List.length_singleton] at hlen
    omega
  rw [← hdown]
  exact @Crossing.foldl_inside_iff _ _ disk.down (fun q => realRoot ++ [".git"] <+: q) _ _
    (Disk.down_inside _) _ hout _

/-! ### The mutations -/

/-- The paths a mutation is asked to touch. -/
def asked (kind : CommitKind) (rel newRel : String) : List String :=
  if kind = .rename then [rel, newRel] else [rel]

/-- Inside the real root, and neither in its `.git` nor through it. -/
def Outside (realRoot p : List String) : Prop :=
  realRoot <+: p ∧ ∀ q, q <+: p → ¬ realRoot ++ [".git"] <+: q

theorem outside_iff : Outside realRoot p ↔ realRoot <+: p ∧ ¬ realRoot ++ [".git"] <+: p :=
  and_congr_right fun _ => ⟨fun h => h p (List.prefix_refl p), fun h _ hq hgit => h (hgit.trans hq)⟩

/-- Each location is where one of the asked paths leads, and each of these has one. -/
theorem mutate_down {kind : CommitKind} {newRel : String} {ps : List (List String)}
    (hroot : ∀ c ∈ root, Ordinary c) (htruth : disk.Truthful)
    (hreal : disk.EvalSymlinks root = some realRoot) (h : mutate disk root kind rel newRel = .ok ps) :
    ps = (asked kind rel newRel).map fun s => (below root s).foldl disk.down realRoot := by
  unfold mutate at h
  split at h
  · cases h
  · cases kind with
    | edit | delete =>
      cases hconfine : confine disk root rel with
      | error text => simp [hconfine, Except.map] at h
      | ok full =>
        simp only [hconfine, Except.map, Except.ok.injEq] at h
        simp [asked, ← h, confine_down hroot hreal hconfine]
    | create =>
      cases hconfine : confineNew disk root rel with
      | error text => simp [hconfine, Except.map] at h
      | ok full =>
        simp only [hconfine, Except.map, Except.ok.injEq] at h
        simp [asked, ← h, confineNew_down hroot htruth hreal hconfine]
    | rename =>
      cases hold : confine disk root rel with
      | error text => simp [hold, Bind.bind, Except.bind] at h
      | ok old =>
        cases hnew : confineNew disk root newRel with
        | error text => simp [hold, hnew, Bind.bind, Except.bind] at h
        | ok full =>
          simp only [hold, hnew, Bind.bind, Except.bind, Pure.pure, Except.pure, Except.ok.injEq] at h
          simp [asked, ← h, confine_down hroot hreal hold, confineNew_down hroot htruth hreal hnew]
    | other n => cases h

/-- **A mutation that comes to its file operations touches only what is inside the root and outside
its `.git` exactly if none of the paths it is asked for reaches into `.git` on the way down.** -/
theorem mutate_outside_git_iff (disk : Disk) (root : CleanPath) (kind : CommitKind)
    (rel newRel : String) (ps : List (List String)) (realRoot : List String) (htruth : disk.Truthful)
    (hreal : disk.EvalSymlinks root = some realRoot)
    (h : mutate disk root kind rel newRel = .ok ps) :
    (∀ p ∈ ps, Outside realRoot p) ↔
      ∀ s ∈ asked kind rel newRel, ¬ ReachesGit disk root realRoot s := by
  have hdown := mutate_down root.2 htruth hreal h
  have hpre : ∀ p ∈ ps, realRoot <+: p := by
    intro p hp
    obtain ⟨realRoot', hreal', hpre⟩ := mutate_prefix h hp
    obtain rfl := Option.some.inj (hreal.symm.trans hreal')
    exact hpre
  constructor
  · intro hout s hs hreaches
    have hp : (below root s).foldl disk.down realRoot ∈ ps := hdown ▸ List.mem_map_of_mem hs
    exact (outside_iff.mp (hout _ hp)).2 ((git_iff_reaches rfl).mpr hreaches)
  · intro hclear p hp
    refine outside_iff.mpr ⟨hpre p hp, fun hgit => ?_⟩
    rw [hdown] at hp
    obtain ⟨s, hs, hlocation⟩ := List.mem_map.mp hp
    exact hclear s hs ((git_iff_reaches hlocation).mp hgit)

/-- A clone of one file; further leaves are given. -/
def clone (more : List (List String × Node)) : Disk :=
  Disk.ofLeaves (more ++ [(["srv", "app", ".git", "config"], .file []),
    (["srv", "app", "src", "a.js"], .file [])])

/-- The repository's own settings are written by a request that climbs out and back in, and a hook is
made by one that passes a link. -/
theorem mutate_reaches_git :
    (mutate (clone []) ["srv", "app"] .edit "../app/.git/config" "" =
        .ok [["srv", "app", ".git", "config"]] ∧
      ¬ Outside ["srv", "app"] ["srv", "app", ".git", "config"]) ∧
    (mutate (clone [(["srv", "app", "x"], .link ".git")]) ["srv", "app"] .create "x/hooks/pre-push" "" =
        .ok [["srv", "app", ".git", "hooks", "pre-push"]] ∧
      ¬ Outside ["srv", "app"] ["srv", "app", ".git", "hooks", "pre-push"]) := by
  refine ⟨⟨by decide, fun h => ?_⟩, ⟨by decide, fun h => ?_⟩⟩
  · exact h.2 _ (List.prefix_refl _) ⟨["config"], rfl⟩
  · exact h.2 _ (List.prefix_refl _) ⟨["hooks", "pre-push"], rfl⟩

theorem mutate_outside_git_rename :
    mutate (clone []) ["srv", "app"] .rename "src/a.js" "lib/a.js" =
      .ok [["srv", "app", "src", "a.js"], ["srv", "app", "lib", "a.js"]] ∧
    ((∀ p ∈ [["srv", "app", "src", "a.js"], ["srv", "app", "lib", "a.js"]],
        Outside ["srv", "app"] p) ↔
      ∀ s ∈ asked .rename "src/a.js" "lib/a.js",
        ¬ ReachesGit (clone []) ["srv", "app"] ["srv", "app"] s) :=
  have hlinkless : ∀ q target, (clone []).node q ≠ some (.link target) :=
    Disk.ofLeaves_linkless (by simp)
  ⟨by decide, mutate_outside_git_iff (clone []) ⟨["srv", "app"], by decide⟩ .rename "src/a.js"
    "lib/a.js" _ _ (Disk.truthful_of_linkless hlinkless) (by decide) (by decide)⟩

end Marshal.Deploy
