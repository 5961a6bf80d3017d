import Marshal.Deploy.Browse

/-! What a request is confined to.

`confine` gives a location inside the real root. `confineNew` gives one inside it that
exists, and below that components that do not exist; it finds them by walking up from
the path until one exists, at the root at the latest (`confine_sound`). -/
namespace Marshal.Deploy
open FilePath

/-! ### Real locations -/

namespace Disk

/-- The location exists and no link is on the way to it. The file system's root always exists. -/
structure Real (disk : Disk) (p : List String) : Prop where
  there : p = [] ∨ disk.node p ≠ none
  linkless : ∀ q, q ≠ [] → q <+: p → ∀ target, disk.node q ≠ some (.link target)

variable {disk : Disk} {p : List String}

theorem node_none_append (h : disk.node p = none) (rest : List String) :
    disk.node (p ++ rest) = none := by
  induction rest using List.reverseRecOn with
  | nil => rwa [List.append_nil]
  | append_singleton rest c ih =>
    by_contra hsome
    rw [← List.append_assoc] at hsome
    rw [disk.parents _ c hsome] at ih
    cases ih

theorem node_parent {q : List String} (hp : disk.node p ≠ none) (hq : q <+: p) (hne : q ≠ p) :
    disk.node q = some .dir := by
  obtain ⟨rest, rfl⟩ := hq
  cases rest with
  | nil => exact absurd (List.append_nil q).symm hne
  | cons c rest =>
    refine disk.parents q c fun hnone => hp ?_
    have hbelow := node_none_append hnone rest
    rwa [List.append_assoc] at hbelow

theorem real_nil : Real disk [] := ⟨.inl rfl, fun _ hq hpre => absurd (List.prefix_nil.mp hpre) hq⟩

theorem real_of_node {node : Node} (h : disk.node p = some node)
    (hlink : ∀ target, node ≠ .link target) : Real disk p := by
  have hthere : disk.node p ≠ none := by simp [h]
  refine ⟨.inr hthere, fun q _ hpre target htarget => ?_⟩
  by_cases hq : q = p
  · rw [hq, h, Option.some.injEq] at htarget
    exact hlink target htarget
  · rw [node_parent hthere hpre hq] at htarget
    cases htarget

theorem Real.dropLast (h : Real disk p) : Real disk p.dropLast := by
  refine ⟨?_, fun q hq hpre => h.linkless q hq (hpre.trans p.dropLast_prefix)⟩
  rcases h.there with rfl | hthere
  · exact .inl rfl
  · by_cases hp : p = []
    · exact .inl (by rw [hp]; rfl)
    · right
      have hne : p.dropLast ≠ p := by
        intro heq
        have hlen := congrArg List.length heq
        have hpos := List.length_pos_iff.mpr hp
        rw [List.length_dropLast] at hlen
        omega
      simp [node_parent hthere p.dropLast_prefix hne]

/-- Whatever a walk comes to without following a link is real. -/
theorem advance_real {dest todo : List String} (h : Real disk dest) :
    (∀ q, disk.advance dest todo = .done q → Real disk q) ∧
    (∀ d target rest, disk.advance dest todo = .link d target rest → Real disk d) := by
  induction todo generalizing dest with
  | nil =>
    refine ⟨?_, by simp [advance]⟩
    rintro q hq
    cases hq
    exact h
  | cons c rest ih =>
    unfold advance
    split
    · exact ih h
    · split
      · exact ih h.dropLast
      · split
        · exact ⟨by simp, by simp⟩
        · rename_i hnode
          exact ih (real_of_node hnode (by simp))
        · rename_i content hnode
          split
          · refine ⟨?_, by simp⟩
            rintro q hq
            cases hq
            exact real_of_node hnode (by simp)
          · exact ⟨by simp, by simp⟩
        · refine ⟨by simp, ?_⟩
          rintro d target' rest' hq
          cases hq
          exact h

theorem walk_real {limit : Nat} {dest todo : List String} (h : Real disk dest)
    (hwalk : disk.walk limit dest todo = some p) : Real disk p := by
  induction limit generalizing dest todo with
  | zero =>
    unfold walk at hwalk
    split at hwalk
    · rename_i hdone
      cases hwalk
      exact (advance_real h).1 _ hdone
    · cases hwalk
    · cases hwalk
  | succ limit ih =>
    unfold walk at hwalk
    split at hwalk
    · rename_i hdone
      cases hwalk
      exact (advance_real h).1 _ hdone
    · cases hwalk
    · rename_i d target rest hlink
      refine ih ?_ hwalk
      unfold linkBase
      split
      · exact real_nil
      · exact (advance_real h).2 d target rest hlink

theorem EvalSymlinks_real {q : List String} (h : disk.EvalSymlinks p = some q) : Real disk q :=
  walk_real real_nil h

/-- `Lstat` finds what is in a directory that `EvalSymlinks` can follow, however many links lead
there. -/
def Truthful (disk : Disk) : Prop :=
  ∀ (p : List String) (c : String) (q : List String), (∀ d ∈ p, Ordinary d) → Ordinary c →
    disk.EvalSymlinks p = some q → disk.Lstat (p ++ [c]) = disk.node (q ++ [c])

theorem advance_linkless (h : ∀ q target, disk.node q ≠ some (.link target)) (dest todo : List String) :
    ∀ d target rest, disk.advance dest todo ≠ .link d target rest := by
  induction todo generalizing dest with
  | nil => simp [advance]
  | cons c rest ih =>
    unfold advance
    split
    · exact ih dest
    · split
      · exact ih dest.dropLast
      · split
        · simp
        · exact ih _
        · split <;> simp
        · rename_i hnode
          exact absurd hnode (h _ _)

/-- Without links nothing but the directories on the way matters. -/
theorem truthful_of_linkless (h : ∀ q target, disk.node q ≠ some (.link target)) : disk.Truthful := by
  intro p c q _ _ hq
  have hdone := advance_of_walk (advance_linkless h [] p) hq
  have hlocate : disk.locate (p ++ [c]) = some (q ++ [c]) := by
    simp [locate, resolve, walk_done hdone]
  simp only [Lstat, hlocate, Option.bind_some]

theorem ofLeaves_linkless {leaves : List (List String × Node)}
    (h : ∀ e ∈ leaves, e.2 = .dir ∨ ∃ content, e.2 = .file content) (q : List String)
    (target : String) : (ofLeaves leaves).node q ≠ some (.link target) := by
  show (if _ then some Node.dir else Option.map Prod.snd _) ≠ _
  split
  · simp
  · intro hlink
    obtain ⟨e, hfind, hnode⟩ := Option.map_eq_some_iff.mp hlink
    rcases h e (List.mem_of_find?_eq_some hfind) with hdir | ⟨content, hfile⟩
    · rw [hdir] at hnode
      cases hnode
    · rw [hfile] at hnode
      cases hnode

theorem ofDirs_linkless (ps : List (List String)) (q : List String) (target : String) :
    (ofDirs ps).node q ≠ some (.link target) := by
  show (if _ then some Node.dir else none) ≠ _
  split <;> simp

end Disk

/-! ### The walk up -/

/-- One turn of the walk: the parent, and the components left behind; none where it ends, at the file
system's root at the latest (which is its own parent, and an empty component of the result). -/
def climb (disk : Disk) (root : List String) :
    List String × List String → Option (List String × List String)
  | (anc, tail) =>
    if anc = root ∨ (disk.Lstat anc).isSome then none
    else anc.getLast?.map fun c => (anc.dropLast, c :: tail)

/-- So many turns, or fewer where it ends. -/
def climbs (disk : Disk) (root : List String) :
    Nat → List String × List String → List String × List String
  | 0, s => s
  | n + 1, s => match climb disk root s with
    | none => s
    | some s' => climbs disk root n s'

variable {disk : Disk} {root : List String}

theorem climb_length {s s' : List String × List String} (h : climb disk root s = some s') :
    s'.1.length + 1 = s.1.length := by
  obtain ⟨anc, tail⟩ := s
  simp only [climb] at h
  split at h
  · cases h
  · rw [Option.map_eq_some_iff] at h
    obtain ⟨c, hc, rfl⟩ := h
    obtain ⟨q, rfl⟩ := List.getLast?_eq_some_iff.mp hc
    simp

/-- The walk has ended after as many turns as the path has components. -/
theorem climbs_ends {n : Nat} {s : List String × List String} (h : s.1.length ≤ n) :
    climb disk root (climbs disk root n s) = none := by
  induction n generalizing s with
  | zero =>
    obtain ⟨anc, tail⟩ := s
    obtain rfl : anc = [] := List.length_eq_zero_iff.mp (Nat.le_zero.mp h)
    simp [climbs, climb]
  | succ n ih =>
    unfold climbs
    cases hclimb : climb disk root s with
    | none => exact hclimb
    | some s' =>
      have hlen := climb_length hclimb
      exact ih (by omega)

theorem climbs_ancestor {n : Nat} {up tail : List String} (h : up.length ≤ n) :
    climbs disk root n (up.reverse, tail) = ancestor disk root up tail := by
  induction n generalizing up tail with
  | zero =>
    obtain rfl : up = [] := List.length_eq_zero_iff.mp (Nat.le_zero.mp h)
    rfl
  | succ n ih =>
    cases up with
    | nil => simp [climbs, climb, ancestor]
    | cons c up =>
      have hclimb : climb disk root (up.reverse ++ [c], tail) =
          if up.reverse ++ [c] = root ∨ (disk.Lstat (up.reverse ++ [c])).isSome then none
          else some (up.reverse, c :: tail) := by
        simp [climb]
      unfold climbs ancestor
      rw [List.reverse_cons, hclimb]
      by_cases hstop : up.reverse ++ [c] = root ∨ (disk.Lstat (up.reverse ++ [c])).isSome
      · rw [if_pos hstop, if_pos hstop]
      · rw [if_neg hstop, if_neg hstop]
        exact ih (by simpa using h)

/-- The walk stays on the path, and what it left behind last is not there. -/
theorem ancestor_spec {up tail anc tail' : List String}
    (h : ancestor disk root up tail = (anc, tail')) :
    anc ++ tail' = up.reverse ++ tail ∧
      (tail' = tail ∨ ∃ c rest, tail' = c :: rest ∧ disk.Lstat (anc ++ [c]) = none) := by
  induction up generalizing tail with
  | nil =>
    cases h
    exact ⟨rfl, .inl rfl⟩
  | cons c up ih =>
    unfold ancestor at h
    split at h
    · cases h
      exact ⟨rfl, .inl rfl⟩
    · rename_i hstop
      rw [not_or, Option.not_isSome_iff_eq_none] at hstop
      obtain ⟨hpath, hlast⟩ := ih h
      refine ⟨by simpa using hpath, .inr ?_⟩
      rcases hlast with rfl | hmore
      · have hanc : anc = up.reverse := (List.append_left_inj _).mp hpath
        refine ⟨c, tail, rfl, ?_⟩
        rw [hanc, ← List.reverse_cons]
        exact hstop.2
      · exact hmore

/-! ### Soundness -/

/-- The location is the real root, or its path is the real root's, a separator and more. -/
def Within (realRoot p : List String) : Prop := p = realRoot ∨ text realRoot ++ ['/'] <+: text p

theorem within_of_inside {realRoot p : List String} (h : inside realRoot p = true) : Within realRoot p := by
  rw [inside, Bool.or_eq_true, beq_iff_eq] at h
  rcases h with rfl | h
  · exact .inl rfl
  · obtain ⟨hne, ⟨rest, rfl⟩, hrest⟩ := under_iff.mp h
    right
    cases rest with
    | nil => exact absurd (List.append_nil _).symm hrest
    | cons c rest =>
      refine ⟨c.toList ++ slashed rest, ?_⟩
      simp [text, hne, slashed]

/-- What `confineNew` gives: a real location within the root, and components that are not there. -/
def NewWithin (disk : Disk) (realRoot p : List String) : Prop :=
  ∃ realAnc tail, p = realAnc ++ tail ∧ Within realRoot realAnc ∧ disk.Real realAnc ∧
    (∀ before c after, tail = before ++ c :: after → disk.node (realAnc ++ before ++ [c]) = none) ∧
    ".." ∉ tail

theorem confine_within {rel : String} {p : List String} (h : confine disk root rel = .ok p) :
    ∃ realRoot, disk.EvalSymlinks root = some realRoot ∧ Within realRoot p := by
  obtain ⟨realRoot, hroot, -, -, hinside⟩ := confine_ok h
  exact ⟨realRoot, hroot, within_of_inside hinside⟩

/-- The walk up does not go above the root. -/
theorem ancestor_root {up tail anc tail' : List String} (hroot : root <+: up.reverse)
    (h : ancestor disk root up tail = (anc, tail')) : root <+: anc := by
  induction up generalizing tail with
  | nil =>
    cases h
    exact hroot
  | cons c up ih =>
    unfold ancestor at h
    split at h
    · cases h
      exact hroot
    · rename_i hstop
      rw [List.reverse_cons] at hroot hstop
      rcases List.prefix_concat_iff.mp hroot with heq | hpre
      · exact absurd (.inl heq.symm) hstop
      · exact ih hpre h

/-- A path as `confineNew` splits it: an ancestor from the root on that it resolves, and below that
components that are not there. -/
structure Split (disk : Disk) (root full realRoot p anc tail realAnc : List String) : Prop where
  path : anc ++ tail = full
  below : root <+: anc
  root : disk.EvalSymlinks root = some realRoot
  anc : disk.EvalSymlinks anc = some realAnc
  result : p = realAnc ++ tail
  inside : inside realRoot realAnc = true
  missing : ∀ before c after, tail = before ++ c :: after → disk.node (realAnc ++ before ++ [c]) = none

theorem confineNew_split (hroot : ∀ c ∈ root, Ordinary c) (htruth : disk.Truthful) {rel : String}
    {p : List String} (h : confineNew disk root rel = .ok p) :
    ∃ realRoot anc tail realAnc, Split disk root (join root rel) realRoot p anc tail realAnc := by
  unfold confineNew at h
  split at h
  · cases h
  · split at h
    · cases h
    · rename_i hlexical
      obtain ⟨anc, tail, hwalk⟩ : ∃ anc tail,
          ancestor disk root (join root rel).reverse [] = (anc, tail) := ⟨_, _, rfl⟩
      rw [hwalk] at h
      simp only at h
      split at h
      · cases h
      · cases h
      · rename_i realRoot realAnc hreal hanc
        split at h <;> cases h
        rename_i hinside
        obtain ⟨hpath, hlast⟩ := ancestor_spec hwalk
        rw [List.reverse_reverse, List.append_nil] at hpath
        have hclean : ∀ c ∈ anc ++ tail, Ordinary c := hpath ▸ join_clean hroot rel
        have hbelow : root <+: anc := by
          refine ancestor_root ?_ hwalk
          rw [List.reverse_reverse]
          exact prefix_of_inside (by simpa using hlexical)
        refine ⟨realRoot, anc, tail, realAnc, hpath, hbelow, hreal, hanc, rfl, hinside, ?_⟩
        rcases hlast with rfl | ⟨c, rest, rfl, hgone⟩
        · simp
        · have hgone : disk.node (realAnc ++ [c]) = none := by
            rw [← htruth anc c realAnc (fun d hd => hclean d (by simp [hd])) (hclean c (by simp)) hanc]
            exact hgone
          intro before d after hsplit
          cases before with
          | nil =>
            obtain ⟨rfl, -⟩ := List.cons.inj hsplit
            rwa [List.append_nil]
          | cons e before =>
            obtain ⟨rfl, -⟩ := List.cons.inj hsplit
            have hdown := Disk.node_none_append hgone (before ++ [d])
            simpa using hdown

theorem confineNew_within (hroot : ∀ c ∈ root, Ordinary c) (htruth : disk.Truthful) {rel : String}
    {p : List String} (h : confineNew disk root rel = .ok p) :
    ∃ realRoot, disk.EvalSymlinks root = some realRoot ∧ NewWithin disk realRoot p := by
  obtain ⟨realRoot, anc, tail, realAnc, hsplit⟩ := confineNew_split hroot htruth h
  refine ⟨realRoot, hsplit.root, realAnc, tail, hsplit.result, within_of_inside hsplit.inside,
    Disk.EvalSymlinks_real hsplit.anc, hsplit.missing, fun hdots => ?_⟩
  have hclean : ∀ c ∈ anc ++ tail, Ordinary c := hsplit.path ▸ join_clean hroot rel
  exact (hclean ".." (by simp [hdots])).dotdot rfl

/-- **`confine` and `confineNew` are sound, for every file system: what `confine` gives is the real
root or under it; what `confineNew` gives is a real location that is the real root or under it, and
below it components that do not exist, none of them `..`; an absolute path and one that leaves the
root are rejected; and the walk up ends after at most one turn for each component.** -/
theorem confine_sound (disk : Disk) (root : CleanPath) (htruth : disk.Truthful) (rel : String) :
    (∀ p, confine disk root rel = .ok p →
      ∃ realRoot, disk.EvalSymlinks root = some realRoot ∧ Within realRoot p) ∧
    (∀ p, confineNew disk root rel = .ok p →
      ∃ realRoot, disk.EvalSymlinks root = some realRoot ∧ NewWithin disk realRoot p) ∧
    (IsAbs rel = true ∨ ¬ (join root rel = root ∨ text root ++ ['/'] <+: text (join root rel)) →
      (∃ e, confine disk root rel = .error e) ∧ ∃ e, confineNew disk root rel = .error e) ∧
    (∀ p tail, ∃ n ≤ p.length, climb disk root (climbs disk root n (p, tail)) = none ∧
      climbs disk root n (p, tail) = ancestor disk root p.reverse tail) := by
  refine ⟨fun p => confine_within, fun p => confineNew_within root.2 htruth, ?_, fun p tail => ?_⟩
  · intro hbad
    unfold confine confineNew
    cases habs : IsAbs rel with
    | true => simp
    | false =>
      have hout : ¬ (join root rel = root ∨ text root ++ ['/'] <+: text (join root rel)) :=
        hbad.resolve_left (by simp [habs])
      have houtside : inside root (join root rel) = false := by
        by_contra hin
        exact hout (within_of_inside (by simpa using hin))
      simp [houtside]
  · refine ⟨p.length, Nat.le_refl _, climbs_ends (Nat.le_refl _), ?_⟩
    have h := @climbs_ancestor disk root p.length p.reverse tail (by simp)
    rwa [List.reverse_reverse] at h

/-- A directory in the deployment and a file that is not there, two levels further down. -/
theorem confine_sound_new :
    let disk := Disk.ofDirs [["srv", "app", "src"]]
    let root : CleanPath := ⟨["srv", "app"], by decide⟩
    confineNew disk root "src/lib/a.js" = .ok ["srv", "app", "src", "lib", "a.js"] ∧
    (∃ realRoot, disk.EvalSymlinks root = some realRoot ∧
      NewWithin disk realRoot ["srv", "app", "src", "lib", "a.js"]) ∧
    ∃ e, confine disk root "../app2/a.js" = .error e :=
  have htruth := Disk.truthful_of_linkless (Disk.ofDirs_linkless [["srv", "app", "src"]])
  ⟨by decide, (confine_sound _ ⟨["srv", "app"], by decide⟩ htruth "src/lib/a.js").2.1 _ (by decide),
    ((confine_sound _ ⟨["srv", "app"], by decide⟩ htruth "../app2/a.js").2.2.1 (by decide)).1⟩

end Marshal.Deploy
