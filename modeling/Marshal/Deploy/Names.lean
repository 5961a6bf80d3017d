import Marshal.Deploy.Deployer

/-! Which names stay in their deployment.

`Forget` and `Root` join the name to the deploy root without looking at its
components. The join is a directory of the deploy root exactly for the names that
descend by one component in the end (`LeadsToChild`); for every other name a
deletion takes away the deploy root, something above it or something inside another
deployment. -/
namespace Marshal.Deploy
open FilePath

namespace Disk

theorem remove_node (disk : Disk) (q p : List String) :
    (disk.remove q).node p = if q <+: p then none else disk.node p := rfl

/-- What is above something is there too. -/
theorem node_of_prefix {disk : Disk} {p q : List String} (hp : disk.node p ≠ none) (hq : q <+: p) :
    disk.node q ≠ none := by
  obtain ⟨rest, rfl⟩ := hq
  induction rest using List.reverseRecOn with
  | nil => simpa using hp
  | append_singleton rest c ih =>
    apply ih
    rw [← List.append_assoc] at hp
    rw [disk.parents _ c hp]
    simp

/-- A removal of something that is there is a removal of nothing else. -/
theorem eq_of_remove_eq {disk : Disk} {p q : List String} (hp : disk.node p ≠ none)
    (h : disk.remove p = disk.remove q) : p = q := by
  have hnode : ∀ r, (disk.remove p).node r = (disk.remove q).node r := fun r => by rw [h]
  have hqp : q <+: p := by
    have := hnode p
    rw [remove_node, remove_node, if_pos (List.prefix_refl p)] at this
    by_contra hnot
    rw [if_neg hnot] at this
    exact hp this.symm
  have hpq : p <+: q := by
    have := hnode q
    rw [remove_node, remove_node, if_pos (List.prefix_refl q)] at this
    by_contra hnot
    rw [if_neg hnot] at this
    exact node_of_prefix hp hqp this
  exact hpq.eq_of_length_le hqp.length_le

theorem remove_ne {disk : Disk} {q : List String} (hq : disk.node q ≠ none) :
    disk.remove q ≠ disk := by
  intro h
  have hnode : (disk.remove q).node q = disk.node q := by rw [h]
  rw [remove_node, if_pos (List.prefix_refl q)] at hnode
  exact hq hnode.symm

/-! ### Directories only -/

theorem ofDirs_node {ps : List (List String)} {p q : List String} (hq : q ∈ ps) (h : p <+: q) :
    (ofDirs ps).node p = some .dir :=
  if_pos (List.any_eq_true.mpr ⟨q, hq, List.isPrefixOf_iff_prefix.mpr h⟩)

theorem ofDirs_link (ps : List (List String)) (p : List String) (target : String) :
    (ofDirs ps).node p ≠ some (.link target) := by
  show (if _ then some Node.dir else none) ≠ _
  split <;> simp

/-- A walk over directories ends where it goes. -/
theorem advance_dirs {disk : Disk} {dest todo : List String} (hclean : ∀ c ∈ todo, Ordinary c)
    (h : ∀ p, p <+: dest ++ todo → disk.node p = some .dir) :
    disk.advance dest todo = .done (dest ++ todo) := by
  induction todo generalizing dest with
  | nil => simp [advance]
  | cons c rest ih =>
    have hc := hclean c List.mem_cons_self
    have happend : dest ++ [c] ++ rest = dest ++ c :: rest := by simp
    have hnode : disk.node (dest ++ [c]) = some .dir := by
      apply h
      rw [← happend]
      exact List.prefix_append _ _
    simp only [advance, hc.nonempty, hc.dot, hc.dotdot, or_self, if_false, hnode]
    rw [ih (fun d hd => hclean d (List.mem_cons_of_mem c hd)) (by rw [happend]; exact h), happend]

theorem resolve_ofDirs {ps : List (List String)} {p : List String} (hclean : ∀ c ∈ p, Ordinary c)
    (hp : p ∈ ps) : (ofDirs ps).resolve p = some p :=
  walk_done (advance_dirs hclean fun _ hq => ofDirs_node hp (by simpa using hq)) _

theorem resolve_ofDirs_dropLast {ps : List (List String)} {p : List String}
    (hclean : ∀ c ∈ p, Ordinary c) (hp : p ∈ ps) :
    (ofDirs ps).resolve p.dropLast = some p.dropLast := by
  refine walk_done (advance_dirs (fun c hc => hclean c (List.mem_of_mem_dropLast hc)) ?_) _
  intro q hq
  exact ofDirs_node hp ((show q <+: p.dropLast by simpa using hq).trans (List.dropLast_prefix p))

theorem locate_ofDirs {ps : List (List String)} {p : List String} (hclean : ∀ c ∈ p, Ordinary c)
    (hp : p ∈ ps) : (ofDirs ps).locate p = some p := by
  unfold locate
  cases hlast : p.getLast? with
  | none =>
    rw [List.getLast?_eq_none_iff] at hlast
    rw [hlast]
  | some c =>
    simp only [resolve_ofDirs_dropLast hclean hp, Option.map_some, Option.some.injEq]
    exact List.dropLast_append_getLast? c hlast

end Disk

/-! ### Names -/

/-- The name descends by one component in the end: it is one component, up to `.`, cancelled
components and repeated separators, or it climbs out of the deploy root, spells the way back and
adds one component. -/
def LeadsToChild (root : CleanPath) (name : String) : Prop :=
  ∃ c, (relative name).2 = root.1.drop (root.1.length - (relative name).1) ++ [c]

theorem leadsToChild_iff {root : CleanPath} {name : String} :
    LeadsToChild root name ↔ ∃ c, Ordinary c ∧ join root.1 name = root.1 ++ [c] := by
  constructor
  · intro h
    obtain ⟨c, hc⟩ := h
    have hjoin := (join_eq_append root.1 name c).mpr hc
    refine ⟨c, join_clean root.2 name c ?_, hjoin⟩
    simp [hjoin]
  · intro h
    obtain ⟨c, -, hjoin⟩ := h
    exact ⟨c, (join_eq_append root.1 name c).mp hjoin⟩

namespace Deployer

/-- The entries of the deploy root are no links; `git clone` makes directories. -/
def Cloned (d : Deployer) : Prop :=
  ∀ p c target, d.disk.EvalSymlinks d.deployRoot.1 = some p → Ordinary c →
    d.disk.node (p ++ [c]) ≠ some (.link target)

/-- The name stays in its deployment. -/
structure Confined (d : Deployer) (name : String) : Prop where
  /-- A deletion removes nothing, or one entry of the deploy root with what is below it. -/
  forget : (d.Forget name).1.disk = d.disk ∨ ∃ p c, Ordinary c ∧
    d.disk.resolve d.deployRoot.1 = some p ∧ (d.Forget name).1.disk = d.disk.remove (p ++ [c])
  /-- A known deployment's directory is an entry of the deploy root. -/
  root : ∀ dir, d.Root name = some dir → ∃ c, Ordinary c ∧ dir = d.deployRoot.1 ++ [c]
  /-- What a request reads or changes is in the deployment the name leads to. -/
  files : ∀ (gitSourced : String → Bool) (req : FileRequest) (ps : List (List String)),
    req.app = name → d.reaches gitSourced req = .ok ps → ∀ p ∈ ps, ∃ r c, Ordinary c ∧
      d.Root name = some (d.deployRoot.1 ++ [c]) ∧
      d.disk.EvalSymlinks d.deployRoot.1 = some r ∧ r ++ [c] <+: p

theorem Root_dir {d : Deployer} {name : String} {dir : List String} (h : d.Root name = some dir) :
    dir = d.dir name := by
  unfold Root at h
  split at h
  · cases h
  · split at h <;> cases h
    rfl

/-- A request reaches what is below the real path of the root it is given. -/
theorem prefix_of_reaches {d : Deployer} {gitSourced : String → Bool} {req : FileRequest}
    {ps : List (List String)} (h : d.reaches gitSourced req = .ok ps) {p : List String}
    (hp : p ∈ ps) : ∃ dir realDir, d.Root req.app = some dir ∧
      d.disk.EvalSymlinks dir = some realDir ∧ realDir <+: p := by
  cases req with
  | listDir app path | readFile app path =>
    simp only [reaches] at h
    split at h
    · cases h
    · rename_i dir hroot
      cases hconfine : confine d.disk dir path with
      | error text => simp [hconfine, Except.map] at h
      | ok full =>
        simp only [hconfine, Except.map, Except.ok.injEq] at h
        subst h
        rw [List.mem_singleton.mp hp]
        obtain ⟨realDir, hreal, hpre⟩ := confine_prefix hconfine
        exact ⟨dir, realDir, hroot, hreal, hpre⟩
  | commit app kind path newPath =>
    simp only [reaches] at h
    split at h
    · cases h
    · split at h
      · cases h
      · rename_i dir hroot
        split at h
        · cases h
        · obtain ⟨realDir, hreal, hpre⟩ := mutate_prefix h hp
          exact ⟨dir, realDir, hroot, hreal, hpre⟩

/-- A name that leads to an entry of the deploy root stays there. -/
theorem confined_of_leads {d : Deployer} {name : String} (hd : d.Cloned)
    (h : LeadsToChild d.deployRoot name) : d.Confined name := by
  obtain ⟨c, hc, hjoin⟩ := leadsToChild_iff.mp h
  refine ⟨?_, ?_, ?_⟩
  · show d.disk.RemoveAll (d.dir name) = d.disk ∨ _
    unfold Disk.RemoveAll dir
    rw [hjoin]
    cases hres : d.disk.resolve d.deployRoot.1 with
    | none => simp [Disk.locate, hres]
    | some p =>
      refine .inr ⟨p, c, hc, rfl, ?_⟩
      show d.disk.RemoveAll (d.dir name) = _
      unfold Disk.RemoveAll dir
      simp [hjoin, Disk.locate, hres]
  · intro dir hroot
    exact ⟨c, hc, (Root_dir hroot).trans hjoin⟩
  · intro gitSourced req ps happ hreaches p hp
    obtain ⟨dir, realDir, hroot, hreal, hpre⟩ := prefix_of_reaches hreaches hp
    rw [happ] at hroot
    have hdir : dir = d.deployRoot.1 ++ [c] := (Root_dir hroot).trans hjoin
    rw [hdir] at hroot hreal
    obtain ⟨r, hr, rfl⟩ := Disk.EvalSymlinks_entry hc
      (fun r target hr => hd r c target hr hc) hreal
    exact ⟨r, c, hc, hroot, hr, hpre⟩

/-- The deployer over the deploy root and one other directory. -/
def bare (root : CleanPath) (name : String) : Deployer where
  deployRoot := root
  disk := .ofDirs [root.1, join root.1 name]

theorem leads_of_confined {root : CleanPath} {name : String} (h : (bare root name).Confined name) :
    LeadsToChild root name := by
  have hclean := join_clean root.2 name
  have hmem : join root.1 name ∈ [root.1, join root.1 name] := by simp
  have hforget : ((bare root name).Forget name).1.disk =
      (bare root name).disk.remove (join root.1 name) := by
    show Disk.RemoveAll _ _ = _
    unfold Disk.RemoveAll
    rw [show (bare root name).disk.locate ((bare root name).dir name) = some (join root.1 name) from
      Disk.locate_ofDirs hclean hmem]
  have hthere : (bare root name).disk.node (join root.1 name) ≠ none := by
    rw [show (bare root name).disk.node _ = some .dir from
      Disk.ofDirs_node hmem (List.prefix_refl _)]
    simp
  rcases h.forget with hsame | ⟨p, c, hc, hres, hremove⟩
  · rw [hforget] at hsame
    exact absurd hsame (Disk.remove_ne hthere)
  · have hroot : (bare root name).disk.resolve (bare root name).deployRoot.1 = some root.1 :=
      Disk.resolve_ofDirs root.2 List.mem_cons_self
    obtain rfl : root.1 = p := Option.some.inj (hroot.symm.trans hres)
    rw [hforget] at hremove
    exact leadsToChild_iff.mpr ⟨c, hc, Disk.eq_of_remove_eq hthere hremove⟩

/-- **A name stays in its deployment exactly when it leads to an entry of the deploy root.** For
every deploy root and every name: the name is confined whatever is on the disk, as long as the
entries of the deploy root are no links, if and only if it descends by one component in the end. -/
theorem name_confined (root : CleanPath) (name : String) :
    (∀ d : Deployer, d.deployRoot = root → d.Cloned → d.Confined name) ↔ LeadsToChild root name := by
  constructor
  · intro h
    apply leads_of_confined
    exact h (bare root name) rfl fun p c target _ _ => Disk.ofDirs_link _ _ target
  · intro h d hroot hd
    apply confined_of_leads hd
    rw [hroot]
    exact h

/-- A home directory with one deployment and the list of apps. -/
def home : Deployer where
  deployRoot := homeDeploys
  disk := .ofDirs [["home", "marshal", "deploys", "web"], ["home", "marshal", "logs"]]

/-- Deleting by the empty string removes the deploy root with every deployment. -/
theorem escapes : ¬ ∀ (d : Deployer) (name : String), d.Cloned → d.Confined name := by
  intro h
  have hconf := h home "" fun p c target _ _ => Disk.ofDirs_link _ _ target
  have hgone : (home.Forget "").1.disk.node ["home", "marshal", "deploys"] = none := rfl
  rcases hconf.forget with hsame | ⟨p, c, -, hres, hremove⟩
  · rw [hsame] at hgone
    cases hgone
  · cases hres
    rw [hremove] at hgone
    cases hgone

end Deployer
end Marshal.Deploy
