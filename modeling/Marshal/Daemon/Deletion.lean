import Marshal.Daemon.Addressing
import Marshal.Daemon.Command
import Marshal.Deploy.Names

/-! What a Delete command cleans up.

The manager resolves the selector to apps, the deployer takes it for a name, and the
guard goes by the names of the deleted instances. The three agree exactly where
nothing is kept for a deleted app of another name, nothing is kept under the selector
when it names no deleted app, and no limit is set where no instance is deleted
(`Agrees`). -/
namespace Marshal.Daemon
open Config FilePath

/-! ### Valid names and selectors are ordinary components -/

theorem ordinary_of_validAppName {name : String} (h : validAppName name = true) : Ordinary name := by
  unfold validAppName at h
  split at h
  · cases h
  · rename_i c rest hlist
    obtain ⟨hc, hrest⟩ := Bool.and_eq_true_iff.mp h
    have hslash : '/' ∉ name.toList := by
      rw [hlist, List.mem_cons, not_or]
      refine ⟨?_, ?_⟩
      · rintro rfl
        exact absurd hc (by decide)
      · intro hmem
        exact absurd (List.all_eq_true.mp hrest _ hmem) (by decide)
    have hdot : c ≠ '.' := by
      rintro rfl
      exact absurd hc (by decide)
    refine ⟨?_, ?_, ?_, hslash⟩ <;> rintro rfl <;> cases hlist
    · exact hdot rfl
    · exact hdot rfl

theorem digits_all {cs : List Char} {n : Nat} (h : digits cs = some n) :
    cs ≠ [] ∧ ∀ c ∈ cs, c.isDigit = true := by
  cases cs with
  | nil => cases h
  | cons c rest =>
    simp only [digits, Option.ite_none_right_eq_some] at h
    exact ⟨by simp, List.all_eq_true.mp h.1⟩

theorem chars_of_Atoi {sel : String} {id : Int} (h : Atoi sel = some id) :
    sel.toList ≠ [] ∧ ∀ c ∈ sel.toList, c.isDigit = true ∨ c = '-' ∨ c = '+' := by
  have hsigned : ∀ (c : Char) (rest : List Char) (n : Nat), c = '-' ∨ c = '+' →
      digits rest = some n → ∀ d ∈ c :: rest, d.isDigit = true ∨ d = '-' ∨ d = '+' := by
    intro c rest n hc hn d hd
    rcases List.mem_cons.mp hd with rfl | hd
    · exact .inr hc
    · exact .inl ((digits_all hn).2 d hd)
  unfold Atoi at h
  split at h
  · rename_i rest hlist
    cases hn : digits rest with
    | none => simp [hn] at h
    | some n =>
      rw [hlist]
      exact ⟨by simp, hsigned '-' rest n (.inl rfl) hn⟩
  · rename_i rest hlist
    cases hn : digits rest with
    | none => simp [hn] at h
    | some n =>
      rw [hlist]
      exact ⟨by simp, hsigned '+' rest n (.inr rfl) hn⟩
  · cases hn : digits sel.toList with
    | none => simp [hn] at h
    | some n => exact ⟨(digits_all hn).1, fun c hc => .inl ((digits_all hn).2 c hc)⟩

/-- What reads as an integer is an ordinary component. -/
theorem ordinary_of_Atoi {sel : String} {id : Int} (h : Atoi sel = some id) : Ordinary sel := by
  obtain ⟨hne, hchars⟩ := chars_of_Atoi h
  have hdot : '.' ∉ sel.toList := fun hmem => absurd (hchars '.' hmem) (by decide)
  refine ⟨?_, ?_, ?_, fun hmem => absurd (hchars '/' hmem) (by decide)⟩
  · rintro rfl
    exact hne rfl
  · rintro rfl
    exact hdot (by decide)
  · rintro rfl
    exact hdot (by decide)

/-- A selector that matches an app is an ordinary component. -/
theorem ordinary_of_resolve {apps : List ManagedApp} {sel : String} {ps : List Nat}
    (hnames : ∀ a ∈ apps, validAppName a.name = true) (h : resolve apps sel = .ok ps) :
    Ordinary sel := by
  rcases resolve_cases h with ⟨rfl, -⟩ | ⟨p, a, -, hget, -, hid | rfl⟩
  · decide
  · exact ordinary_of_Atoi hid
  · exact ordinary_of_validAppName (hnames a (List.mem_of_getElem? hget))

/-! ### The manager's part -/

namespace Manager

/-- The answer of a deletion. -/
def deleteOutcome (m : Manager) (sel : String) : Outcome :=
  match m.removedSnaps sel with
  | .error text => .error text
  | .ok snaps => .ok snaps

/-- A deletion called in `m` is under way, with its answer at the end, or has answered. -/
structure Deleting (m : Manager) (sel : String) (t : Manager) : Prop where
  apps : t.apps = (m.call (.delete sel)).apps
  answer : (∃ todo snaps, t.running = some ⟨.delete sel, todo ++ [.answer snaps]⟩ ∧
      t.results = m.results ∧ m.deleteOutcome sel = .ok snaps ∧
      ∀ i ∈ todo, (∃ w, i = .cancel w) ∨ ∃ w, i = .wait w) ∨
    (t.running = none ∧ t.results = (.delete sel, m.deleteOutcome sel) :: m.results)

theorem deleting_call (m : Manager) (sel : String) : Deleting m sel (m.call (.delete sel)) := by
  refine ⟨rfl, ?_⟩
  cases hres : resolve m.apps sel with
  | error text =>
    refine .inr ?_
    simp only [call, Delete, hres, deleteOutcome, removedSnaps]
    exact ⟨rfl, rfl⟩
  | ok ps =>
    refine .inl ⟨stopInstances (collectInstances m.apps ps), (m.selectedApps sel).flatMap m.snapshotApp,
      ?_, ?_, ?_, ?_⟩
    · simp only [call, Delete, hres, selectedApps]
    · simp only [call, Delete, hres]
    · simp only [deleteOutcome, removedSnaps, hres]
    · intro i hi
      rcases List.mem_append.mp hi with hi | hi <;> obtain ⟨x, -, rfl⟩ := List.mem_map.mp hi
      · exact .inl ⟨_, rfl⟩
      · exact .inr ⟨_, rfl⟩

theorem deleting_step {m t u : Manager} {sel : String} {a : Action} (ht : Deleting m sel t)
    (hcall : ∀ op, a ≠ .call op) (h : t.step a = some u) : Deleting m sel u := by
  obtain ⟨happs, hanswer⟩ := ht
  cases moves_of_step h with
  | call => exact absurd rfl (hcall _)
  | cancelCtx => exact ⟨happs, hanswer⟩
  | worker hmove =>
    rw [hmove.eq]
    exact ⟨happs, hanswer⟩
  | exec hrun hexec =>
    rcases hanswer with ⟨todo, snaps, hrun', hresults, hout, hstop⟩ | ⟨hidle, -⟩
    · rw [hrun'] at hrun
      cases todo with
      | nil =>
        cases hrun
        cases hexec
        refine ⟨happs, .inr ⟨rfl, ?_⟩⟩
        rw [hout, ← hresults]
        rfl
      | cons i rest =>
        have hrest : ∀ j ∈ rest, (∃ w, j = Instr.cancel w) ∨ ∃ w, j = .wait w :=
          fun j hj => hstop j (List.mem_cons_of_mem i hj)
        cases hrun
        rcases hstop i List.mem_cons_self with ⟨w, rfl⟩ | ⟨w, rfl⟩
        · cases hexec
          exact ⟨happs, .inl ⟨rest, snaps, rfl, hresults, hout, hrest⟩⟩
        · cases hexec
          exact ⟨happs, .inl ⟨rest, snaps, rfl, hresults, hout, hrest⟩⟩
    · rw [hidle] at hrun
      cases hrun

/-- What the command goes on with when `Delete` has returned: the apps that are left, and the
answer that was fixed when they were taken out. -/
theorem delete_returns {m t : Manager} {sel : String} {more : List Action}
    (hrun : machine.run m (.call (.delete sel) :: more) = some t)
    (hmore : ∀ a ∈ more, ∀ op, a ≠ .call op) (hidle : t.running = none) :
    t.apps = m.apps.filter (fun a => !m.unlinks sel a) ∧
      t.results = (.delete sel, m.deleteOutcome sel) :: m.results := by
  obtain ⟨u, hcall, hrest⟩ := machine.run_cons.mp hrun
  obtain rfl := (step_call hcall).2
  have ht : Deleting m sel t :=
    machine.along_invariant (C := fun _ a => ∀ op, a ≠ .call op)
      (fun _ _ _ hC hI h => deleting_step hI hC h) (deleting_call m sel) hrest
      (machine.along_of_mem (fun _ a ha => hmore a ha) _)
  refine ⟨ht.apps.trans (Delete_apps m sel), ?_⟩
  rcases ht.answer with ⟨todo, snaps, hrun', -⟩ | ⟨-, hresults⟩
  · rw [hidle] at hrun'
    cases hrun'
  · exact hresults

end Manager

/-! ### The command -/

namespace Server

/-- What the command should clean up: an app that is unlinked, or the unmanaged deployment of the
selector's name. -/
def targets (s : Server) (sel name : String) : Prop :=
  (∃ a ∈ s.mgr.apps, s.mgr.unlinks sel a = true ∧ a.name = name) ∨
  (name = sel ∧ (∀ a ∈ s.mgr.apps, a.name ≠ sel) ∧ s.deployer.states.get sel ≠ none)

/-- The location is at or below the name's deploy directory. -/
def owns (s : Server) (name : String) (p : List String) : Prop :=
  ∃ q, s.deployer.disk.locate (s.deployer.dir name) = some q ∧ q <+: p

/-- Something is in the place of the name's deploy directory. -/
def hasDir (s : Server) (name : String) : Prop :=
  ∃ q, s.deployer.disk.locate (s.deployer.dir name) = some q ∧ s.deployer.disk.node q ≠ none

/-- The command removes exactly the states, directories and limits of its targets. -/
structure CleansUp (s : Server) (sel : String) : Prop where
  states : ∀ name, (s.targets sel name → (s.deleteCommand sel).1.deployer.states.get name = none) ∧
    (¬ s.targets sel name →
      (s.deleteCommand sel).1.deployer.states.get name = s.deployer.states.get name)
  dirs : ∀ p, ((∃ name, s.targets sel name ∧ s.owns name p) →
      (s.deleteCommand sel).1.deployer.disk.node p = none) ∧
    ((¬ ∃ name, s.targets sel name ∧ s.owns name p) →
      (s.deleteCommand sel).1.deployer.disk.node p = s.deployer.disk.node p)
  limits : ∀ name, (s.targets sel name → (s.deleteCommand sel).1.guard.limits.get name = none) ∧
    (¬ s.targets sel name →
      (s.deleteCommand sel).1.guard.limits.get name = s.guard.limits.get name)

/-- The deployer's reading of the selector and the manager's make no difference. -/
structure Agrees (s : Server) (sel : String) : Prop where
  /-- A deployment's state is kept for a target, or under the selector, only where both are one. -/
  states : ∀ name, s.targets sel name ∨ name = sel → s.deployer.states.get name ≠ none →
    s.targets sel name ∧ name = sel
  /-- So is a directory. -/
  dirs : ∀ name, s.targets sel name ∨ name = sel → s.hasDir name → s.targets sel name ∧ name = sel
  /-- A target without deleted instances has no limit. -/
  limits : ∀ name, s.targets sel name → name ∉ s.unguarded sel → s.guard.limits.get name = none

section Facts
variable {s : Server} {sel : String}

theorem deleteCommand_states (name : String) :
    (s.deleteCommand sel).1.deployer.states.get name =
      if name = sel then none else s.deployer.states.get name :=
  s.deployer.states.get_del sel name

theorem deleteCommand_disk :
    (s.deleteCommand sel).1.deployer.disk = s.deployer.disk.RemoveAll (s.deployer.dir sel) := rfl

theorem deleteCommand_limits (name : String) :
    (s.deleteCommand sel).1.guard.limits.get name =
      if name ∈ s.unguarded sel then none else s.guard.limits.get name :=
  s.guard.foldl_Remove_limits _ name

/-- A target has a valid name. -/
theorem targets_valid {name : String} (h : s.targets sel name) : validAppName name = true := by
  rcases h with ⟨a, ha, -, rfl⟩ | ⟨rfl, -, hstate⟩
  · exact s.appNames a ha
  · exact s.stateNames name hstate

theorem unlinks_resolve {a : ManagedApp} (h : s.mgr.unlinks sel a = true) :
    ∃ ps, resolve s.mgr.apps sel = .ok ps := by
  cases hres : resolve s.mgr.apps sel with
  | error text => simp [Manager.unlinks, Manager.selectedApps, hres] at h
  | ok ps => exact ⟨ps, rfl⟩

/-- Where there is a target, the selector is an ordinary component. -/
theorem targets_ordinary {name : String} (h : s.targets sel name) : Ordinary sel := by
  rcases h with ⟨a, ha, hunlinks, -⟩ | ⟨rfl, -, hstate⟩
  · obtain ⟨ps, hres⟩ := unlinks_resolve hunlinks
    exact ordinary_of_resolve s.appNames hres
  · exact ordinary_of_validAppName (s.stateNames name hstate)

theorem locate_ordinary {name : String} (h : Ordinary name) {q : List String} :
    s.deployer.disk.locate (s.deployer.dir name) = some q ↔
      ∃ p, s.deployer.disk.resolve s.deployer.deployRoot.1 = some p ∧ q = p ++ [name] := by
  rw [Deploy.Deployer.dir, join_ordinary h]
  simp only [Deploy.Disk.locate, List.getLast?_concat, List.dropLast_concat, Option.map_eq_some_iff]
  exact exists_congr fun p => and_congr_right fun _ => eq_comm

/-- Ordinary names have directories apart from each other. -/
theorem name_eq_of_below {name name' : String} (h : Ordinary name) (h' : Ordinary name')
    {q q' : List String} (hq : s.deployer.disk.locate (s.deployer.dir name) = some q)
    (hq' : s.deployer.disk.locate (s.deployer.dir name') = some q') (hpre : q <+: q') :
    name = name' := by
  obtain ⟨p, hp, rfl⟩ := (locate_ordinary h).mp hq
  obtain ⟨p', hp', rfl⟩ := (locate_ordinary h').mp hq'
  obtain rfl : p = p' := Option.some.inj (hp.symm.trans hp')
  simpa using hpre.eq_of_length (by simp)

theorem mem_selectedApps {m : Manager} {a : ManagedApp} (h : a ∈ m.selectedApps sel) :
    a ∈ m.apps ∧ m.unlinks sel a = true := by
  refine ⟨?_, List.any_eq_true.mpr ⟨a, h, by simp⟩⟩
  unfold Manager.selectedApps at h
  split at h
  · cases h
  · obtain ⟨p, -, hget⟩ := List.mem_filterMap.mp h
    exact List.mem_of_getElem? hget

theorem snapshotApp_name {m : Manager} {a : ManagedApp} {snap : InstanceSnapshot}
    (h : snap ∈ m.snapshotApp a) : snap.name = a.name := by
  obtain ⟨x, -, hx⟩ := List.mem_filterMap.mp h
  obtain ⟨w, -, rfl⟩ := Option.map_eq_some_iff.mp hx
  rfl

/-- The names in the answer are names of unlinked apps. -/
theorem targets_of_unguarded {name : String} (h : name ∈ s.unguarded sel) : s.targets sel name := by
  unfold unguarded Manager.removedSnaps at h
  cases hres : resolve s.mgr.apps sel with
  | error text => simp [hres] at h
  | ok ps =>
    simp only [hres, List.mem_eraseDups, List.mem_map] at h
    obtain ⟨snap, hsnap, rfl⟩ := h
    obtain ⟨a, ha, hmem⟩ := List.mem_flatMap.mp hsnap
    obtain ⟨happ, hunlinks⟩ := mem_selectedApps ha
    exact .inl ⟨a, happ, hunlinks, (snapshotApp_name hmem).symm⟩

/-! ### Both directions -/

theorem states_iff : (∀ name, (s.targets sel name →
      (s.deleteCommand sel).1.deployer.states.get name = none) ∧ (¬ s.targets sel name →
      (s.deleteCommand sel).1.deployer.states.get name = s.deployer.states.get name)) ↔
    ∀ name, s.targets sel name ∨ name = sel → s.deployer.states.get name ≠ none →
      s.targets sel name ∧ name = sel := by
  constructor
  · intro h name hname hstate
    obtain ⟨hgone, hkept⟩ := h name
    rw [deleteCommand_states] at hgone hkept
    by_cases ht : s.targets sel name
    · refine ⟨ht, ?_⟩
      by_contra hne
      exact hstate (by simpa [hne] using hgone ht)
    · obtain rfl := hname.resolve_left ht
      exact absurd (by simpa using hkept ht) hstate.symm
  · intro h name
    rw [deleteCommand_states]
    refine ⟨?_, ?_⟩
    · intro ht
      split
      · rfl
      · rename_i hne
        by_contra hstate
        exact hne (h name (.inl ht) hstate).2
    · intro ht
      split
      · rename_i heq
        by_contra hstate
        exact ht (h name (.inr heq) (Ne.symm hstate)).1
      · rfl

theorem limits_iff : (∀ name, (s.targets sel name →
      (s.deleteCommand sel).1.guard.limits.get name = none) ∧ (¬ s.targets sel name →
      (s.deleteCommand sel).1.guard.limits.get name = s.guard.limits.get name)) ↔
    ∀ name, s.targets sel name → name ∉ s.unguarded sel → s.guard.limits.get name = none := by
  constructor
  · intro h name ht hnot
    have hgone := (h name).1 ht
    rw [deleteCommand_limits, if_neg hnot] at hgone
    exact hgone
  · intro h name
    rw [deleteCommand_limits]
    refine ⟨?_, ?_⟩
    · intro ht
      split
      · rfl
      · rename_i hnot
        exact h name ht hnot
    · intro ht
      split
      · rename_i hmem
        exact absurd (targets_of_unguarded hmem) ht
      · rfl

/-- What the selector's directory holds is gone. -/
theorem node_of_owns {p : List String} (h : s.owns sel p) :
    (s.deleteCommand sel).1.deployer.disk.node p = none := by
  obtain ⟨q, hq, hpre⟩ := h
  rw [deleteCommand_disk, Deploy.Disk.RemoveAll, hq]
  exact if_pos hpre

/-- Everything else is as it was. -/
theorem node_of_not_owns {p : List String} (h : ¬ s.owns sel p) :
    (s.deleteCommand sel).1.deployer.disk.node p = s.deployer.disk.node p := by
  rw [deleteCommand_disk, Deploy.Disk.RemoveAll]
  cases hq : s.deployer.disk.locate (s.deployer.dir sel) with
  | none => rfl
  | some q => exact if_neg fun hpre => h ⟨q, hq, hpre⟩

/-- Nothing is in a place that is not there. -/
theorem node_of_not_hasDir {name : String} {p : List String} (h : ¬ s.hasDir name)
    (howns : s.owns name p) : s.deployer.disk.node p = none := by
  obtain ⟨q, hq, hpre⟩ := howns
  by_contra hp
  exact h ⟨q, hq, Deploy.Disk.node_of_prefix hp hpre⟩

theorem dirs_of_agrees (h : ∀ name, s.targets sel name ∨ name = sel → s.hasDir name →
      s.targets sel name ∧ name = sel) (p : List String) :
    ((∃ name, s.targets sel name ∧ s.owns name p) →
      (s.deleteCommand sel).1.deployer.disk.node p = none) ∧
    ((¬ ∃ name, s.targets sel name ∧ s.owns name p) →
      (s.deleteCommand sel).1.deployer.disk.node p = s.deployer.disk.node p) := by
  refine ⟨?_, ?_⟩
  · intro hex
    obtain ⟨name, ht, howns⟩ := hex
    by_cases hsel : s.owns sel p
    · exact node_of_owns hsel
    · rw [node_of_not_owns hsel]
      refine node_of_not_hasDir (fun hdir => hsel ?_) howns
      rw [← (h name (.inl ht) hdir).2]
      exact howns
  · intro hnone
    by_cases hsel : s.owns sel p
    · rw [node_of_owns hsel]
      refine (node_of_not_hasDir (fun hdir => hnone ?_) hsel).symm
      exact ⟨sel, (h sel (.inr rfl) hdir).1, hsel⟩
    · exact node_of_not_owns hsel

theorem agrees_of_dirs (h : ∀ p, ((∃ name, s.targets sel name ∧ s.owns name p) →
      (s.deleteCommand sel).1.deployer.disk.node p = none) ∧
    ((¬ ∃ name, s.targets sel name ∧ s.owns name p) →
      (s.deleteCommand sel).1.deployer.disk.node p = s.deployer.disk.node p)) (name : String)
    (hname : s.targets sel name ∨ name = sel) (hdir : s.hasDir name) :
    s.targets sel name ∧ name = sel := by
  obtain ⟨q, hq, hnode⟩ := hdir
  have hself : s.owns name q := ⟨q, hq, List.prefix_refl q⟩
  by_cases ht : s.targets sel name
  · -- The directory is gone, so the selector's holds it.
    refine ⟨ht, ?_⟩
    by_cases howns : s.owns sel q
    · obtain ⟨q', hq', hpre⟩ := howns
      exact (name_eq_of_below (targets_ordinary ht) (ordinary_of_validAppName (targets_valid ht)) hq' hq
        hpre).symm
    · have hgone := (h q).1 ⟨name, ht, hself⟩
      rw [node_of_not_owns howns] at hgone
      exact absurd hgone hnode
  · -- The selector's directory is gone, so it is a target's.
    obtain rfl := hname.resolve_left ht
    by_cases hex : ∃ name', s.targets name name' ∧ s.owns name' q
    · obtain ⟨name', ht', q', hq', hpre⟩ := hex
      have heq := name_eq_of_below (ordinary_of_validAppName (targets_valid ht')) (targets_ordinary ht')
        hq' hq hpre
      exact absurd (heq ▸ ht') ht
    · have hkept := (h q).2 hex
      rw [node_of_owns hself] at hkept
      exact absurd hkept.symm hnode

end Facts

/-- **A Delete command cleans up exactly its targets where the readings of the selector agree.**
For every state of the daemon and every selector: the command removes exactly the deployment
states, deploy directories and memory limits of the apps the manager takes out, and of an
unmanaged deployment of the selector's name, if and only if none of these is kept for a target of
another name, none is kept under a selector that is no target's name, and no limit is set for a
target of which no instance is deleted. -/
theorem delete_cleans_up (s : Server) (sel : String) : s.CleansUp sel ↔ s.Agrees sel := by
  constructor
  · intro h
    exact ⟨states_iff.mp h.states, agrees_of_dirs h.dirs, limits_iff.mp h.limits⟩
  · intro h
    exact ⟨states_iff.mpr h.states, dirs_of_agrees h.dirs, limits_iff.mpr h.limits⟩

/-- One deployed app with the id 1. -/
def deployed : Server :=
  launchApp
    { mgr := {}
      deployer :=
        { deployRoot := Deploy.homeDeploys
          disk := .ofDirs [["home", "marshal", "deploys", "web"]] }
      appNames := by simp
      stateNames := fresh_names _ _ }
    { name := "web", source := some { repo := "https://git/web" } } (by decide)

/-- Deleting the app by its id leaves its checkout. -/
theorem leaves_checkout : ¬ ∀ (s : Server) (sel : String), s.CleansUp sel := by
  intro h
  have hgone := ((h deployed "1").dirs ["home", "marshal", "deploys", "web"]).1
    ⟨"web", .inl ⟨_, List.mem_cons_self, by decide, rfl⟩, _, rfl, List.prefix_refl _⟩
  cases hgone

end Server
end Marshal.Daemon
