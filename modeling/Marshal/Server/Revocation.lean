import Marshal.Server.AuthSteps

/-! What a command revokes stays revoked, where nobody is in its way.

`Settled`, of the file and the server's copy of it, is the invariant: from the command's
rename on the file lacks the credential, and so does a copy whose modification time is
no older (`Revoked`). A `Reload` from then on brings the server's there. -/
namespace Marshal.Server
open StampedCopy

namespace AuthDir
variable {cr : Crypto} {x y : AuthDir} {a : AuthAct} {c : Credential} {m : Nat}

/-! ### What holds from the command's rename on -/

/-- The file does not hold the credential. -/
def Lacks (cr : Crypto) (c : Credential) (text : Option AuthData) : Prop :=
  ∀ data, text = some data → data.holds cr c = false

/-- Neither the file nor a copy as new as `m` holds the credential, and no call that goes on
grants it. -/
structure Revoked (cr : Crypto) (c : Credential) (m : Nat) (x : AuthDir) : Prop where
  settled : Settled (Lacks cr c) m x.file x.copy x.reload.fetched
  calls : ∀ w op, (x.stores w).pc.op = some op → op.grants cr c = false

theorem lacks_some {data : AuthData} : Lacks cr c (some data) ↔ data.holds cr c = false := by
  simp [Lacks]

theorem op_of_pending {pc : AuthPc} {op : Op} {old : AuthData} (h : pc.pending = some (op, old)) :
    pc.op = some op := by
  cases pc with
  | changed | written =>
    cases h
    rfl
  | start | loaded | idle | renamed | returned => cases h

/-- A change of one process's store. -/
theorem Revoked.put (h : Revoked cr c m x) {w : Who} {s : AuthStore}
    (hcalls : ∀ op, s.pc.op = some op → op.grants cr c = false)
    (hcopy : w = .server → Settled (Lacks cr c) m x.file ⟨some s.base, s.mtime⟩ x.reload.fetched) :
    Revoked cr c m (x.put w s) := by
  refine ⟨?_, ?_⟩
  · by_cases hw : .server = w
    · subst hw
      have hself : (x.put .server s).copy = ⟨some s.base, s.mtime⟩ := by
        simp [copy]
      rw [hself]
      exact hcopy rfl
    · have hother : (x.put w s).copy = x.copy := by
        simp only [copy, put_other x hw]
      rw [hother]
      exact h.settled
  · intro w' op hop
    by_cases hw : w' = w
    · subst hw
      rw [put_self] at hop
      exact hcalls op hop
    · rw [put_other x hw] at hop
      exact h.calls w' op hop

/-- A change that leaves the modification time, and the credential out. -/
theorem Revoked.edit (h : Revoked cr c m x) {w : Who} {s : AuthStore}
    (hcalls : ∀ op, s.pc.op = some op → op.grants cr c = false)
    (hmtime : s.mtime = (x.stores w).mtime)
    (hbase : (x.stores w).base.holds cr c = false → s.base.holds cr c = false) :
    Revoked cr c m (x.put w s) := by
  apply h.put hcalls
  intro hw
  subst hw
  rw [hmtime]
  apply h.settled.edit
  simpa only [copy, lacks_some] using hbase

/-- `Reload` goes on and leaves the server's copy as it is. -/
theorem Revoked.look (h : Revoked cr c m x) {reload : ReloadPc}
    (hfetched : Settled (Lacks cr c) m x.file x.copy reload.fetched) :
    Revoked cr c m { x with reload := reload } :=
  ⟨hfetched, h.calls⟩

theorem base_of_not_pending {s : AuthStore} (h : s.pc.pending = none) : s.base = s.data := by
  simp [AuthStore.base, h]

theorem base_of_pending {s : AuthStore} {op : Op} {old : AuthData}
    (h : s.pc.pending = some (op, old)) : s.base = old := by
  simp [AuthStore.base, h]

theorem pending_of_op {pc : AuthPc} (h : pc.op = none) : pc.pending = none := by
  cases hpending : pc.pending with
  | none => rfl
  | some p => exact absurd hpending (not_pending h p.1 p.2)

theorem calls_of_none {pc : AuthPc} (h : pc.op = none) (op : Op) (hop : pc.op = some op) :
    op.grants cr c = false := by
  rw [h] at hop
  cases hop

/-- A stat leaves the server's copy, or brings it up to the file it is a copy of. -/
theorem Revoked.stat {w : Who} {ok : Bool} {pc : AuthPc} (h : Revoked cr c m x)
    (hcalm : Undisturbed x (.stat w ok)) (hpc : (x.stores w).pc.pending = none)
    (hnext : pc.op = none) : Revoked cr c m (x.statStep w ok pc) := by
  cases ok with
  | false =>
    refine h.edit (calls_of_none hnext) rfl ?_
    rw [base_of_not_pending hpc, base_of_not_pending (pending_of_op hnext)]
    exact id
  | true =>
    refine h.put (calls_of_none hnext) ?_
    intro hw
    subst hw
    have hfile : x.file.value = some (x.stores .server).data := hcalm
    rw [base_of_not_pending (pending_of_op hnext)]
    show Settled _ m x.file ⟨some (x.stores .server).data, _⟩ _
    rw [← hfile]
    exact h.settled.reread _

/-- A rename goes from the file as it is to the file as it will be. -/
theorem Revoked.rename {w : Who} {op : Op} {old : AuthData} {new : AuthFile}
    (h : Revoked cr c m x) (hpc : (x.stores w).pc = .written op old)
    (hsets : Sets cr old op (x.stores w).data) (hpublishes : Publishes x w old new) :
    Revoked cr c m
      { x.put w { x.stores w with pc := .renamed op } with file := new, tmp := none } := by
  have hgrants : op.grants cr c = false := h.calls w op (by rw [hpc]; rfl)
  have hold : old.holds cr c = false := h.settled.shared old hpublishes.current
  have hdata : (x.stores w).data.holds cr c = false := hsets.lacks hgrants hold
  have hput : Revoked cr c m (x.put w { x.stores w with pc := .renamed op }) := by
    apply h.edit
    · intro op' hop
      cases hop
      exact hgrants
    · rfl
    · exact fun _ => hdata
  have hstamp : x.file.stamp ≤ new.stamp := by
    rcases hpublishes.newer with hlt | heq
    · exact Nat.le_of_lt hlt
    · exact Nat.le_of_eq heq.2
  refine ⟨hput.settled.publish hstamp ?_, hput.calls⟩
  rw [hpublishes.own]
  exact lacks_some.mpr hdata

/-- `Reload` swaps in what it has read. -/
theorem Revoked.swap {mtime : Nat} {fresh : AuthData} (h : Revoked cr c m x)
    (hpc : (x.stores .server).pc = .idle) (hreload : x.reload = .parsed mtime fresh) :
    Revoked cr c m
      { x.put .server { x.stores .server with data := fresh, mtime := mtime } with
        reload := .returned } := by
  have hfetched : x.reload.fetched = some ⟨some fresh, mtime⟩ := by
    rw [hreload]
    rfl
  have htaken := (hfetched ▸ h.settled).takeOver
  refine ⟨?_, fun w op hop => h.calls w op ?_⟩
  · show Settled _ m x.file (copy (x.put .server _)) none
    simp only [copy, put_self]
    rw [base_of_not_pending (by simp [hpc, AuthPc.pending])]
    exact htaken
  · by_cases hw : w = .server
    · subst hw
      simpa using hop
    · rwa [show _ = x.stores w from put_other x hw _] at hop

theorem revoked_step (htidy : Tidy cr x) (hcalm : Undisturbed x a)
    (hcall : ∀ w op, a = .call w op → op.grants cr c = false) (h : Revoked cr c m x)
    (hs : Steps cr x a y) : Revoked cr c m y := by
  cases hs with
  | @load w data hpc hfile =>
    apply h.put (calls_of_none rfl)
    intro _
    show Settled _ m x.file ⟨some data, _⟩ _
    rw [← hfile]
    exact h.settled.reread _
  | stat hpc hnext => exact h.stat hcalm hpc hnext
  | @refuse w op hpc =>
    refine h.edit (calls_of_none (finish_op w op false)) rfl ?_
    intro hbase
    rw [base_of_not_pending (by rw [hpc]; rfl)] at hbase
    rw [base_of_not_pending (pending_of_op (finish_op w op false))]
    exact hbase
  | @change w op data hpc hsets =>
    apply h.edit
    · intro op' hop
      cases hop
      exact hcall w op rfl
    · rfl
    · rw [base_of_not_pending (by rw [hpc]; rfl)]
      exact id
  | @write w mtime op old tmp hpc =>
    have hput : Revoked cr c m (x.put w { x.stores w with pc := .written op old }) := by
      apply h.edit
      · intro op' hop
        cases hop
        exact h.calls w op (by rw [hpc]; rfl)
      · rfl
      · rw [@base_of_pending _ op old (by rw [hpc]; rfl)]
        exact id
    exact ⟨hput.settled, hput.calls⟩
  | @takeBack _ w op old tmp hpc =>
    have hput : Revoked cr c m (x.takeBack cr w op old) := by
      refine h.edit (calls_of_none (finish_op w op false)) rfl ?_
      intro hbase
      rw [base_of_pending hpc] at hbase
      rw [base_of_not_pending (pending_of_op (finish_op w op false))]
      exact ((op.apply_unsaved old).holds c).trans hbase
    exact ⟨hput.settled, hput.calls⟩
  | @rename w op old new hpc htmp =>
    simp only [Undisturbed, hpc, htmp] at hcalm
    exact h.rename hpc (htidy.applied w op old (by rw [hpc]; rfl)) hcalm
  | reloadStat | unchanged | reloadCheck | reloadFails => exact h.look h.settled.drop
  | @reloadRead mtime fresh hreload hfile =>
    apply h.look
    show Settled _ m x.file x.copy (some ⟨some fresh, mtime⟩)
    rw [← hfile]
    exact h.settled.fetch mtime
  | reloadSwap hpc hreload => exact h.swap hpc hreload

/-- The rename of a command that revokes the credential. -/
theorem revoked_of_rename {n : Nat} {op : Op} (htidy : Tidy cr x)
    (hcalm : Undisturbed x (.rename (.cli n))) (h : x.step cr (.rename (.cli n)) = some y)
    (hpc : (y.stores (.cli n)).pc = .renamed op) (hrevokes : op.revokes cr c = true)
    (hcalls : ∀ w op', (y.stores w).pc.op = some op' → op'.grants cr c = false) :
    Revoked cr c y.file.stamp y := by
  simp only [step] at h
  split at h
  · rename_i op' old hpc'
    split at h
    · cases h
      simp [takeBack, finish] at hpc
    · rename_i new htmp
      cases h
      obtain rfl : op' = op := by simpa using hpc
      simp only [Undisturbed, hpc', htmp] at hcalm
      obtain ⟨hconcerns, hgrants⟩ : op'.concerns c = true ∧ op'.grants cr c = false := by
        simpa [Op.revokes] using hrevokes
      have hnewer : x.file.stamp < new.stamp := hcalm.newer.resolve_right (by simp)
      refine ⟨Settled.settle ?_ ?_ ?_, hcalls⟩
      · have hsets : Sets cr old op' (x.stores (.cli n)).data :=
          htidy.applied _ op' old (by rw [hpc']; rfl)
        show Lacks cr c new.value
        rw [hcalm.own, lacks_some, hsets.holds, if_pos hconcerns, hgrants]
      · show ((x.put _ _).stores .server).mtime < new.stamp
        rw [put_other x (by simp)]
        exact Nat.lt_of_le_of_lt htidy.stamp hnewer
      · intro f hf
        exact Nat.lt_of_le_of_lt (htidy.seen _ (ReloadPc.seen_of_fetched hf)) hnewer
  · cases h

/-! ### What holds from a `Reload` on -/

/-- `Reload` goes on from a file as new as `m`, or has brought the server there. -/
structure Reloading (m : Nat) (x : AuthDir) : Prop where
  seen : ∀ mtime, x.reload.seen = some mtime → m ≤ mtime
  returned : x.reload = .returned → m ≤ (x.stores .server).mtime

theorem reloading_step (htidy : Tidy cr x) (hfile : m ≤ x.file.stamp) (h : Reloading m x)
    (hs : Steps cr x a y) : Reloading m y := by
  have hmtime := mtime_step htidy hs
  cases hs with
  | load | stat | refuse | change | write | takeBack | rename =>
    exact ⟨h.seen, fun hr => Nat.le_trans (h.returned hr) hmtime⟩
  | reloadStat =>
    refine ⟨?_, fun hr => by cases hr⟩
    intro mtime hm
    cases hm
    exact hfile
  | unchanged hreload hle =>
    refine ⟨?_, fun _ => Nat.le_trans (h.seen _ hreload) hle⟩
    intro mtime hm
    cases hm
  | reloadCheck hreload | reloadRead hreload =>
    refine ⟨?_, fun hr => by cases hr⟩
    intro mtime hm
    cases hm
    exact h.seen _ (by rw [hreload]; rfl)
  | reloadFails =>
    refine ⟨?_, fun hr => by cases hr⟩
    intro mtime hm
    cases hm
  | @reloadSwap mtime _ _ hreload =>
    refine ⟨?_, fun _ => ?_⟩
    · intro mtime hm
      cases hm
    · show m ≤ ((x.put .server _).stores .server).mtime
      rw [put_self]
      exact h.seen mtime (by rw [hreload]; rfl)

/-! ### Runs -/

/-- The step is undisturbed and calls nothing that grants the credential. -/
def Harmless (cr : Crypto) (c : Credential) (x : AuthDir) (a : AuthAct) : Prop :=
  Undisturbed x a ∧ ∀ w op, a = .call w op → op.grants cr c = false

theorem harmless_run {as : List AuthAct} (hcalm : (machine cr).Along Undisturbed x as)
    (hcalls : ∀ w op, .call w op ∈ as → op.grants cr c = false) :
    (machine cr).Along (Harmless cr c) x as :=
  (machine cr).along_and.mpr ⟨hcalm, (machine cr).along_of_mem
    (C := fun _ a => ∀ w op, a = .call w op → op.grants cr c = false)
    (fun _ _ ha w op heq => hcalls w op (heq ▸ ha)) x⟩

theorem revoked_run {as : List AuthAct} (hx : Tidy cr x ∧ Revoked cr c m x)
    (hrun : (machine cr).run x as = some y) (hrule : (machine cr).Along (Harmless cr c) x as) :
    Tidy cr y ∧ Revoked cr c m y := by
  apply (machine cr).along_invariant ?_ hx hrun hrule
  intro x a y hC hI hstep
  have hs := steps_of_step hstep
  exact ⟨tidy_step hC.1 hI.1 hs, revoked_step hI.1 hC.1 hC.2 hI.2 hs⟩

theorem reloading_run {as : List AuthAct} (hx : Tidy cr x ∧ Revoked cr c m x) (h : Reloading m x)
    (hrun : (machine cr).run x as = some y) (hrule : (machine cr).Along (Harmless cr c) x as) :
    Reloading m y := by
  have hall : (Tidy cr y ∧ Revoked cr c m y) ∧ Reloading m y := by
    apply (machine cr).along_invariant
      (I := fun x => (Tidy cr x ∧ Revoked cr c m x) ∧ Reloading m x) ?_ ⟨hx, h⟩ hrun hrule
    intro x a y hC hI hstep
    have hs := steps_of_step hstep
    obtain ⟨⟨htidy, hrevoked⟩, hreloading⟩ := hI
    exact ⟨⟨tidy_step hC.1 htidy hs, revoked_step htidy hC.1 hC.2 hrevoked hs⟩,
      reloading_step htidy hrevoked.settled.since hreloading hs⟩
  exact hall.2

/-- A server as new as the revocation does not hold the credential, whatever it is about. -/
theorem Revoked.server (h : Revoked cr c m x) (htidy : Tidy cr x)
    (hmtime : m ≤ (x.stores .server).mtime) : (x.stores .server).data.holds cr c = false := by
  have hbase : (x.stores .server).base.holds cr c = false :=
    h.settled.copy hmtime (x.stores .server).base rfl
  cases hpending : (x.stores .server).pc.pending with
  | none => rwa [base_of_not_pending hpending] at hbase
  | some p =>
    rw [@base_of_pending _ p.1 p.2 hpending] at hbase
    exact (htidy.applied _ p.1 p.2 hpending).lacks (h.calls _ p.1 (op_of_pending hpending)) hbase

/-! ### The result -/

/-- The call had not returned when the run came to `x`, or is made in `as`. -/
def Later (x : AuthDir) (as : List AuthAct) (op : Op) : Prop :=
  (∃ w, (x.stores w).pc.op = some op) ∨ ∃ w, .call w op ∈ as

/-- In the run a command revokes the credential and nothing later grants it. The command's rename
leaves `y`, and nothing can make the command fail from there on; `rest` is left to run. -/
inductive Revokes (cr : Crypto) (c : Credential) (x : AuthDir) :
    List AuthAct → AuthDir → List AuthAct → Prop where
  | intro {before rest : List AuthAct} {u y : AuthDir} {n : Nat} {op : Op}
      (hrun : (machine cr).run x before = some u) (hstep : u.step cr (.rename (.cli n)) = some y)
      (hpc : (y.stores (.cli n)).pc = .renamed op) (hrevokes : op.revokes cr c = true)
      (hlater : ∀ op', Later y rest op' → op'.grants cr c = false) :
      Revokes cr c x (before ++ .rename (.cli n) :: rest) y rest

/-- A `Reload` sets out in the run and returns without an error. -/
def Reloads (cr : Crypto) (x : AuthDir) (as : List AuthAct) : Prop :=
  ∃ before mid after y, as = before ++ .reloadStat :: mid ++ after ∧
    (machine cr).run x (before ++ .reloadStat :: mid) = some y ∧ y.reload = .returned

/-- What a command of the run has revoked, the file does not let in from there on, nor does the
server once it has reloaded. -/
structure NeverUndone (cr : Crypto) (x : AuthDir) (as : List AuthAct) : Prop where
  file : ∀ c y rest t data, Revokes cr c x as y rest → (machine cr).run y rest = some t →
    t.file.value = some data → data.accepts cr c = false
  server : ∀ c y rest t, Revokes cr c x as y rest → (machine cr).run y rest = some t →
    Reloads cr y rest → (t.stores .server).data.accepts cr c = false

theorem reloading_of_stat (hfile : m ≤ x.file.stamp) (h : x.step cr .reloadStat = some y) :
    Reloading m y := by
  have hreload : y.reload = .statted x.file.stamp := by
    simp only [step] at h
    split at h <;> cases h <;> rfl
  refine ⟨?_, ?_⟩
  · intro mtime hm
    rw [hreload] at hm
    cases hm
    exact hfile
  · intro hr
    rw [hreload] at hr
    cases hr

/-- A `Reload` that sets out brings the server up to the file. -/
theorem mtime_of_reloads {before mid : List AuthAct} (hx : Tidy cr x ∧ Revoked cr c m x)
    (hrun : (machine cr).run x (before ++ .reloadStat :: mid) = some y)
    (hrule : (machine cr).Along (Harmless cr c) x (before ++ .reloadStat :: mid))
    (hreturned : y.reload = .returned) : m ≤ (y.stores .server).mtime := by
  obtain ⟨u, hu, hrest⟩ := (machine cr).run_append.mp hrun
  obtain ⟨v, hstep, hmid⟩ := (machine cr).run_cons.mp hrest
  obtain ⟨hbefore, hstat⟩ := ((machine cr).along_append hu).mp hrule
  have huser := revoked_run hx hu hbefore
  have hv : (machine cr).run u [.reloadStat] = some v := (machine cr).run_cons.mpr ⟨v, hstep, rfl⟩
  have hstat' : (machine cr).Along (Harmless cr c) u ([.reloadStat] ++ mid) := hstat
  obtain ⟨hone, hmid'⟩ := ((machine cr).along_append hv).mp hstat'
  have hreloading : Reloading m v := @reloading_of_stat cr _ _ _ huser.2.settled.since hstep
  exact (reloading_run (revoked_run huser hv hone) hreloading hmid hmid').returned hreturned

theorem accepts_of_holds {data : AuthData} (h : data.holds cr c = false) :
    data.accepts cr c = false := by
  by_contra haccepts
  have := AuthData.holds_of_accepts (by simpa using haccepts)
  rw [h] at this
  cases this

/-- The state after the command's rename, and the rule for the rest. -/
theorem Revokes.revoked {as rest : List AuthAct} (h : Revokes cr c x as y rest)
    (hx : (machine cr).init x) (hcalm : (machine cr).Along Undisturbed x as) :
    (Tidy cr y ∧ Revoked cr c y.file.stamp y) ∧ (machine cr).Along (Harmless cr c) y rest := by
  cases h with
  | @intro before _ u _ n op hrun hstep hpc hrevokes hlater =>
    obtain ⟨hbefore, hrename⟩ := ((machine cr).along_append hrun).mp hcalm
    have hrest : Undisturbed u (.rename (.cli n)) ∧ (machine cr).Along Undisturbed y rest := by
      simpa only [Transition.System.Along, machine, hstep] using hrename
    have htidy : Tidy cr u := tidy_run (tidy_init hx) hrun hbefore
    refine ⟨⟨tidy_step hrest.1 htidy (steps_of_step hstep), ?_⟩, ?_⟩
    · exact revoked_of_rename htidy hrest.1 hstep hpc hrevokes fun w op' hop => hlater op' (.inl ⟨w, hop⟩)
    · exact harmless_run hrest.2 fun w op' hmem => hlater op' (.inr ⟨w, hmem⟩)

/-- **A revocation is never undone, where nobody is in the way.** In every run over any file, by the
server and any number of commands, whose steps are all undisturbed: once a command has revoked a
credential, no later file lets it in and neither does the server after a later `Reload`, unless a
later call grants it. -/
theorem never_undone {as : List AuthAct} (hx : (machine cr).init x)
    (hcalm : (machine cr).Along Undisturbed x as) : NeverUndone cr x as := by
  refine ⟨?_, ?_⟩
  · intro c y rest t data hrevokes hrest hfile
    obtain ⟨hy, hrule⟩ := hrevokes.revoked hx hcalm
    exact accepts_of_holds ((revoked_run hy hrest hrule).2.settled.shared data hfile)
  · intro c y rest t hrevokes hrest hreloads
    obtain ⟨hy, hrule⟩ := hrevokes.revoked hx hcalm
    obtain ⟨before, mid, after, u, rfl, hu, hreturned⟩ := hreloads
    obtain ⟨u', hu', hafter⟩ := (machine cr).run_append.mp hrest
    obtain rfl : u = u' := Option.some.inj (hu.symm.trans hu')
    obtain ⟨hfirst, hsecond⟩ := ((machine cr).along_append hu).mp hrule
    have hmtime : y.file.stamp ≤ (u.stores .server).mtime :=
      mtime_of_reloads hy hu hfirst hreturned
    have hu := revoked_run hy hu hfirst
    have ht := revoked_run hu hafter hsecond
    have hlater : (u.stores .server).mtime ≤ (t.stores .server).mtime :=
      mtime_run hu.1 hafter ((machine cr).along_and.mp hsecond).1
    exact accepts_of_holds (ht.2.server ht.1 (Nat.le_trans hmtime hlater))

/-! ### Processes in each other's way -/

/-- Tokens are their own hashes. -/
def plain : Crypto where
  hashToken tok := tok
  key _ _ _ _ := none
  encode _ := ""
  decode _ := none

/-- A data directory with an enroll and an admin token. -/
def dataDir : AuthDir where
  file := ⟨some { enrollTokenHash := "enroll", adminTokenHash := "admin" }, 1⟩

/-- The server is up, and a command has written the file with a fresh enroll token. -/
def writes (mtime : Nat) : List AuthAct :=
  [.load .server, .stat .server true, .load (.cli 0), .stat (.cli 0) true,
    .call (.cli 0) (.rotate "enroll" (some "fresh")), .write (.cli 0) mtime]

/-- The command returns, and the server reloads. -/
def reloads : List AuthAct :=
  [.stat (.cli 0) true, .reloadStat, .reloadCheck, .reloadRead, .reloadSwap]

theorem never_undone_rotate :
    NeverUndone plain dataDir (writes 2 ++ .rename (.cli 0) :: reloads) := by
  apply @never_undone plain dataDir (writes 2 ++ .rename (.cli 0) :: reloads) ⟨rfl, fun _ => rfl⟩
  exact ⟨trivial, rfl, trivial, trivial, trivial, trivial, ⟨rfl, rfl, .inl (by decide)⟩, trivial,
    trivial, trivial, trivial, trivial, trivial⟩

/-- The command's rename revokes the old enroll token. -/
theorem revokes_enroll {mtime : Nat} {rest : List AuthAct} {u y : AuthDir}
    (hu : (machine plain).run dataDir (writes mtime) = some u)
    (hy : u.step plain (.rename (.cli 0)) = some y)
    (hrest : ∀ w op, .call w op ∈ rest → op.grants plain (.enroll "enroll") = false) :
    Revokes plain (.enroll "enroll") dataDir (writes mtime ++ .rename (.cli 0) :: rest) y rest := by
  cases hu
  cases hy
  refine .intro rfl rfl (n := 0) rfl rfl ?_
  intro op h
  rcases h with ⟨w, hw⟩ | ⟨w, hw⟩
  · match w, hw with
    | .cli 0, hw =>
      cases hw
      rfl
  · exact hrest w op hw

/-- The server enrolls an agent before it reloads. -/
def overwrites : List AuthAct :=
  [.stat (.cli 0) true, .call .server (.enrollAgent "db" (some "token") 0), .write .server 3,
    .rename .server]

/-- The server's copy is as old as the file, as far as it can tell. -/
def mistakes : List AuthAct := [.stat (.cli 0) true, .reloadStat, .reloadCheck]

/-- A server that has not reloaded writes the old token back, and one that reloads in the same tick
of the clock keeps letting it in. -/
theorem revocation_undone :
    (¬ ∀ cr x as, (machine cr).init x → NeverUndone cr x as) ∧
    ¬ ∀ cr x as, (machine cr).init x → ∀ c y rest t, Revokes cr c x as y rest →
      (machine cr).run y rest = some t → Reloads cr y rest →
      (t.stores .server).data.accepts cr c = false := by
  refine ⟨?_, ?_⟩
  · intro h
    have hfile := (h plain dataDir (writes 2 ++ .rename (.cli 0) :: overwrites)
      ⟨rfl, fun _ => rfl⟩).file _ _ _ _ _ (revokes_enroll rfl rfl ?_) rfl rfl
    · exact absurd hfile (by decide)
    · intro w op hmem
      simp only [overwrites, List.mem_cons, AuthAct.call.injEq, List.not_mem_nil, or_false,
        reduceCtorEq, false_or] at hmem
      rw [hmem.2]
      rfl
  · intro h
    have hserver := h plain dataDir (writes 1 ++ .rename (.cli 0) :: mistakes) ⟨rfl, fun _ => rfl⟩
      _ _ _ _ (revokes_enroll rfl rfl (by simp [mistakes])) rfl
      ⟨[.stat (.cli 0) true], [.reloadCheck], [], _, rfl, rfl, rfl⟩
    exact absurd hserver (by decide)

end AuthDir
end Marshal.Server
