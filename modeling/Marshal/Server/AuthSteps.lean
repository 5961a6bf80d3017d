import Marshal.Server.Credentials

/-! The steps on `auth.json`, and the rule that keeps them apart.

A rename is in its place if it publishes its own text, made from the file as it is, and
a stat if the file is the one the server holds (`Undisturbed`). What each step does is
said once (`Steps`). In every run the server's modification times are none the file has
not reached, and a change not yet renamed is one that went through (`Tidy`). -/
namespace Marshal.Server
open StampedCopy

namespace AuthPc

/-- The call whose change may yet be taken back, and the credentials from before it. -/
def pending : AuthPc → Option (Op × AuthData)
  | .changed op old | .written op old => some (op, old)
  | _ => none

/-- The call that has not returned. -/
def op : AuthPc → Option Op
  | .changed op _ | .written op _ | .renamed op => some op
  | _ => none

end AuthPc

namespace ReloadPc

/-- The modification time `Reload` saw. -/
def seen : ReloadPc → Option Nat
  | .statted mtime | .changed mtime | .parsed mtime _ => some mtime
  | .off | .returned => none

/-- What `Reload` has read. -/
def fetched : ReloadPc → Option AuthFile
  | .parsed mtime fresh => some ⟨some fresh, mtime⟩
  | _ => none

theorem seen_of_fetched {r : ReloadPc} {f : AuthFile} (h : r.fetched = some f) :
    r.seen = some f.stamp := by
  cases r with
  | parsed =>
    cases h
    rfl
  | off | statted | changed | returned => cases h

end ReloadPc

/-- The credentials without a change that may yet be taken back. -/
def AuthStore.base (a : AuthStore) : AuthData :=
  match a.pc.pending with
  | some (_, old) => old
  | none => a.data

namespace AuthDir

/-- What the server has of the file. -/
def copy (x : AuthDir) : AuthFile := ⟨some (x.stores .server).base, (x.stores .server).mtime⟩

/-! ### Steps out of each other's way -/

/-- What is renamed is the process's own text, made from the file as it is, and newer than it. -/
structure Publishes (x : AuthDir) (w : Who) (old : AuthData) (new : AuthFile) : Prop where
  own : new.value = some (x.stores w).data
  current : x.file.value = some old
  newer : x.file.stamp < new.stamp ∨ w = .server ∧ x.file.stamp = new.stamp

/-- A rename publishes the process's change to the file, and the server takes the modification
time of the file it holds. -/
def Undisturbed (x : AuthDir) : AuthAct → Prop
  | .rename w => match (x.stores w).pc, x.tmp with
    | .written _ old, some new => Publishes x w old new
    | _, _ => True
  | .stat .server true => x.file.value = some (x.stores .server).data
  | _ => True

/-! ### What a step does -/

@[simp] theorem put_self (x : AuthDir) (w : Who) (a : AuthStore) : (x.put w a).stores w = a := by
  simp [put]

theorem put_other (x : AuthDir) {w w' : Who} (h : w' ≠ w) (a : AuthStore) :
    (x.put w a).stores w' = x.stores w' := by
  simp [put, h]

/-- What each step does. The temporary file after a call that ends early is left open. -/
inductive Steps (cr : Crypto) (x : AuthDir) : AuthAct → AuthDir → Prop where
  | load {w : Who} {data : AuthData} (hpc : (x.stores w).pc = .start)
      (hfile : x.file.value = some data) :
      Steps cr x (.load w) (x.put w { x.stores w with data := data, pc := .loaded })
  | stat {w : Who} {ok : Bool} {pc : AuthPc} (hpc : (x.stores w).pc.pending = none)
      (hnext : pc.op = none) : Steps cr x (.stat w ok) (x.statStep w ok pc)
  | refuse {w : Who} {op : Op} (hpc : (x.stores w).pc = .idle) :
      Steps cr x (.call w op) (x.put w { x.stores w with pc := finish w op false })
  | change {w : Who} {op : Op} {data : AuthData} (hpc : (x.stores w).pc = .idle)
      (hsets : Sets cr (x.stores w).data op data) :
      Steps cr x (.call w op)
        (x.put w { x.stores w with data := data, pc := .changed op (x.stores w).data })
  | write {w : Who} {mtime : Nat} {op : Op} {old : AuthData} {tmp : Option AuthFile}
      (hpc : (x.stores w).pc = .changed op old) :
      Steps cr x (.write w mtime)
        { x.put w { x.stores w with pc := .written op old } with tmp := tmp }
  | takeBack {a : AuthAct} {w : Who} {op : Op} {old : AuthData} {tmp : Option AuthFile}
      (hpc : (x.stores w).pc.pending = some (op, old)) :
      Steps cr x a { x.takeBack cr w op old with tmp := tmp }
  | rename {w : Who} {op : Op} {old : AuthData} {new : AuthFile}
      (hpc : (x.stores w).pc = .written op old) (htmp : x.tmp = some new) :
      Steps cr x (.rename w)
        { x.put w { x.stores w with pc := .renamed op } with file := new, tmp := none }
  | reloadStat : Steps cr x .reloadStat { x with reload := .statted x.file.stamp }
  | unchanged {a : AuthAct} {mtime : Nat} (hreload : x.reload.seen = some mtime)
      (hle : mtime ≤ (x.stores .server).mtime) : Steps cr x a { x with reload := .returned }
  | reloadCheck {mtime : Nat} (hreload : x.reload = .statted mtime) :
      Steps cr x .reloadCheck { x with reload := .changed mtime }
  | reloadRead {mtime : Nat} {fresh : AuthData} (hreload : x.reload = .changed mtime)
      (hfile : x.file.value = some fresh) :
      Steps cr x .reloadRead { x with reload := .parsed mtime fresh }
  | reloadFails {a : AuthAct} : Steps cr x a { x with reload := .off }
  | reloadSwap {mtime : Nat} {fresh : AuthData} (hpc : (x.stores .server).pc = .idle)
      (hreload : x.reload = .parsed mtime fresh) (hlt : (x.stores .server).mtime < mtime) :
      Steps cr x .reloadSwap
        { x.put .server { x.stores .server with data := fresh, mtime := mtime } with
          reload := .returned }

variable {cr : Crypto} {x y : AuthDir} {a : AuthAct} {c : Credential} {m : Nat}

theorem finish_op (w : Who) (op : Op) (ok : Bool) : (finish w op ok).op = none := by
  cases w <;> rfl

theorem steps_call {w : Who} {op : Op} (hpc : (x.stores w).pc = .idle) :
    Steps cr x (.call w op) (x.callStep cr w op) := by
  unfold callStep
  rcases @Op.apply_saved cr op (x.stores w).data with ⟨hrefused, hdata⟩ | ⟨hok, hsets⟩
  · simp only [hrefused, hdata, Bool.false_eq_true, if_false]
    exact .refuse hpc
  · simp only [hok, if_true]
    exact .change hpc hsets

theorem steps_of_step (h : x.step cr a = some y) : Steps cr x a y := by
  cases a with
  | load w =>
    simp only [step] at h
    split at h
    · rename_i data hpc hfile
      cases h
      exact .load hpc hfile
    · cases h
  | stat w ok =>
    simp only [step] at h
    split at h
    · rename_i hpc
      cases h
      exact .stat (by rw [hpc]; rfl) rfl
    · rename_i op hpc
      cases h
      exact .stat (by rw [hpc]; rfl) (finish_op w op true)
    · cases h
  | call w op =>
    simp only [step] at h
    split at h
    · rename_i hpc
      split at h
      · cases h
        exact steps_call hpc
      · cases h
    · cases h
  | write w mtime =>
    simp only [step] at h
    split at h
    · rename_i op old hpc
      cases h
      exact .write hpc
    · cases h
  | writeFails w torn =>
    simp only [step] at h
    split at h
    · rename_i op old hpc
      split at h <;> cases h <;> exact .takeBack (by rw [hpc]; rfl)
    · cases h
  | rename w =>
    simp only [step] at h
    split at h
    · rename_i op old hpc
      split at h
      · cases h
        exact .takeBack (by rw [hpc]; rfl)
      · rename_i new htmp
        cases h
        exact .rename hpc htmp
    · cases h
  | renameFails w =>
    simp only [step] at h
    split at h
    · rename_i op old hpc
      cases h
      exact .takeBack (by rw [hpc]; rfl)
    · cases h
  | reloadStat =>
    simp only [step] at h
    split at h
    · cases h
    · cases h
    · cases h
      exact .reloadStat
    · cases h
      exact .reloadStat
    · cases h
  | reloadCheck =>
    simp only [step] at h
    split at h
    · rename_i mtime hpc hreload
      cases h
      split
      · rename_i heq
        exact .unchanged (by rw [hreload]; rfl) heq.le
      · exact .reloadCheck hreload
    · cases h
  | reloadRead =>
    simp only [step] at h
    split at h
    · rename_i mtime hreload
      split at h
      · cases h
        exact .reloadFails
      · rename_i fresh hfile
        cases h
        exact .reloadRead hreload hfile
    · cases h
  | reloadReadFails =>
    simp only [step] at h
    split at h
    · cases h
      exact .reloadFails
    · cases h
  | reloadSwap =>
    simp only [step] at h
    split at h
    · rename_i mtime fresh hpc hreload
      cases h
      split
      · rename_i hlt
        exact .reloadSwap hpc hreload hlt
      · rename_i hge
        exact .unchanged (by rw [hreload]; rfl) (Nat.not_lt.mp hge)
    · cases h

/-! ### What holds in every run -/

/-- The server's modification times are none the file has not reached, and a change that may
yet be taken back is one that went through. -/
structure Tidy (cr : Crypto) (x : AuthDir) : Prop where
  stamp : (x.stores .server).mtime ≤ x.file.stamp
  seen : ∀ mtime, x.reload.seen = some mtime → mtime ≤ x.file.stamp
  applied : ∀ w op old, (x.stores w).pc.pending = some (op, old) → Sets cr old op (x.stores w).data

/-- A change of one process's store. -/
theorem Tidy.put (h : Tidy cr x) {w : Who} {s : AuthStore}
    (hstamp : s.mtime = (x.stores w).mtime ∨ s.mtime ≤ x.file.stamp)
    (happlied : ∀ op old, s.pc.pending = some (op, old) → Sets cr old op s.data) :
    Tidy cr (x.put w s) := by
  refine ⟨?_, h.seen, ?_⟩
  · by_cases hw : .server = w
    · subst hw
      rw [put_self]
      have := h.stamp
      show s.mtime ≤ x.file.stamp
      omega
    · rw [put_other x hw]
      exact h.stamp
  · intro w' op old hpending
    by_cases hw : w' = w
    · subst hw
      rw [put_self] at hpending ⊢
      exact happlied op old hpending
    · rw [put_other x hw] at hpending ⊢
      exact h.applied w' op old hpending

theorem not_pending {pc : AuthPc} (h : pc.op = none) (op : Op) (old : AuthData) :
    pc.pending ≠ some (op, old) := by
  cases pc <;> simp [AuthPc.pending, AuthPc.op] at h ⊢

/-- The server looks at the file and keeps what it has. -/
theorem Tidy.look (h : Tidy cr x) {reload : ReloadPc}
    (hseen : ∀ mtime, reload.seen = some mtime → mtime ≤ x.file.stamp) :
    Tidy cr { x with reload := reload } :=
  ⟨h.stamp, hseen, h.applied⟩

theorem tidy_step (hcalm : Undisturbed x a) (h : Tidy cr x) (hs : Steps cr x a y) : Tidy cr y := by
  cases hs with
  | load =>
    refine h.put (.inl rfl) ?_
    intro op old hpending
    cases hpending
  | @stat w ok pc _ hnext =>
    apply h.put
    · cases ok with
      | true => exact .inr (Nat.le_refl _)
      | false => exact .inl rfl
    · intro op old hpending
      exact absurd hpending (not_pending hnext op old)
  | @refuse w op hpc =>
    refine h.put (.inl rfl) ?_
    intro op' old hpending
    exact absurd hpending (not_pending (finish_op w op false) op' old)
  | change hpc hsets =>
    refine h.put (.inl rfl) ?_
    intro op old hpending
    cases hpending
    exact hsets
  | @write w mtime op old tmp hpc =>
    have hput : Tidy cr (x.put w { x.stores w with pc := .written op old }) := by
      refine h.put (.inl rfl) ?_
      intro op' old' hpending
      cases hpending
      exact h.applied w op old (by rw [hpc]; rfl)
    exact ⟨hput.stamp, hput.seen, hput.applied⟩
  | @takeBack _ w op old tmp hpc =>
    have hput : Tidy cr (x.takeBack cr w op old) := by
      refine h.put (.inl rfl) ?_
      intro op' old' hpending
      exact absurd hpending (not_pending (finish_op w op false) op' old')
    exact ⟨hput.stamp, hput.seen, hput.applied⟩
  | @rename w op old new hpc htmp =>
    have hnewer : x.file.stamp ≤ new.stamp := by
      simp only [Undisturbed, hpc, htmp] at hcalm
      rcases hcalm.newer with hlt | heq
      · exact Nat.le_of_lt hlt
      · exact Nat.le_of_eq heq.2
    have hput : Tidy cr (x.put w { x.stores w with pc := .renamed op }) := by
      refine h.put (.inl rfl) ?_
      intro op' old' hpending
      cases hpending
    exact ⟨Nat.le_trans hput.stamp hnewer, fun mtime hm => Nat.le_trans (hput.seen mtime hm) hnewer,
      hput.applied⟩
  | reloadStat =>
    apply h.look
    intro mtime hm
    cases hm
    exact Nat.le_refl _
  | unchanged | reloadFails =>
    apply h.look
    intro mtime hm
    cases hm
  | reloadCheck hreload | reloadRead hreload =>
    apply h.look
    intro mtime hm
    cases hm
    exact h.seen _ (by rw [hreload]; rfl)
  | @reloadSwap mtime fresh hpc hreload hlt =>
    have hput : Tidy cr (x.put .server { x.stores .server with data := fresh, mtime := mtime }) := by
      apply h.put
      · exact .inr (h.seen mtime (by rw [hreload]; rfl))
      · intro op old hpending
        simp [hpc, AuthPc.pending] at hpending
    apply hput.look
    intro mtime hm
    cases hm

theorem tidy_init (h : (machine cr).init x) : Tidy cr x := by
  obtain ⟨hreload, hstores⟩ := h
  refine ⟨?_, ?_, ?_⟩
  · rw [hstores]
    exact Nat.zero_le _
  · intro mtime hm
    rw [hreload] at hm
    cases hm
  · intro w op old hpending
    rw [hstores] at hpending
    cases hpending

/-- The server's modification time only grows. -/
theorem mtime_step (htidy : Tidy cr x) (hs : Steps cr x a y) :
    (x.stores .server).mtime ≤ (y.stores .server).mtime := by
  have hput : ∀ (w : Who) (s : AuthStore), (w = .server → (x.stores w).mtime ≤ s.mtime) →
      (x.stores .server).mtime ≤ ((x.put w s).stores .server).mtime := by
    intro w s hle
    by_cases hw : .server = w
    · subst hw
      rw [put_self]
      exact hle rfl
    · rw [put_other x hw]
  cases hs with
  | load | refuse | change | write | takeBack | rename =>
    exact hput _ _ fun _ => Nat.le_refl _
  | @stat w ok =>
    apply hput
    intro hw
    subst hw
    cases ok with
    | true => exact htidy.stamp
    | false => exact Nat.le_refl _
  | reloadSwap _ _ hlt => exact hput _ _ fun _ => Nat.le_of_lt hlt
  | reloadStat | unchanged | reloadCheck | reloadRead | reloadFails => exact Nat.le_refl _

theorem tidy_run {as : List AuthAct} (h : Tidy cr x) (hrun : (machine cr).run x as = some y)
    (hcalm : (machine cr).Along Undisturbed x as) : Tidy cr y :=
  (machine cr).along_invariant (fun _ _ _ hC hI h => tidy_step hC hI (steps_of_step h)) h hrun hcalm

theorem mtime_run {as : List AuthAct} (hx : Tidy cr x) (hrun : (machine cr).run x as = some y)
    (hcalm : (machine cr).Along Undisturbed x as) :
    (x.stores .server).mtime ≤ (y.stores .server).mtime := by
  have hall : Tidy cr y ∧ (x.stores .server).mtime ≤ (y.stores .server).mtime := by
    apply (machine cr).along_invariant
      (I := fun z => Tidy cr z ∧ (x.stores .server).mtime ≤ (z.stores .server).mtime) ?_
      ⟨hx, Nat.le_refl _⟩ hrun hcalm
    intro z a w hC hI hstep
    have hs := steps_of_step hstep
    exact ⟨tidy_step hC hI.1 hs, Nat.le_trans hI.2 (mtime_step hI.1 hs)⟩
  exact hall.2

end AuthDir
end Marshal.Server
