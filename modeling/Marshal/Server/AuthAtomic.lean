import Marshal.Server.AuthSteps

/-! One call on the credentials, from taking `mu` to releasing it.

The call makes its change in memory, saves and, where the save fails, takes the change
back by hand. Without another process in between, a call that fails leaves memory and
`auth.json` as they were, and one that succeeds leaves them alike
(`call_all_or_nothing`). -/
namespace Marshal.Server
open StampedCopy

/-! ### A call without interruption -/

/-- How `save` goes. -/
inductive Save where
  | encodeFails
  /-- It may leave part of the text in the temporary file. -/
  | writeFails (torn : Option Nat)
  | renameFails (mtime : Nat)
  /-- It goes through, and perhaps the stat after it too. -/
  | done (mtime : Nat) (stat : Bool)
deriving DecidableEq

/-- A store with its file and its temporary file. -/
structure Saved where
  data : AuthData
  mtime : Nat
  file : AuthFile
  tmp : Option AuthFile

namespace Saved
variable (cr : Crypto)

def save (x : Saved) : Save → Saved × Bool
  | .encodeFails => (x, false)
  | .writeFails none => (x, false)
  | .writeFails (some mtime) => ({ x with tmp := some ⟨none, mtime⟩ }, false)
  | .renameFails mtime => ({ x with tmp := some ⟨some x.data, mtime⟩ }, false)
  | .done mtime stat =>
    ({ x with
        file := ⟨some x.data, mtime⟩
        tmp := none
        mtime := if stat then mtime else x.mtime }, true)

/-- The call, and whether it reports success. Where it is refused it does not come to the save. -/
def call (x : Saved) (op : Op) (s : Save) : Saved × Bool :=
  let changed := op.apply cr x.data true
  if changed.2 then
    let y := { x with data := changed.1 }.save s
    if y.2 then y else ({ y.1 with data := (op.apply cr x.data false).1 }, false)
  else (x, false)

end Saved

/-! ### All or nothing -/

/-- The entries a call does not name stay. -/
structure Untouched (op : Op) (a b : AuthData) : Prop where
  enroll : (∀ fresh, op ≠ .rotate "enroll" fresh) → b.enrollTokenHash = a.enrollTokenHash
  admin : (∀ fresh, op ≠ .rotate "admin" fresh) → b.adminTokenHash = a.adminTokenHash
  agents : ∀ n, (∀ fresh now, op ≠ .enrollAgent n fresh now) → op ≠ .removeAgent n →
    b.agents.get n = a.agents.get n
  users : ∀ n, (∀ password salt, op ≠ .setDashboardUser n password salt) →
    b.users.get n = a.users.get n

variable {cr : Crypto}

theorem Sets.untouched {op : Op} {a b : AuthData} (h : Sets cr a op b) : Untouched op a b := by
  cases h with
  | @enrollAgent name tok now hnew =>
    refine ⟨fun _ => rfl, fun _ => rfl, fun n henroll _ => ?_, fun _ _ => rfl⟩
    have hne : n ≠ name := by
      rintro rfl
      exact henroll _ _ rfl
    rw [Table.get_set, if_neg hne]
  | @removeAgent name =>
    refine ⟨fun _ => rfl, fun _ => rfl, fun n _ hremove => ?_, fun _ _ => rfl⟩
    have hne : n ≠ name := by
      rintro rfl
      exact hremove rfl
    rw [Table.get_del, if_neg hne]
  | rotateEnroll => exact ⟨fun h => absurd rfl (h _), fun _ => rfl, fun _ _ _ => rfl, fun _ _ => rfl⟩
  | rotateAdmin => exact ⟨fun _ => rfl, fun h => absurd rfl (h _), fun _ _ _ => rfl, fun _ _ => rfl⟩
  | @setDashboardUser user password salt dk huser hpassword hkey =>
    refine ⟨fun _ => rfl, fun _ => rfl, fun _ _ _ => rfl, fun n huser => ?_⟩
    have hne : n ≠ user := by
      rintro rfl
      exact huser _ _ rfl
    rw [Table.get_set, if_neg hne]

namespace Saved
variable {x y : Saved}

theorem save_fails {s : Save} (h : x.save s = (y, false)) : y.file = x.file ∧ y.mtime = x.mtime := by
  cases s with
  | encodeFails =>
    cases h
    exact ⟨rfl, rfl⟩
  | writeFails torn => cases torn <;> cases h <;> exact ⟨rfl, rfl⟩
  | renameFails =>
    cases h
    exact ⟨rfl, rfl⟩
  | done => cases h

theorem save_done {s : Save} (h : x.save s = (y, true)) :
    y.data = x.data ∧ y.file.value = some x.data := by
  cases s with
  | encodeFails => cases h
  | writeFails torn => cases torn <;> cases h
  | renameFails => cases h
  | done =>
    cases h
    exact ⟨rfl, rfl⟩

theorem call_refused {op : Op} (h : (op.apply cr x.data true).2 = false) (s : Save) :
    x.call cr op s = (x, false) := by
  simp only [call, h, Bool.false_eq_true, if_false]

/-- A call that makes a change goes as its save goes. -/
theorem call_changed {op : Op} (h : (op.apply cr x.data true).2 = true) (s : Save) :
    (x.call cr op s).1 =
      (let y := { x with data := (op.apply cr x.data true).1 }.save s
       if y.2 then y.1 else { y.1 with data := (op.apply cr x.data false).1 }) ∧
    (x.call cr op s).2 = ({ x with data := (op.apply cr x.data true).1 }.save s).2 := by
  simp only [call, h, if_true]
  cases hsave : ({ x with data := (op.apply cr x.data true).1 }.save s).2 with
  | false => exact ⟨rfl, rfl⟩
  | true => exact ⟨rfl, hsave⟩

/-- **A call on the credentials does everything or nothing: if it fails, memory holds the same
credentials as before and `auth.json` is the file it was; if it succeeds, the file holds exactly
what memory holds, the call's own change is made and no entry but the one it names differs.** -/
theorem call_all_or_nothing (x y : Saved) (op : Op) (s : Save) (ok : Bool)
    (hcall : x.call cr op s = (y, ok)) :
    (ok = false → Same x.data y.data ∧ y.file = x.file) ∧
    (ok = true → y.file.value = some y.data ∧ Sets cr x.data op y.data ∧
      Untouched op x.data y.data) := by
  rcases @Op.apply_saved cr op x.data with ⟨hrefused, -⟩ | ⟨hok, hsets⟩
  · obtain ⟨rfl, rfl⟩ := Prod.mk.inj ((call_refused hrefused s).symm.trans hcall)
    exact ⟨fun _ => ⟨.refl _, rfl⟩, fun h => absurd h (by simp)⟩
  · obtain ⟨hfst, hsnd⟩ := call_changed hok s
    rw [hcall] at hfst hsnd
    obtain ⟨z, saved, hsave⟩ : ∃ z saved,
        { x with data := (op.apply cr x.data true).1 }.save s = (z, saved) := ⟨_, _, rfl⟩
    rw [hsave] at hfst hsnd
    cases saved with
    | false =>
      obtain rfl : y = { z with data := (op.apply cr x.data false).1 } := hfst
      obtain rfl : ok = false := hsnd
      exact ⟨fun _ => ⟨@Op.apply_unsaved cr op x.data, (save_fails hsave).1⟩,
        fun h => absurd h (by simp)⟩
    | true =>
      obtain rfl : y = z := hfst
      obtain rfl : ok = true := hsnd
      obtain ⟨hdata, hfile⟩ := save_done hsave
      refine ⟨fun h => absurd h (by simp), fun _ => ?_⟩
      rw [hdata, hfile]
      exact ⟨rfl, hsets, hsets.untouched⟩

/-- A hash that keeps the token, and keys of no length. -/
def identity : Crypto where
  hashToken t := t
  key _ _ _ _ := some []
  encode _ := ""
  decode _ := some []

/-- A store without agents and its file. -/
def unenrolled : Saved where
  data := { enrollTokenHash := "e", adminTokenHash := "a" }
  mtime := 1
  file := ⟨some { enrollTokenHash := "e", adminTokenHash := "a" }, 1⟩
  tmp := none

def enrollEdge (s : Save) : Saved × Bool :=
  unenrolled.call identity (.enrollAgent "edge" (some "t") 7) s

/-- An enrollment whose rename fails, and one that is saved. -/
theorem call_all_or_nothing_enroll :
    ((enrollEdge (.renameFails 2)).2 = false ∧ Same unenrolled.data (enrollEdge (.renameFails 2)).1.data ∧
      (enrollEdge (.renameFails 2)).1.file = unenrolled.file) ∧
    ((enrollEdge (.done 2 true)).1.data.agents.get "edge" = some ⟨"t", 7⟩ ∧
      (enrollEdge (.done 2 true)).1.file.value = some (enrollEdge (.done 2 true)).1.data) :=
  have hfails := @call_all_or_nothing identity unenrolled _ _ (.renameFails 2) false
    (rfl : enrollEdge (.renameFails 2) = ((enrollEdge (.renameFails 2)).1, false))
  have hdone := @call_all_or_nothing identity unenrolled _ _ (.done 2 true) true
    (rfl : enrollEdge (.done 2 true) = ((enrollEdge (.done 2 true)).1, true))
  ⟨⟨rfl, hfails.1 rfl⟩, rfl, (hdone.2 rfl).1⟩

end Saved

/-! ### Among the processes -/

/-- The steps of the save. -/
def Save.acts (w : Who) : Save → List AuthAct
  | .encodeFails => [.writeFails w none]
  | .writeFails torn => [.writeFails w torn]
  | .renameFails mtime => [.write w mtime, .renameFails w]
  | .done mtime stat => [.write w mtime, .rename w, .stat w stat]

namespace AuthDir

/-- What a process has, with the files. -/
def part (x : AuthDir) (w : Who) : Saved := ⟨(x.stores w).data, (x.stores w).mtime, x.file, x.tmp⟩

/-- The steps of the call. -/
def acts (cr : Crypto) (x : AuthDir) (w : Who) (op : Op) (s : Save) : List AuthAct :=
  .call w op :: if (op.apply cr (x.stores w).data true).2 then s.acts w else []

theorem save_run {x : AuthDir} {w : Who} {op : Op} {old : AuthData}
    (hpc : (x.stores w).pc = .changed op old) (s : Save) :
    ∃ y, (machine cr).run x (s.acts w) = some y ∧
      y.part w = (if ((x.part w).save s).2 then ((x.part w).save s).1
        else { ((x.part w).save s).1 with data := (op.apply cr old false).1 }) ∧
      (y.stores w).pc = finish w op ((x.part w).save s).2 ∧ ∀ w' ≠ w, y.stores w' = x.stores w' := by
  cases s with
  | encodeFails =>
    refine ⟨x.takeBack cr w op old, ?_, ?_, ?_, fun w' hw => put_other x hw _⟩
    · simp [Save.acts, Transition.System.run, machine, step, hpc]
    · simp [part, takeBack, Saved.save, put]
    · simp [takeBack, put, Saved.save]
  | writeFails torn => cases torn with
    | none =>
      refine ⟨x.takeBack cr w op old, ?_, ?_, ?_, fun w' hw => put_other x hw _⟩
      · simp [Save.acts, Transition.System.run, machine, step, hpc]
      · simp [part, takeBack, Saved.save, put]
      · simp [takeBack, put, Saved.save]
    | some mtime =>
      refine ⟨{ x.takeBack cr w op old with tmp := some ⟨none, mtime⟩ }, ?_, ?_, ?_,
        fun w' hw => put_other x hw _⟩
      · simp [Save.acts, Transition.System.run, machine, step, hpc]
      · simp [part, takeBack, Saved.save, put]
      · simp [takeBack, put, Saved.save]
  | renameFails mtime =>
    refine ⟨_, by simp [Save.acts, Transition.System.run, machine, step, hpc]; rfl, ?_, ?_, ?_⟩
    · simp [part, takeBack, Saved.save, put]
    · simp [takeBack, put, Saved.save]
    · intro w' hw
      simp [takeBack, put, hw]
  | done mtime stat =>
    refine ⟨_, by simp [Save.acts, Transition.System.run, machine, step, hpc]; rfl, ?_, ?_, ?_⟩
    · cases stat <;> simp [part, statStep, Saved.save, put]
    · simp [statStep, put, Saved.save]
    · intro w' hw
      simp [statStep, put, hw]

/-- Without another process in between, a process's steps from calling to returning are the call. -/
theorem call_run {x : AuthDir} {w : Who} {op : Op} (hpc : (x.stores w).pc = .idle)
    (hoffered : op.offered w = true) (s : Save) :
    ∃ y, (machine cr).run x (acts cr x w op s) = some y ∧
      y.part w = ((x.part w).call cr op s).1 ∧
      (y.stores w).pc = finish w op ((x.part w).call cr op s).2 ∧
      ∀ w' ≠ w, y.stores w' = x.stores w' := by
  have hcall : (machine cr).step x (.call w op) = some (x.callStep cr w op) := by
    simp [machine, step, hpc, hoffered]
  unfold acts
  rcases @Op.apply_saved cr op (x.stores w).data with ⟨hrefused, hdata⟩ | ⟨hok, -⟩
  · simp only [Saved.call, hrefused, part, Bool.false_eq_true, if_false]
    refine ⟨x.callStep cr w op, (machine cr).run_cons.mpr ⟨_, hcall, rfl⟩, ?_, ?_, ?_⟩
    · simp [callStep, put, hdata]
    · simp [callStep, put, hrefused]
    · intro w' hw
      exact put_other x hw _
  · have hpc' : ((x.callStep cr w op).stores w).pc = .changed op (x.stores w).data := by
      simp [callStep, put, hok]
    have hpart : (x.callStep cr w op).part w =
        { x.part w with data := (op.apply cr (x.stores w).data true).1 } := by
      simp [part, callStep, put]
    obtain ⟨y, hrun, hy, hfinish, hothers⟩ := save_run hpc' s
    rw [hpart] at hy hfinish
    rw [hok, if_pos rfl]
    have hothers' : ∀ w' ≠ w, y.stores w' = x.stores w' := fun w' hw =>
      (hothers w' hw).trans (put_other x hw _)
    refine ⟨y, (machine cr).run_cons.mpr ⟨_, hcall, hrun⟩, ?_, ?_, hothers'⟩
    · exact hy.trans (Saved.call_changed (x := x.part w) hok s).1.symm
    · exact hfinish.trans (congrArg _ (Saved.call_changed (x := x.part w) hok s).2.symm)

end AuthDir
end Marshal.Server
