import Marshal.Credstore
import Marshal.Notify.Store

/-! Saves that fail in the two stores under the master key.

The credential store and the notification store change memory before they save and do
not take the change back. So a call that fails may still have its effect, until the next
start; memory is what the file says exactly as long as no save fails that had something
to save (`mutators_agree_iff`). -/
namespace Marshal
open WriteThrough

/-- **In both stores a call whose save fails leaves memory as it was exactly if it would put only
what is there already; and along a run memory agrees with the saved file after every call exactly
if every save that fails is of such a call.** -/
theorem mutators_agree_iff (c c' : Credstore.Store) (op : Credstore.Op)
    (as : List (Credstore.Op × Bool)) (n n' : Notify.Store) (op' : Notify.StoreOp)
    (bs : List (Notify.StoreOp × Bool)) :
    ((op.run c false).memory.get = c.memory.get ↔ ¬ op.Alters c.memory) ∧
    ((op'.run n false).memory.view = n.memory.view ↔ ¬ op'.Alters n.memory) ∧
    (Credstore.machine.init c → Credstore.machine.run c as = some c' →
      ((∀ before after u, as = before ++ after → Credstore.machine.run c before = some u →
          Agrees Credstore.format u) ↔
        Credstore.machine.Along (fun s a => a.2 = true ∨ ¬ a.1.Alters s.memory) c as)) ∧
    (Notify.store.init n → Notify.store.run n bs = some n' →
      ((∀ before after u, bs = before ++ after → Notify.store.run n before = some u →
          Agrees Notify.format u) ↔
        Notify.store.Along (fun s a => a.2 = true ∨ ¬ a.1.Alters s.memory) n bs)) := by
  refine ⟨?_, ?_, fun hinit hrun => ?_, fun hinit hrun => ?_⟩
  · rw [Credstore.run_eq]
    exact unsaved_iff Credstore.calls c op
  · rw [Notify.run_eq]
    exact unsaved_iff Notify.calls n op'
  · have hagrees : Agrees Credstore.format c := congrArg _ hinit.symm
    exact agrees_iff Credstore.calls Credstore.step_eq hagrees trivial hrun
  · have hagrees : Agrees Notify.format n := congrArg _ hinit.symm
    have hvalid : Notify.format.Valid n.memory := by
      rw [show n.memory = Notify.Open n.file from hinit]
      exact Notify.open_valid n.file
    exact agrees_iff Notify.calls Notify.step_eq hagrees hvalid hrun

/-- A cipher that leaves the text as it is. -/
def plainBox (text : String) : Option (String × String) := some ("nonce", text)

/-- The credential gh is put and saved; then it is deleted. -/
def deletes (saved : Bool) : List (Credstore.Op × Bool) :=
  [(.put "gh" "ann" "t" plainBox 7, true), (.delete "gh", saved)]

/-- The rule all is put and saved; then it is deleted. -/
def deletesRule (saved : Bool) : List (Notify.StoreOp × Bool) :=
  [(.putRule { name := "all", enabled := true }, true), (.deleteRule "all", saved)]

/-- Both are gone from memory and still in the file when their deletion is not saved. -/
theorem deletion_returns :
    (∃ u, Credstore.machine.run ⟨∅, none⟩ (deletes false) = some u ∧ u.memory.get "gh" = none ∧
      ((Credstore.Open u.file).get "gh").isSome = true ∧ ¬ Agrees Credstore.format u) ∧
    (∃ u, Notify.store.run ⟨Notify.Open none, none⟩ (deletesRule false) = some u ∧
      u.memory.rules.get "all" = none ∧ ((Notify.Open u.file).rules.get "all").isSome = true ∧
      ¬ Agrees Notify.format u) := by
  refine ⟨⟨_, rfl, by decide, by decide, fun h => ?_⟩, ⟨_, rfl, by decide, by decide, fun h => ?_⟩⟩
  · have hgh := congrFun h "gh"
    revert hgh
    decide
  · have hall := congrFun (congrArg Notify.View.rules h) "all"
    revert hall
    decide

theorem mutators_agree_deletes :
    ((∀ before after u, deletes true = before ++ after →
        Credstore.machine.run ⟨∅, none⟩ before = some u → Agrees Credstore.format u) ↔
      Credstore.machine.Along (fun s a => a.2 = true ∨ ¬ a.1.Alters s.memory) ⟨∅, none⟩ (deletes true)) ∧
    ((∀ before after u, deletesRule true = before ++ after →
        Notify.store.run ⟨Notify.Open none, none⟩ before = some u → Agrees Notify.format u) ↔
      Notify.store.Along (fun s a => a.2 = true ∨ ¬ a.1.Alters s.memory) ⟨Notify.Open none, none⟩
        (deletesRule true)) ∧
    Credstore.machine.Along (fun s a => a.2 = true ∨ ¬ a.1.Alters s.memory) ⟨∅, none⟩ (deletes true) := by
  refine ⟨?_, ?_, .inl rfl, .inl rfl, trivial⟩
  · exact (mutators_agree_iff ⟨∅, none⟩ _ (.delete "gh") (deletes true) ⟨Notify.Open none, none⟩
      ⟨Notify.Open none, none⟩ (.deleteRule "all") (deletesRule true)).2.2.1 rfl rfl
  · exact (mutators_agree_iff ⟨∅, none⟩ ⟨∅, none⟩ (.delete "gh") (deletes true)
      ⟨Notify.Open none, none⟩ _ (.deleteRule "all") (deletesRule true)).2.2.2 rfl rfl

end Marshal
