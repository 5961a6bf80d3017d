import Marshal.Lib.System

/-! A value in memory and the file it is written through to.

A call changes the value and then saves it. Where the save fails and nothing takes the
change back, memory is ahead of the file. So the two agree after every call exactly as
long as no failing save comes with a change (`agrees_iff`). Values are compared by a
view of them. -/
namespace WriteThrough
open Transition

/-- How values are read off a file and what they are compared by. -/
structure Format (σ φ τ : Type*) where
  write : σ → φ
  read : φ → σ
  view : σ → τ
  /-- What is read back as it was written. -/
  Valid : σ → Prop
  read_write : ∀ m, Valid m → view (read (write m)) = view m

structure Mirror (σ φ : Type*) where
  memory : σ
  file : φ

variable {σ φ τ α : Type*} (F : Format σ φ τ)

/-- Memory holds what the file would be read as. -/
def Agrees (s : Mirror σ φ) : Prop := F.view (F.read s.file) = F.view s.memory

/-- What is left when the call makes `change` of the value; none if it is refused. -/
def through (s : Mirror σ φ) (change : Option σ) (saved : Bool) : Mirror σ φ :=
  match change with
  | none => s
  | some m => ⟨m, if saved then F.write m else s.file⟩

variable {F} {s : Mirror σ φ} {m : σ}

theorem agrees_refused {saved : Bool} (h : Agrees F s) : Agrees F (through F s none saved) := h

theorem agrees_saved (hvalid : F.Valid m) : Agrees F (through F s (some m) true) :=
  F.read_write m hvalid

theorem agrees_unsaved (h : Agrees F s) :
    Agrees F (through F s (some m) false) ↔ F.view m = F.view s.memory := by
  unfold Agrees at h ⊢
  constructor
  · intro hnext
    exact hnext.symm.trans h
  · intro hsame
    exact h.trans hsame.symm

/-- A store: what a call makes of the value, and whether it alters it. -/
structure Calls (F : Format σ φ τ) (α : Type*) where
  change : α → σ → Option σ
  Alters : α → σ → Prop
  valid : ∀ a m m', F.Valid m → change a m = some m' → F.Valid m'
  refused : ∀ a m, change a m = none → ¬ Alters a m
  alters : ∀ a m m', change a m = some m' → (Alters a m ↔ F.view m' ≠ F.view m)

/-- A call that is not saved leaves the value as it was exactly if it does not alter it. -/
theorem unsaved_iff (C : Calls F α) (s : Mirror σ φ) (a : α) :
    F.view (through F s (C.change a s.memory) false).memory = F.view s.memory ↔
      ¬ C.Alters a s.memory := by
  cases hchange : C.change a s.memory with
  | none => exact iff_of_true rfl (C.refused a _ hchange)
  | some m =>
    rw [C.alters a _ _ hchange, not_not]
    rfl

/-- **Memory agrees with the file after every call of a run exactly if every call that alters the
value is saved.** -/
theorem agrees_iff (C : Calls F α) {M : System (Mirror σ φ) (α × Bool)}
    (hM : ∀ s a, M.step s a = some (through F s (C.change a.1 s.memory) a.2)) {s t : Mirror σ φ}
    (hagrees : Agrees F s) (hvalid : F.Valid s.memory) {as : List (α × Bool)}
    (hrun : M.run s as = some t) :
    (∀ before after u, as = before ++ after → M.run s before = some u → Agrees F u) ↔
      M.Along (fun s a => a.2 = true ∨ ¬ C.Alters a.1 s.memory) s as := by
  refine M.along_iff (I := fun s => Agrees F s ∧ F.Valid s.memory) (fun _ h => h.1) ?_ ?_
    ⟨hagrees, hvalid⟩ hrun
  · rintro s ⟨a, saved⟩ t hrule ⟨hs, hv⟩ hstep
    rw [hM, Option.some.injEq] at hstep
    subst hstep
    dsimp only at hrule ⊢
    cases hchange : C.change a s.memory with
    | none => exact ⟨agrees_refused hs, hv⟩
    | some m =>
      have hm : F.Valid m := C.valid a _ _ hv hchange
      refine ⟨?_, hm⟩
      cases saved with
      | true => exact agrees_saved hm
      | false =>
        have hkeeps : ¬ C.Alters a s.memory := hrule.resolve_left Bool.false_ne_true
        rw [C.alters a _ _ hchange, not_not] at hkeeps
        exact (agrees_unsaved hs).mpr hkeeps
  · rintro s ⟨a, saved⟩ t hbroken ⟨hs, -⟩ hstep
    rw [hM, Option.some.injEq] at hstep
    subst hstep
    simp only [not_or, not_not, Bool.not_eq_true] at hbroken
    obtain ⟨rfl, halters⟩ := hbroken
    cases hchange : C.change a s.memory with
    | none => exact absurd halters (C.refused a _ hchange)
    | some m =>
      dsimp only
      rw [agrees_unsaved hs]
      exact (C.alters a _ _ hchange).mp halters

end WriteThrough
