import Mathlib.Data.List.Basic

/-! Buffers and what they hand out.

Items enter a buffer and stay in it until an operation closes them, which hands out what
they give. What a run owes is read off the list of operations alone (`Rules.ledger`):
each item's account is settled once, by the first operation that closes it. A machine
that makes every single step by the rules hands out over a run exactly what is owed
(`Buffer.outputs_ledger`). -/
namespace Ledger
variable {σ ω α β : Type}

structure Rules (ω α β : Type) where
  /-- The item an operation brings. -/
  enters : ω → Option α
  closes : α → ω → Bool
  /-- What an operation hands out for an item it closes. -/
  gives : α → ω → Option β
  /-- What an operation hands out by itself, next to the items it finds. -/
  alone : List α → ω → List β

namespace Rules
variable (R : Rules ω α β)

/-- What is handed out for an item, and in which step: the first operation that closes it tells. -/
def fate (a : α) (n : Nat) : List ω → Option (Nat × β)
  | [] => none
  | op :: rest => if R.closes a op then (R.gives a op).map (n, ·) else fate a (n + 1) rest

/-- The items no later operation has closed. -/
def waiting : List ω → List α
  | [] => []
  | op :: rest => ((R.enters op).filter fun a => rest.all fun op' => !R.closes a op').toList ++ waiting rest

/-- Everything the operations owe, after those of `past`, with the step that owes it. -/
def ledger (past : List ω) (n : Nat) : List ω → List (Nat × β)
  | [] => []
  | op :: rest =>
    ((R.enters op).bind fun a => R.fate a (n + 1) rest).toList ++
      ((R.alone (R.waiting past) op).map (n, ·) ++ ledger (past ++ [op]) (n + 1) rest)

theorem waiting_concat (past : List ω) (op : ω) :
    R.waiting (past ++ [op]) =
      (R.waiting past).filter (fun a => !R.closes a op) ++ (R.enters op).toList := by
  induction past with
  | nil => cases h : R.enters op <;> simp [waiting, h]
  | cons op' rest ih =>
    simp only [List.cons_append, waiting, ih, List.filter_append, ← List.append_assoc]
    congr 2
    cases R.enters op' with
    | none => rfl
    | some a =>
      simp only [Option.filter_some, List.all_append, List.all_cons, List.all_nil, Bool.and_true]
      cases rest.all fun op' => !R.closes a op' <;> cases h : R.closes a op <;> simp [h]

/-- The accounts of items split into those closed at once and the rest. -/
theorem fates_cons (items : List α) (n : Nat) (op : ω) (rest : List ω) :
    List.Perm (items.filterMap fun a => R.fate a n (op :: rest))
      (((items.filter fun a => R.closes a op).filterMap fun a => R.gives a op).map (n, ·) ++
        (items.filter fun a => !R.closes a op).filterMap fun a => R.fate a (n + 1) rest) := by
  refine ((List.filter_append_perm (fun a => R.closes a op) items).filterMap _).symm.trans ?_
  rw [List.filterMap_append]
  refine List.Perm.of_eq ?_
  congr 1
  · rw [List.map_filterMap]
    refine List.filterMap_congr fun a ha => ?_
    rw [fate, if_pos (List.mem_filter.mp ha).2]
  · refine List.filterMap_congr fun a ha => ?_
    have hopen : R.closes a op = false := by simpa using (List.mem_filter.mp ha).2
    rw [fate, if_neg (by simp [hopen])]

end Rules

/-- What a machine hands out in a run, with the step it does so in. -/
def outputs (step : σ → ω → σ × List β) (s : σ) (n : Nat) : List ω → List (Nat × β)
  | [] => []
  | op :: rest => (step s op).2.map (n, ·) ++ outputs step (step s op).1 (n + 1) rest

/-- A machine whose every step goes by the rules. -/
structure Buffer (R : Rules ω α β) (step : σ → ω → σ × List β) (items : σ → List α)
    (Inv : σ → Prop) : Prop where
  keeps : ∀ s op, Inv s → Inv (step s op).1
  leaves : ∀ s op, Inv s → List.Perm (items (step s op).1)
    ((items s).filter (fun a => !R.closes a op) ++ (R.enters op).toList)
  hands : ∀ s op, Inv s → List.Perm (step s op).2
    (((items s).filter fun a => R.closes a op).filterMap (fun a => R.gives a op) ++
      R.alone (items s) op)
  alone_perm : ∀ l l' op, List.Perm l l' → R.alone l op = R.alone l' op

namespace Buffer
variable {R : Rules ω α β} {step : σ → ω → σ × List β} {items : σ → List α} {Inv : σ → Prop}

theorem outputs_from (B : Buffer R step items Inv) {past : List ω} {s : σ} (hInv : Inv s)
    (hpast : List.Perm (items s) (R.waiting past)) (n : Nat) (ops : List ω) :
    List.Perm (outputs step s n ops)
      ((items s).filterMap (fun a => R.fate a n ops) ++ R.ledger past n ops) := by
  induction ops generalizing s past n with
  | nil =>
    have hnone : (items s).filterMap (fun a => R.fate a n ([] : List ω)) = [] := by
      simp [Rules.fate]
    rw [hnone]
    exact List.Perm.refl _
  | cons op rest ih =>
    have hleaves := B.leaves s op hInv
    have hnext : List.Perm (items (step s op).1) (R.waiting (past ++ [op])) := by
      rw [R.waiting_concat]
      exact hleaves.trans ((hpast.filter _).append_right _)
    have hrest := ih (B.keeps s op hInv) hnext (n + 1)
    have hhands := (B.hands s op hInv).map (Prod.mk n)
    rw [B.alone_perm _ _ op hpast, List.map_append] at hhands
    have hitems := hleaves.filterMap fun a => R.fate a (n + 1) rest
    rw [List.filterMap_append] at hitems
    have henters : (R.enters op).toList.filterMap (fun a => R.fate a (n + 1) rest) =
        ((R.enters op).bind fun a => R.fate a (n + 1) rest).toList := by
      cases R.enters op with
      | none => rfl
      | some a => cases h : R.fate a (n + 1) rest <;> simp [h]
    rw [henters] at hitems
    refine (hhands.append (hrest.trans (hitems.append_right _))).trans ?_
    refine List.Perm.trans ?_ ((R.fates_cons (items s) n op rest).append_right _).symm
    simp only [Rules.ledger, List.append_assoc]
    refine List.Perm.append_left _ ?_
    refine List.perm_append_comm_assoc _ _ _ |>.trans ?_
    exact List.Perm.append_left _ (List.perm_append_comm_assoc _ _ _)

/-- Over a run that starts with no items, what is owed is handed out, in the steps that owe it. -/
theorem outputs_ledger (B : Buffer R step items Inv) {s : σ} (hInv : Inv s) (hs : items s = [])
    (ops : List ω) : List.Perm (outputs step s 0 ops) (R.ledger [] 0 ops) := by
  have hempty : List.Perm (items s) (R.waiting []) := by
    rw [hs]
    exact List.Perm.refl _
  have h := B.outputs_from hInv hempty 0 ops
  rwa [hs] at h

end Buffer
end Ledger
