import Mathlib.Data.List.Basic

/-! Following a growing list.

Rows come with ascending keys, and a cursor is the largest key seen. What is ahead of
the cursor is a queue (`ahead_past_take`): a reader takes from its front, new rows come
in at its back, and some may be let go of in between. What is in the queue and not let go
of is taken once enough is taken (`mem_outputs`). -/
namespace Following
variable {α : Type}

/-! ### Queues -/

inductive Op (α : Type) where
  | put (xs : List α)
  | keep (p : α → Bool)
  | take (n : Nat)

/-- The queue afterwards and what was taken. -/
def step (q : List α) : Op α → List α × List α
  | .put xs => (q ++ xs, [])
  | .keep p => (q.filter p, [])
  | .take n => (q.drop n, q.take n)

def outputs (q : List α) : List (Op α) → List α
  | [] => []
  | op :: rest => (step q op).2 ++ outputs (step q op).1 rest

/-- The item is not let go of as long as it is in the queue. -/
def Spared (x : α) (q : List α) : List (Op α) → Prop
  | [] => True
  | op :: rest => (∀ p, op = .keep p → x ∈ q → p x = true) ∧ Spared x (step q op).1 rest

/-- How many times something is taken. -/
def takes : List (Op α) → Nat
  | [] => 0
  | .take (_ + 1) :: rest => takes rest + 1
  | _ :: rest => takes rest

/-- An item with `front` before it is taken after `front.length + 1` takes at the latest. -/
theorem mem_outputs {x : α} {front back : List α} {ops : List (Op α)}
    (hspared : Spared x (front ++ x :: back) ops) (henough : front.length < takes ops) :
    x ∈ outputs (front ++ x :: back) ops := by
  induction ops generalizing front back with
  | nil => exact absurd henough (Nat.not_lt_zero _)
  | cons op rest ih =>
    obtain ⟨hkeep, hrest⟩ := hspared
    cases op with
    | put xs =>
      simp only [step, List.append_assoc, List.cons_append] at hrest
      simp only [outputs, step, List.nil_append, List.append_assoc, List.cons_append]
      exact ih hrest henough
    | keep p =>
      have hx : p x = true := hkeep p rfl (by simp)
      simp only [step, List.filter_append, List.filter_cons, hx, if_true] at hrest
      simp only [outputs, step, List.nil_append, List.filter_append, List.filter_cons, hx, if_true]
      exact ih hrest (Nat.lt_of_le_of_lt (List.length_filter_le _ _) henough)
    | take n =>
      simp only [outputs, step, List.mem_append]
      by_cases hfront : front.length < n
      · refine .inl ?_
        rw [List.take_append, List.take_cons (by omega)]
        simp
      · have hdrop : (front ++ x :: back).drop n = front.drop n ++ x :: back := by
          rw [List.drop_append, Nat.sub_eq_zero_of_le (Nat.not_lt.mp hfront), List.drop_zero]
        simp only [step, hdrop] at hrest
        rw [hdrop]
        refine .inr (ih hrest ?_)
        cases n with
        | zero => simpa [takes] using henough
        | succ n =>
          have henough : front.length < takes rest + 1 := henough
          rw [List.length_drop]
          omega

/-! ### Cursors -/

section Cursor
variable (key : α → Nat)

def Ascending (rows : List α) : Prop := rows.Pairwise fun a b => key a < key b

def ahead (c : Int) (rows : List α) : List α := rows.filter fun r => decide (c < key r)

/-- The cursor once the rows are read. -/
def past (c : Int) (out : List α) : Int :=
  out.foldl (fun c r => if c < key r then (key r : Int) else c) c

variable {key}

theorem le_past (c : Int) (out : List α) : c ≤ past key c out := by
  induction out generalizing c with
  | nil => exact Int.le_refl c
  | cons r rest ih =>
    refine Int.le_trans ?_ (ih (if c < key r then (key r : Int) else c))
    split <;> omega

theorem key_le_past {c : Int} {out : List α} {r : α} (hr : r ∈ out) : key r ≤ past key c out := by
  induction out generalizing c with
  | nil => cases hr
  | cons x rest ih =>
    rcases List.mem_cons.mp hr with rfl | hr
    · refine Int.le_trans ?_ (le_past (if c < key r then (key r : Int) else c) rest)
      split <;> omega
    · exact ih hr

theorem past_lt {c b : Int} {out : List α} (hc : c < b) (h : ∀ r ∈ out, key r < b) :
    past key c out < b := by
  induction out generalizing c with
  | nil => exact hc
  | cons x rest ih =>
    refine ih ?_ fun r hr => h r (List.mem_cons_of_mem x hr)
    have hx := h x List.mem_cons_self
    show (if c < key x then (key x : Int) else c) < b
    split
    · exact hx
    · exact hc

theorem ahead_ascending {rows : List α} (h : Ascending key rows) (c : Int) :
    Ascending key (ahead key c rows) :=
  List.Pairwise.filter _ h

/-- Reading the first `n` rows ahead leaves the others ahead. -/
theorem ahead_past_take {rows : List α} (h : Ascending key rows) (c : Int) (n : Nat) :
    ahead key (past key c ((ahead key c rows).take n)) rows = (ahead key c rows).drop n := by
  have hsplit := List.take_append_drop n (ahead key c rows)
  have hpairs := ahead_ascending h c
  unfold Ascending at hpairs
  rw [← hsplit, List.pairwise_append] at hpairs
  have hfurther : ahead key (past key c ((ahead key c rows).take n)) rows =
      ahead key (past key c ((ahead key c rows).take n)) (ahead key c rows) := by
    have hle : c ≤ past key c ((ahead key c rows).take n) := le_past c _
    unfold ahead at hle ⊢
    rw [List.filter_filter]
    refine List.filter_congr fun r _ => ?_
    rw [← Bool.decide_and, decide_eq_decide]
    omega
  rw [hfurther]
  calc ahead key (past key c ((ahead key c rows).take n)) (ahead key c rows)
      = ahead key (past key c ((ahead key c rows).take n)) ((ahead key c rows).take n) ++
        ahead key (past key c ((ahead key c rows).take n)) ((ahead key c rows).drop n) := by
        conv_lhs =>
          rw [ahead, ← hsplit, List.filter_append]
        rw [hsplit]
        rfl
    _ = [] ++ (ahead key c rows).drop n := by
        congr 1
        · refine List.filter_eq_nil_iff.mpr fun r hr => ?_
          simpa using key_le_past hr
        · refine List.filter_eq_self.mpr fun r hr => ?_
          have hc : c < key r := by
            have hmem := List.mem_of_mem_drop hr
            simpa [ahead] using (List.mem_filter.mp hmem).2
          simpa using past_lt hc fun r' hr' => by exact_mod_cast hpairs.2.2 r' hr' r hr
    _ = (ahead key c rows).drop n := List.nil_append _

/-- Reading the newest rows leaves none ahead. -/
theorem ahead_past_last {rows out : List α} (h : Ascending key rows) (c : Int)
    (hlast : ∀ r ∈ rows.getLast?, r ∈ out) : ahead key (past key c out) rows = [] := by
  refine List.filter_eq_nil_iff.mpr fun r hr => ?_
  have hle : (key r : Int) ≤ past key c out := by
    cases hget : rows.getLast? with
    | none => simp [List.getLast?_eq_none_iff.mp hget] at hr
    | some last =>
      obtain ⟨front, rfl⟩ := List.getLast?_eq_some_iff.mp hget
      have hlast : (key last : Int) ≤ past key c out := key_le_past (hlast last hget)
      rcases List.mem_append.mp hr with hr | hr
      · have := (List.pairwise_append.mp h).2.2 r hr last (by simp)
        omega
      · rwa [List.mem_singleton.mp hr]
  simpa using hle

end Cursor
end Following
