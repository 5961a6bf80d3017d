import Marshal.Daemon.SingleProcess

/-! What an operation on an app's name has left to do.

The guard, the deployer and the dashboard pass an app's name where an operation
takes a selector. The name selects that app, and no other, exactly when it is not
the keyword of more than this app and not the id of another one (`Addressable`).
Then the instructions left name the app's position and its instances only (`Plan`). -/
namespace Marshal.Daemon
open Config Supervisor
namespace Manager

/-- The selector of an operation that takes one. -/
def selector : Op → Option String
  | .stop sel | .restart sel | .reload sel | .updateEnv sel _ | .resetCounters sel | .delete sel =>
    some sel
  | .add _ | .stopAll => none

/-- How often operations called an instance. -/
def calls (m : Manager) (w : Nat) : Nat :=
  match m.workers[w]? with
  | some x => x.calls
  | none => 0

/-- The instance belongs to an app of another name. -/
def Foreign (m : Manager) (n : String) (w : Nat) : Prop :=
  ∃ b ∈ m.apps, b.name ≠ n ∧ ∃ h ∈ b.insts, h.inst = w

/-- The name is not read as anything else: not as the keyword for more than the one app that
bears it, and not as the id of an app of another name. -/
def Addressable (m : Manager) (n : String) : Prop :=
  (n = "all" → ∃ a, m.apps = [a] ∧ a.name = n) ∧
  ∀ a ∈ m.apps, Atoi n = some a.id → a.name = n

/-- What an operation called with the name `n` does to the apps. -/
structure Exact (m : Manager) (op : Op) (n : String) : Prop where
  /-- Where no app has the name, the operation answers with an error and changes nothing. -/
  absent : (∀ a ∈ m.apps, a.name ≠ n) → m.call op = m.finish op (.error notMatched)
  /-- Apps of other names stay as they are, and their instances are not called. -/
  others : ∀ more t, machine.run m (.call op :: more) = some t → (∀ a ∈ more, ∀ o, a ≠ .call o) →
    ∀ b ∈ m.apps, b.name ≠ n → b ∈ t.apps ∧ ∀ h ∈ b.insts, t.calls h.inst = m.calls h.inst
  /-- Where an app has the name, the operation answers without an error, unless a reload is cut
  off by the end of the base context; it has called every instance of the app, and a deletion
  has removed the app. -/
  self : ∀ a ∈ m.apps, a.name = n → ∀ more t, machine.run m (.call op :: more) = some t →
    (∀ a ∈ more, ∀ o, a ≠ .call o) → t.running = none →
    ((∃ sel, op = .reload sel) ∧ t.ctxDone = true ∧ t.results = (op, .error canceled) :: m.results) ∨
    ∃ snaps, t.results = (op, .ok snaps) :: m.results ∧
      (∀ h ∈ a.insts, m.calls h.inst < t.calls h.inst) ∧
      ((∃ sel, op = .delete sel) → ∀ b ∈ t.apps, b.name ≠ n)

/-! ### The name resolves to its app -/

theorem atoi_all : Atoi "all" = none := by decide

theorem resolve_addressable {m : Manager} {n : String} (h : Addressable m n) :
    (∃ k a, m.apps[k]? = some a ∧ a.name = n ∧ resolve m.apps n = .ok [k]) ∨
    ((∀ a ∈ m.apps, a.name ≠ n) ∧ resolve m.apps n = .error notMatched) := by
  obtain ⟨hall, hid⟩ := h
  cases hres : resolve m.apps n with
  | error text =>
    obtain ⟨-, rfl, hnone⟩ := resolve_error hres
    exact .inr ⟨hnone, rfl⟩
  | ok ps =>
    refine .inl ?_
    rcases resolve_cases hres with ⟨hkey, rfl⟩ | ⟨p, a, rfl, hget, -, hmatch⟩
    · obtain ⟨a, happs, hname⟩ := hall hkey
      exact ⟨0, a, by simp [happs], hname, by simp [happs]⟩
    · refine ⟨p, a, hget, ?_, rfl⟩
      rcases hmatch with hmatch | hname
      · exact hid a (List.mem_of_getElem? hget) hmatch
      · exact hname

/-! ### Plans -/

/-- The instruction that answers. -/
def isFinal : Instr → Bool
  | .describe _ | .answer _ => true
  | _ => false

/-- The slot an instruction of a reload is about. -/
def turn : Instr → Option Nat
  | .reloadSlot _ idx | .replace _ idx => some idx
  | _ => none

/-- The slots whose turn in a reload is to come. -/
def turns (todo : List Instr) : List Nat := todo.filterMap turn

/-- What an operation on the app at position `k` may name: this app, and instances that are
not foreign. `listed` says that the app stays in the list. -/
def Allowed (F : Nat → Prop) (op : Op) (k : Nat) (n : String) (listed : Bool) : Instr → Prop
  | .cancel w | .resetCounters w => ¬ F w
  | .fresh ps => listed = true ∧ ps = [k] ∧ ∀ sel, op ≠ .reload sel
  | .reloadSlot p _ | .replace p _ => listed = true ∧ p = k ∧ ∃ sel, op = .reload sel
  | .checkCtx => ∃ sel, op = .reload sel
  | .describe sel => listed = true ∧ sel = n
  | .wait _ | .online _ | .answer _ => True

structure Plan (F : Nat → Prop) (op : Op) (k : Nat) (n : String) (listed : Bool)
    (todo : List Instr) : Prop where
  allowed : ∀ i ∈ todo, Allowed F op k n listed i
  nodup : (turns todo).Nodup
  ends : ∃ pre last, todo = pre ++ [last] ∧ isFinal last = true ∧ ∀ i ∈ pre, isFinal i = false

section Plan
variable {F : Nat → Prop} {op : Op} {k : Nat} {n : String} {listed : Bool}

theorem Plan.tail {i : Instr} {rest : List Instr} (h : Plan F op k n listed (i :: rest))
    (hi : isFinal i = false) : Plan F op k n listed rest := by
  refine ⟨fun j hj => h.allowed j (List.mem_cons_of_mem _ hj), ?_, ?_⟩
  · exact h.nodup.sublist ((List.sublist_cons_self i rest).filterMap _)
  · obtain ⟨pre, last, heq, hlast, hpre⟩ := h.ends
    cases pre with
    | nil =>
      obtain ⟨rfl, -⟩ := List.cons.inj heq
      rw [hi] at hlast
      cases hlast
    | cons j pre =>
      obtain ⟨-, hrest⟩ := List.cons.inj heq
      exact ⟨pre, last, hrest, hlast, fun j hj => hpre j (List.mem_cons_of_mem _ hj)⟩

/-- The answer is the last instruction. -/
theorem Plan.final {i : Instr} {rest : List Instr} (h : Plan F op k n listed (i :: rest))
    (hi : isFinal i = true) : rest = [] := by
  obtain ⟨pre, last, heq, -, hpre⟩ := h.ends
  cases pre with
  | nil => exact (List.cons.inj heq).2
  | cons j pre =>
    obtain ⟨rfl, -⟩ := List.cons.inj heq
    rw [hpre i (by simp)] at hi
    cases hi

/-- More instructions in front, that take no turn and give no answer. -/
theorem Plan.prepend {front rest : List Instr} (h : Plan F op k n listed rest)
    (hfront : ∀ i ∈ front, Allowed F op k n listed i ∧ isFinal i = false ∧ turn i = none) :
    Plan F op k n listed (front ++ rest) := by
  refine ⟨?_, ?_, ?_⟩
  · intro i hi
    rcases List.mem_append.mp hi with hi | hi
    · exact (hfront i hi).1
    · exact h.allowed i hi
  · have hnone : front.filterMap turn = [] :=
      List.filterMap_eq_nil_iff.mpr fun i hi => (hfront i hi).2.2
    rw [turns, List.filterMap_append, hnone, List.nil_append]
    exact h.nodup
  · obtain ⟨pre, last, rfl, hlast, hpre⟩ := h.ends
    refine ⟨front ++ pre, last, (List.append_assoc ..).symm, hlast, ?_⟩
    intro i hi
    rcases List.mem_append.mp hi with hi | hi
    · exact (hfront i hi).2.1
    · exact hpre i hi

theorem plan_stop {insts : List ManagedInstance} {rest : List Instr}
    (h : Plan F op k n listed rest) (hinsts : ∀ x ∈ insts, ¬ F x.inst) :
    Plan F op k n listed (stopInstances insts ++ rest) := by
  apply h.prepend
  intro i hi
  obtain ⟨x, hx, rfl | rfl⟩ := mem_stopInstances hi
  · exact ⟨hinsts x hx, rfl, rfl⟩
  · exact ⟨trivial, rfl, rfl⟩

theorem plan_last {i : Instr} (hi : Allowed F op k n listed i) (hfinal : isFinal i = true)
    (hturn : turn i = none) : Plan F op k n listed [i] := by
  refine ⟨?_, by simp [turns, hturn], [], i, rfl, hfinal, by simp⟩
  intro j hj
  rw [List.mem_singleton.mp hj]
  exact hi

end Plan

/-! ### Calls of instances -/

theorem calls_touch_self {m : Manager} {w : Nat} (hw : w < m.workers.length)
    (f : Instance → Instance) : (m.touch w f).calls w = m.calls w + 1 := by
  simp [calls, touch, List.getElem?_eq_getElem hw]

theorem calls_touch_ne {m : Manager} {v w : Nat} (hv : v ≠ w) (f : Instance → Instance) :
    (m.touch w f).calls v = m.calls v := by
  simp [calls, touch, Ne.symm hv]

theorem calls_append {m t : Manager} {started : List Worker} (heq : t.workers = m.workers ++ started)
    {w : Nat} (hw : w < m.workers.length) : t.calls w = m.calls w := by
  simp [calls, heq, List.getElem?_append_left hw]

theorem calls_of_ge {m : Manager} {w : Nat} (hw : m.workers.length ≤ w) : m.calls w = 0 := by
  simp [calls, List.getElem?_eq_none hw]

theorem calls_le_append {m t : Manager} {started : List Worker}
    (heq : t.workers = m.workers ++ started) (w : Nat) : m.calls w ≤ t.calls w := by
  rcases Nat.lt_or_ge w m.workers.length with hlt | hge
  · exact Nat.le_of_eq (calls_append heq hlt).symm
  · rw [calls_of_ge hge]
    exact Nat.zero_le _

theorem calls_le_touch {m : Manager} {w : Nat} (f : Instance → Instance) (v : Nat) :
    m.calls v ≤ (m.touch w f).calls v := by
  by_cases hv : v = w
  · subst hv
    rcases Nat.lt_or_ge v m.workers.length with hlt | hge
    · rw [calls_touch_self hlt]
      exact Nat.le_succ _
    · rw [calls_of_ge hge]
      exact Nat.zero_le _
  · exact Nat.le_of_eq (calls_touch_ne hv f).symm

theorem calls_worker {m t : Manager} {w : Nat} {a : Instance.Action} {x : Worker} {i : Instance}
    (h : WorkerMoves m w a t x i) (v : Nat) : t.calls v = m.calls v := by
  rw [h.eq]
  by_cases hv : w = v
  · subst hv
    obtain ⟨hlt, hx⟩ := List.getElem?_eq_some_iff.mp h.get
    simp [calls, hlt, hx]
  · simp [calls, List.getElem?_set_ne hv]

end Manager
end Marshal.Daemon
