import Marshal.Supervisor.Instance

/-! What a step of an instance can do.

`Moves` lists the steps once, with the state each leaves, and every invariant is a
case analysis on it. The stored state, the pid and the child follow the program
counter (`Coherent`), and a returned `Run` does nothing any more. -/
namespace Marshal.Supervisor
namespace Instance

/-! ### The steps -/

inductive Moves (i : Instance) : Action → Instance → Prop
  | spawn {now pid : Int} (hpc : i.pc = .start) (hpid : 0 < pid) :
    Moves i (.spawn now pid) { i with
      pc := .started now pid
      child := .running
      children := i.children + 1
      attempts := none :: i.attempts }
  | spawnFail {now : Int} {err : WaitError} (hpc : i.pc = .start) :
    Moves i (.spawnFail now err) { i with
      pc := .exit now (some err), attempts := none :: i.attempts }
  | childExit {waitErr : Option WaitError} (hchild : i.child = .running) :
    Moves i (.childExit waitErr) { i with child := .exited waitErr }
  | watchDone {started : Int} (hpc : i.pc = .watch started) (hdone : i.done = true) :
    Moves i .ctxDone { i with pc := .stop }
  | backoffDone {delay : Int} (hpc : i.pc = .backoff delay) (hdone : i.done = true) :
    Moves i .ctxDone { i.set .stopped 0 none with pc := .returned }
  | reapExit {started : Int} {waitErr : Option WaitError} (hpc : i.pc = .watch started)
      (hchild : i.child = .exited waitErr) :
    Moves i .reap { i with child := .none, pc := .exit started waitErr }
  | reapStop {waitErr : Option WaitError} (hpc : i.pc = .term ∨ i.pc = .kill)
      (hchild : i.child = .exited waitErr) :
    Moves i .reap { i.recordExit waitErr with child := .none, pc := .halted }
  | killTimeout (hpc : i.pc = .term) : Moves i .timer { i with pc := .kill }
  | backoffOver {delay : Int} (hpc : i.pc = .backoff delay) : Moves i .timer { i with pc := .start }
  | measure {now started : Int} (hpc : i.pc = .account started) :
    Moves i (.measure now) (i.account (now - started))
  | online {started pid : Int} (hpc : i.pc = .started started pid) :
    Moves i .next { i.set .online pid (some started) with pc := .watch started }
  | stopping (hpc : i.pc = .stop) : Moves i .next { i.set .stopping 0 none with pc := .term }
  | halted (hpc : i.pc = .halted) : Moves i .next { i.set .stopped 0 none with pc := .returned }
  | record {started : Int} {waitErr : Option WaitError} (hpc : i.pc = .exit started waitErr) :
    Moves i .next { i.recordExit waitErr with pc := .decide started waitErr.isSome }
  | again {started : Int} {failed : Bool} (hpc : i.pc = .decide started failed)
      (hdone : i.done = false) (hmode : restart i.policy.mode failed = true) :
    Moves i .next { i with pc := .account started }
  | ended {started : Int} {failed : Bool} {state : State} (hpc : i.pc = .decide started failed)
      (hstate : state = .stopped ∨ state = .errored) :
    Moves i .next { i.set state 0 none with pc := .returned }
  | hook {unstable : Nat} (hpc : i.pc = .hook unstable) :
    Moves i .next { i with callbacks := i.callbacks + 1, pc := .limit unstable }
  | giveUp {unstable : Nat} (hpc : i.pc = .limit unstable)
      (hover : (unstable : Int) > i.policy.maxRestarts) :
    Moves i .next { i.set .errored 0 none with pc := .returned }
  | wait {unstable : Nat} (hpc : i.pc = .limit unstable)
      (hunder : (unstable : Int) ≤ i.policy.maxRestarts) :
    Moves i .next { i.set .restarting 0 none with
      pc := .backoff (Backoff unstable i.policy.baseBackoff i.policy.maxBackoff) }
  | cancel : Moves i .cancel { i with done := true }
  | resetCounters : Moves i .resetCounters i.ResetCounters

theorem moves_of_decide {i j : Instance} {started : Int} {failed : Bool}
    (hpc : i.pc = .decide started failed) (h : i.decide started failed = j) : Moves i .next j := by
  unfold decide at h
  split at h
  · subst h
    exact .ended hpc (.inl rfl)
  · rename_i hdone
    split at h
    · rename_i hmode
      subst h
      exact .again hpc (by simpa using hdone) hmode
    · split at h
      · subst h
        exact .ended hpc (.inr rfl)
      · subst h
        exact .ended hpc (.inl rfl)

theorem moves_of_limit {i j : Instance} {unstable : Nat} (hpc : i.pc = .limit unstable)
    (h : i.limit unstable = j) : Moves i .next j := by
  unfold limit at h
  split at h
  · rename_i hover
    subst h
    exact .giveUp hpc hover
  · rename_i hunder
    subst h
    exact .wait hpc (by omega)

theorem moves_of_next {i j : Instance} (h : i.next = some j) : Moves i .next j := by
  unfold next at h
  split at h <;> simp only [Option.some.injEq, reduceCtorEq] at h
  · rename_i hpc; subst h; exact .online hpc
  · rename_i hpc; subst h; exact .stopping hpc
  · rename_i hpc; subst h; exact .halted hpc
  · rename_i hpc; subst h; exact .record hpc
  · rename_i hpc; exact moves_of_decide hpc h
  · rename_i hpc; subst h; exact .hook hpc
  · rename_i hpc; exact moves_of_limit hpc h

theorem moves_of_reap {i j : Instance} (h : i.reap = some j) : Moves i .reap j := by
  unfold reap at h
  split at h <;> simp only [Option.some.injEq, reduceCtorEq] at h
  · rename_i hpc hchild; subst h; exact .reapExit hpc hchild
  · rename_i hpc hchild; subst h; exact .reapStop (.inl hpc) hchild
  · rename_i hpc hchild; subst h; exact .reapStop (.inr hpc) hchild

/-- Every step is one of the moves. -/
theorem moves_of_step {i j : Instance} {a : Action} (h : i.step a = some j) : Moves i a j := by
  cases a with
  | spawn now pid =>
    simp only [step, Option.ite_none_right_eq_some, Option.some.injEq] at h
    obtain ⟨⟨hpc, hpid⟩, rfl⟩ := h
    exact .spawn hpc hpid
  | spawnFail now err =>
    simp only [step, Option.ite_none_right_eq_some, Option.some.injEq] at h
    obtain ⟨hpc, rfl⟩ := h
    exact .spawnFail hpc
  | childExit waitErr =>
    simp only [step, Option.ite_none_right_eq_some, Option.some.injEq] at h
    obtain ⟨hchild, rfl⟩ := h
    exact .childExit hchild
  | ctxDone =>
    simp only [step] at h
    split at h <;> simp only [Option.some.injEq, reduceCtorEq] at h
    · rename_i hdone hpc; subst h; exact .watchDone hpc hdone
    · rename_i hdone hpc; subst h; exact .backoffDone hpc hdone
  | reap => exact moves_of_reap h
  | timer =>
    simp only [step] at h
    split at h <;> simp only [Option.some.injEq, reduceCtorEq] at h
    · rename_i hpc; subst h; exact .killTimeout hpc
    · rename_i hpc; subst h; exact .backoffOver hpc
  | measure now =>
    simp only [step] at h
    split at h <;> simp only [Option.some.injEq, reduceCtorEq] at h
    rename_i hpc; subst h; exact .measure hpc
  | next => exact moves_of_next h
  | cancel =>
    simp only [step, Option.some.injEq] at h
    subst h
    exact .cancel
  | resetCounters =>
    simp only [step, Option.some.injEq] at h
    subst h
    exact .resetCounters

/-! ### State, pid and child follow the program counter -/

/-- A child was started and its exit is not received. -/
def hasChild : Pc → Bool
  | .started _ _ | .watch _ | .stop | .term | .kill => true
  | _ => false

/-- What the program counter says of the stored state. After an exit the old state stays
until the decision, so nothing is said there. -/
def fits : Pc → State → Prop
  | .start, state => state = .starting ∨ state = .restarting
  | .started _ pid, state => 0 < pid ∧ (state = .starting ∨ state = .restarting)
  | .watch _, state | .stop, state => state = .online
  | .term, state | .kill, state | .halted, state => state = .stopping
  | .backoff _, state => state = .restarting
  | .returned, state => state = .stopped ∨ state = .errored
  | _, _ => True

structure Coherent (i : Instance) : Prop where
  pid : i.pid ≠ 0 ↔ i.state = .online
  child : i.child ≠ .none ↔ hasChild i.pc = true
  fits : fits i.pc i.state

theorem coherent_new (policy : Policy) : Coherent (NewInstance policy) :=
  ⟨by simp [NewInstance], by simp [NewInstance, hasChild], .inl rfl⟩

theorem coherent_step {i j : Instance} {a : Action} (hi : Coherent i) (h : i.step a = some j) :
    Coherent j := by
  obtain ⟨hpid, hchild, hfits⟩ := hi
  cases moves_of_step h with
  | spawn hpc hpos =>
    rw [hpc] at hfits
    exact ⟨hpid, by simp [hasChild], hpos, hfits⟩
  | spawnFail hpc =>
    rw [hpc] at hchild
    exact ⟨hpid, by simpa [hasChild] using hchild, trivial⟩
  | childExit hrun =>
    refine ⟨hpid, ?_, hfits⟩
    rw [hrun] at hchild
    simpa using hchild
  | watchDone hpc =>
    rw [hpc] at hchild hfits
    exact ⟨hpid, hchild, hfits⟩
  | backoffDone hpc =>
    rw [hpc] at hchild
    exact ⟨by simp [set], by simpa [set, hasChild] using hchild, .inl rfl⟩
  | reapExit => exact ⟨hpid, by simp [hasChild], trivial⟩
  | reapStop hpc =>
    refine ⟨hpid, by simp [hasChild], ?_⟩
    rcases hpc with hpc | hpc <;> rw [hpc] at hfits <;> exact hfits
  | killTimeout hpc =>
    rw [hpc] at hchild hfits
    exact ⟨hpid, hchild, hfits⟩
  | backoffOver hpc =>
    rw [hpc] at hchild hfits
    exact ⟨hpid, hchild, .inr hfits⟩
  | measure hpc =>
    rw [hpc] at hchild
    exact ⟨hpid, hchild, trivial⟩
  | @online started pid hpc =>
    rw [hpc] at hchild hfits
    obtain ⟨hpos, -⟩ := hfits
    refine ⟨?_, hchild, rfl⟩
    have hne : pid ≠ 0 := by omega
    simpa [set, Int.le_of_lt hpos] using hne
  | stopping hpc =>
    rw [hpc] at hchild
    exact ⟨by simp [set], hchild, rfl⟩
  | halted hpc =>
    rw [hpc] at hchild
    exact ⟨by simp [set], hchild, .inl rfl⟩
  | record hpc =>
    rw [hpc] at hchild
    exact ⟨hpid, hchild, trivial⟩
  | again hpc =>
    rw [hpc] at hchild
    exact ⟨hpid, hchild, trivial⟩
  | ended hpc hstate =>
    rw [hpc] at hchild
    refine ⟨?_, hchild, hstate⟩
    rcases hstate with rfl | rfl <;> simp [set]
  | hook hpc =>
    rw [hpc] at hchild
    exact ⟨hpid, hchild, trivial⟩
  | giveUp hpc =>
    rw [hpc] at hchild
    exact ⟨by simp [set], hchild, .inr rfl⟩
  | wait hpc =>
    rw [hpc] at hchild
    exact ⟨by simp [set], hchild, rfl⟩
  | cancel => exact ⟨hpid, hchild, hfits⟩
  | resetCounters => exact ⟨hpid, hchild, hfits⟩

theorem coherent_run {policy : Policy} {as : List Action} {i : Instance}
    (hrun : (machine policy).run (NewInstance policy) as = some i) : Coherent i :=
  (machine policy).run_invariant (fun _ _ _ hi h => coherent_step hi h) (coherent_new policy) hrun

/-! ### A returned instance -/

/-- A returned `Run` stays returned and starts no child. -/
theorem returned_step {i j : Instance} {a : Action} (hpc : i.pc = .returned)
    (h : i.step a = some j) : j.pc = .returned ∧ j.children = i.children := by
  cases moves_of_step h with
  | childExit | cancel | resetCounters => exact ⟨hpc, rfl⟩
  | reapStop hat =>
    rw [hpc] at hat
    simp at hat
  | spawn hat | spawnFail hat | watchDone hat | backoffDone hat | reapExit hat | killTimeout hat
  | backoffOver hat | measure hat | online hat | stopping hat | halted hat | record hat
  | again hat | ended hat | hook hat | giveUp hat | wait hat =>
    rw [hpc] at hat
    cases hat

/-- The policy never changes. -/
theorem policy_step {i j : Instance} {a : Action} (h : i.step a = some j) :
    j.policy = i.policy := by
  cases moves_of_step h <;> rfl

/-! ### After the cancellation -/

/-- One more child can be started: the goroutine stands before a start. -/
def mayStart : Pc → Nat
  | .start | .account _ | .hook _ | .limit _ | .backoff _ => 1
  | _ => 0

/-- A cancelled instance stays cancelled. -/
theorem done_step {i j : Instance} {a : Action} (hdone : i.done = true) (h : i.step a = some j) :
    j.done = true := by
  cases moves_of_step h <;> first | rfl | exact hdone

/-- After the cancellation every start uses up the one chance to start. -/
theorem cancelled_step {i j : Instance} {a : Action} (hdone : i.done = true)
    (h : i.step a = some j) : j.children + mayStart j.pc ≤ i.children + mayStart i.pc := by
  cases moves_of_step h with
  | childExit | cancel | resetCounters => exact Nat.le_refl _
  | reapStop => exact Nat.le_add_right _ _
  | again hpc hundone =>
    rw [hdone] at hundone
    cases hundone
  | spawn hpc | spawnFail hpc | watchDone hpc | backoffDone hpc | reapExit hpc | killTimeout hpc
  | backoffOver hpc | measure hpc | online hpc | stopping hpc | halted hpc | record hpc
  | ended hpc | hook hpc | giveUp hpc | wait hpc =>
    rw [hpc]
    simp [mayStart, set, account, recordExit]

theorem mayStart_le (pc : Pc) : mayStart pc ≤ 1 := by
  cases pc <;> simp [mayStart]

/-- However the run goes on, a cancelled instance starts at most one more child. -/
theorem cancelled_run {policy : Policy} {i j : Instance} {as : List Action} (hdone : i.done = true)
    (hrun : (machine policy).run i as = some j) : j.children ≤ i.children + 1 := by
  have hbound : j.done = true ∧ j.children + mayStart j.pc ≤ i.children + mayStart i.pc := by
    refine (machine policy).run_invariant (I := fun k =>
      k.done = true ∧ k.children + mayStart k.pc ≤ i.children + mayStart i.pc) ?_
      ⟨hdone, Nat.le_refl _⟩ hrun
    intro k a l hk h
    exact ⟨done_step hk.1 h, Nat.le_trans (cancelled_step hk.1 h) hk.2⟩
  have hone := mayStart_le i.pc
  omega

end Instance
end Marshal.Supervisor
