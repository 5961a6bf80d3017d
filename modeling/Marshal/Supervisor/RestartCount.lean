import Marshal.Supervisor.Lifecycle

/-! The restart counter.

`handleExit` counts a restart, and calls the restart hook, before it compares the
crash-loop counter with the limit and before it waits for the backoff. Both counts
are therefore the number of attempts after the first one exactly as long as `Run`
neither gives up nor is cancelled in a backoff: then one restart too many is
counted (`restarts_exact`). -/
namespace Marshal.Supervisor
namespace Instance

/-- The crash-loop counter after one more attempt with this uptime. -/
def unstableAfter (i : Instance) (uptime : Int) : Nat :=
  if uptime < i.policy.minUptime then i.unstable + 1 else 0

/-- A counted restart is followed by its attempt: the accounting does not pass the limit,
and the context does not end a backoff. -/
def Genuine (i : Instance) (a : Action) : Prop :=
  match i.pc, a with
  | .account started, .measure now => (i.unstableAfter (now - started) : Int) ≤ i.policy.maxRestarts
  | .backoff _, .ctxDone => False
  | _, _ => True

instance (i : Instance) (a : Action) : Decidable (Genuine i a) := by
  unfold Genuine
  split <;> exact inferInstance

/-- The newest attempt is not yet followed by a counted restart. -/
def settled : Pc → Bool
  | .start | .hook _ | .limit _ | .backoff _ => false
  | _ => true

/-- The hook was called, and the counter raised, once for each attempt after the first. -/
def RestartsExact (i : Instance) : Prop :=
  i.callbacks = i.attempts.length - 1 ∧ i.restarts = i.attempts.length - 1

instance (i : Instance) : Decidable (RestartsExact i) :=
  inferInstanceAs (Decidable (_ ∧ _))

/-- How far the counters are at each point of `Run`. -/
def counts (i : Instance) : Pc → Prop
  | .start => i.restarts = i.attempts.length ∧ i.callbacks = i.restarts
  | .backoff _ => i.restarts = i.attempts.length ∧ i.callbacks = i.restarts ∧ 0 < i.restarts
  | .hook unstable => i.restarts = i.attempts.length ∧ i.callbacks + 1 = i.restarts ∧
    0 < i.restarts ∧ (unstable : Int) ≤ i.policy.maxRestarts
  | .limit unstable => i.restarts = i.attempts.length ∧ i.callbacks = i.restarts ∧
    0 < i.restarts ∧ (unstable : Int) ≤ i.policy.maxRestarts
  | _ => i.restarts + 1 = i.attempts.length ∧ i.callbacks = i.restarts

/-- The counters include a restart that does not come. -/
def overcounts (i : Instance) : Pc → Prop
  | .hook unstable | .limit unstable => i.restarts = i.attempts.length ∧ 0 < i.restarts ∧
    i.policy.maxRestarts < unstable
  | .returned => i.restarts = i.attempts.length ∧ 0 < i.restarts
  | _ => False

/-- An accounting moves the counter up to the attempts it was one behind of. -/
theorem account_length {i : Instance} (h : i.restarts + 1 = i.attempts.length) (uptime : Int) :
    (i.account uptime).restarts = (i.account uptime).attempts.length := by
  show i.restarts + 1 = (some uptime :: i.attempts.tail).length
  rw [List.length_cons, List.length_tail]
  omega

theorem counts_new (policy : Policy) : counts (NewInstance policy) (NewInstance policy).pc :=
  ⟨rfl, rfl⟩

theorem counts_step {i j : Instance} {a : Action} (hgenuine : Genuine i a)
    (hreset : a ≠ .resetCounters) (hi : counts i i.pc) (h : i.step a = some j) :
    counts j j.pc := by
  cases moves_of_step h with
  | spawn hpc | spawnFail hpc =>
    rw [hpc] at hi
    refine ⟨?_, hi.2⟩
    show i.restarts + 1 = (none :: i.attempts).length
    rw [hi.1, List.length_cons]
  | childExit | cancel => exact hi
  | watchDone hpc | reapExit hpc | killTimeout hpc | online hpc | stopping hpc | halted hpc
  | record hpc | again hpc | ended hpc =>
    rw [hpc] at hi
    exact hi
  | reapStop hpc => rcases hpc with hpc | hpc <;> rw [hpc] at hi <;> exact hi
  | backoffOver hpc =>
    rw [hpc] at hi
    exact ⟨hi.1, hi.2.1⟩
  | backoffDone hpc =>
    simp only [Genuine, hpc] at hgenuine
  | measure hpc =>
    simp only [Genuine, hpc] at hgenuine
    rw [hpc] at hi
    refine ⟨account_length hi.1 _, ?_, Nat.succ_pos _, hgenuine⟩
    show i.callbacks + 1 = i.restarts + 1
    rw [hi.2]
  | hook hpc =>
    rw [hpc] at hi
    exact hi
  | giveUp hpc hover =>
    rw [hpc] at hi
    exact absurd hi.2.2.2 (by omega)
  | wait hpc =>
    rw [hpc] at hi
    exact ⟨hi.1, hi.2.1, hi.2.2.1⟩
  | resetCounters => exact absurd rfl hreset

/-- Only an accounting and the end of a backoff can fail to be genuine. -/
theorem genuine_of_other {i : Instance} {a : Action} (hdone : a ≠ .ctxDone)
    (hmeasure : ∀ now : Int, a ≠ .measure now) : Genuine i a := by
  unfold Genuine
  split
  · exact absurd rfl (hmeasure _)
  · exact absurd rfl hdone
  · trivial

/-- A step that is not genuine counts a restart that does not come. -/
theorem overcounts_of_break {i j : Instance} {a : Action} (hbreak : ¬ Genuine i a)
    (hi : counts i i.pc) (h : i.step a = some j) : overcounts j j.pc := by
  cases moves_of_step h with
  | backoffDone hpc =>
    rw [hpc] at hi
    exact ⟨hi.1, hi.2.2⟩
  | measure hpc =>
    simp only [Genuine, hpc] at hbreak
    rw [hpc] at hi
    refine ⟨account_length hi.1 _, Nat.succ_pos _, ?_⟩
    exact Int.not_le.mp hbreak
  | watchDone hpc =>
    simp only [Genuine, hpc, not_true_eq_false] at hbreak
  | _ => exact absurd (genuine_of_other (by simp) (by simp)) hbreak

/-- Nothing but a reset takes back a counted restart once `Run` is on its way to give up. -/
theorem overcounts_step {i j : Instance} {a : Action} (hreset : a ≠ .resetCounters)
    (hi : overcounts i i.pc) (h : i.step a = some j) : overcounts j j.pc := by
  cases moves_of_step h with
  | childExit | cancel => exact hi
  | hook hpc =>
    rw [hpc] at hi
    exact hi
  | giveUp hpc =>
    rw [hpc] at hi
    exact ⟨hi.1, hi.2.1⟩
  | wait hpc hunder =>
    rw [hpc] at hi
    exact absurd hi.2.2 (by omega)
  | resetCounters => exact absurd rfl hreset
  | reapStop hpc => rcases hpc with hpc | hpc <;> rw [hpc] at hi <;> exact hi.elim
  | spawn hpc | spawnFail hpc | watchDone hpc | reapExit hpc | killTimeout hpc | online hpc
  | stopping hpc | halted hpc | record hpc | again hpc | ended hpc | backoffOver hpc
  | backoffDone hpc | measure hpc =>
    rw [hpc] at hi
    exact hi.elim

theorem restartsExact_of_counts {i : Instance} (hsettled : settled i.pc = true)
    (hi : counts i i.pc) : RestartsExact i := by
  obtain ⟨hrestarts, hcallbacks⟩ : i.restarts + 1 = i.attempts.length ∧ i.callbacks = i.restarts := by
    revert hi hsettled
    cases i.pc <;> simp [settled, counts]
  exact ⟨by omega, by omega⟩

/-- The limit is 0 and the start fails: `Run` gives up at once, with one restart counted. -/
def noRestart : Policy := ⟨.always, 10, 0, 1, 8, 5⟩

def oneFailure : List Action :=
  [.spawnFail 0 (.other "start"), .next, .next, .measure 1, .next, .next]

/-- A child exits, the backoff is waited for and the next child is told to stop. -/
def oneGenuineRestart : List Action :=
  [.spawn 0 7, .next, .childExit none, .reap, .next, .next, .measure 20, .next, .next, .timer,
    .spawn 30 8, .next, .cancel, .ctxDone, .next, .childExit none, .reap, .next]

end Instance
end Marshal.Supervisor
