import Marshal.Lib.Streak
import Marshal.Supervisor.Lifecycle

/-! The crash-loop limit.

An attempt is brief unless its measured uptime reached `MinUptime`. The counter
`unstable` is the streak of brief attempts that are over (`tally`), it passes the
limit only where `Run` gives up, and so no block of consecutive brief attempts is
longer than `MaxRestarts + 1`. An attempt that is not measured counts as brief: it
is the last one. -/
namespace Marshal.Supervisor
namespace Instance
open History

/-- No uptime of `MinUptime` or more was measured. -/
def brief (policy : Policy) : Option Int → Bool
  | none => true
  | some uptime => uptime < policy.minUptime

/-- What the counter says of the attempts, at each point of `Run`: it is their streak,
without the attempt under way, and within the limit until it is to be compared with it. -/
def tally (i : Instance) : Pc → Prop
  | .start | .backoff _ =>
    streak (brief i.policy) i.attempts = i.unstable ∧ (i.unstable : Int) ≤ i.policy.maxRestarts
  | .hook unstable | .limit unstable =>
    streak (brief i.policy) i.attempts = i.unstable ∧ i.unstable = unstable
  | .returned => True
  | _ => ∃ past, i.attempts = none :: past ∧ streak (brief i.policy) past = i.unstable ∧
    (i.unstable : Int) ≤ i.policy.maxRestarts

structure Counted (i : Instance) : Prop where
  limit : 0 ≤ i.policy.maxRestarts
  tally : tally i i.pc
  blocks : Streaks (brief i.policy) (i.policy.maxRestarts.toNat + 1) i.attempts

theorem counted_new {policy : Policy} (hmax : 0 ≤ policy.maxRestarts) :
    Counted (NewInstance policy) :=
  ⟨hmax, ⟨rfl, hmax⟩, streaks_nil _⟩

/-- A new attempt is brief so far and lengthens the streak by one. -/
theorem counted_attempt {i : Instance} (hi : Counted i) (hpc : i.pc = .start) :
    Streaks (brief i.policy) (i.policy.maxRestarts.toNat + 1) (none :: i.attempts) := by
  obtain ⟨hmax, htally, hblocks⟩ := hi
  rw [hpc] at htally
  obtain ⟨hstreak, hunder⟩ := htally
  apply hblocks.cons
  rw [streak_cons_pos rfl, hstreak]
  omega

/-- The accounting keeps the counter equal to the streak: a brief attempt lengthens both,
another one ends both. -/
theorem counted_account {i : Instance} {started : Int} (hi : Counted i)
    (hpc : i.pc = .account started) (uptime : Int) : Counted (i.account uptime) := by
  obtain ⟨hmax, htally, hblocks⟩ := hi
  rw [hpc] at htally
  obtain ⟨past, hattempts, hstreak, hunder⟩ := htally
  rw [hattempts] at hblocks
  have hnew : streak (brief i.policy) (some uptime :: past) =
      if uptime < i.policy.minUptime then i.unstable + 1 else 0 := by
    by_cases hbrief : uptime < i.policy.minUptime
    · rw [if_pos hbrief, streak_cons_pos (by simpa [brief] using hbrief), hstreak]
    · rw [if_neg hbrief, streak_cons_neg (by simpa [brief] using hbrief)]
  have hlist : (i.account uptime).attempts = some uptime :: past := by
    simp [account, hattempts]
  refine ⟨hmax, ⟨?_, rfl⟩, ?_⟩
  · rw [hlist]
    exact hnew
  · rw [hlist]
    apply hblocks.tail.cons
    show streak (brief i.policy) (some uptime :: past) ≤ i.policy.maxRestarts.toNat + 1
    rw [hnew]
    split <;> omega

theorem counted_step {i j : Instance} {a : Action} (hreset : a ≠ .resetCounters) (hi : Counted i)
    (h : i.step a = some j) : Counted j := by
  have hnew := counted_attempt hi
  have haccount := @counted_account i
  obtain ⟨hmax, htally, hblocks⟩ := hi
  cases moves_of_step h with
  | spawn hpc | spawnFail hpc =>
    rw [hpc] at htally
    exact ⟨hmax, ⟨i.attempts, rfl, htally⟩, hnew hpc⟩
  | childExit | cancel => exact ⟨hmax, htally, hblocks⟩
  | watchDone hpc | reapExit hpc | killTimeout hpc | backoffOver hpc | online hpc | stopping hpc
  | record hpc | again hpc | hook hpc =>
    rw [hpc] at htally
    exact ⟨hmax, htally, hblocks⟩
  | reapStop hpc =>
    rcases hpc with hpc | hpc <;> rw [hpc] at htally <;> exact ⟨hmax, htally, hblocks⟩
  | measure hpc => exact haccount ⟨hmax, htally, hblocks⟩ hpc _
  | backoffDone | halted | ended | giveUp => exact ⟨hmax, trivial, hblocks⟩
  | wait hpc hunder =>
    rw [hpc] at htally
    obtain ⟨hstreak, hunstable⟩ := htally
    refine ⟨hmax, ⟨hstreak, ?_⟩, hblocks⟩
    show (i.unstable : Int) ≤ i.policy.maxRestarts
    rw [hunstable]
    exact hunder
  | resetCounters => exact absurd rfl hreset

theorem policy_run {policy : Policy} {as : List Action} {i : Instance}
    (hrun : (machine policy).run (NewInstance policy) as = some i) : i.policy = policy :=
  (machine policy).run_invariant (I := fun k => k.policy = policy)
    (fun _ _ _ hk h => (policy_step h).trans hk) rfl hrun

/-- **No run without a `ResetCounters` passes the crash-loop limit**: at most
`MaxRestarts + 1` consecutive attempts are brief, a cancelled instance starts at most one
more child, the pid is stored exactly while the state is online, and a returned `Run`
leaves no child, no pid and a final state. -/
theorem crashLoop_bounded {policy : Policy} (hmax : 0 ≤ policy.maxRestarts) {as : List Action}
    {i : Instance} (hrun : (machine policy).run (NewInstance policy) as = some i)
    (hreset : ∀ a ∈ as, a ≠ .resetCounters) :
    (∀ block, block <:+: i.attempts → (∀ a ∈ block, brief policy a = true) →
      (block.length : Int) ≤ policy.maxRestarts + 1) ∧
    (i.done = true → ∀ more j, (machine policy).run i more = some j →
      j.children ≤ i.children + 1) ∧
    (i.pid ≠ 0 ↔ i.state = .online) ∧
    (i.pc = .returned → i.child = .none ∧ i.pid = 0 ∧ (i.state = .stopped ∨ i.state = .errored)) := by
  have hpolicy := policy_run hrun
  have hcoherent := coherent_run hrun
  have hcounted : Counted i :=
    (machine policy).along_invariant (C := fun _ a => a ≠ .resetCounters)
      (fun _ _ _ hC hi h => counted_step hC hi h) (counted_new hmax) hrun
      ((machine policy).along_of_mem (fun _ a ha => hreset a ha) _)
  refine ⟨?_, ?_, hcoherent.pid, ?_⟩
  · intro block hblock hall
    have hlength := hcounted.blocks block hblock (by simpa [hpolicy] using hall)
    rw [hpolicy] at hlength
    omega
  · intro hdone more j hmore
    exact cancelled_run hdone hmore
  · intro hpc
    have hfits := hcoherent.fits
    rw [hpc] at hfits
    refine ⟨?_, ?_, hfits⟩
    · by_contra hchild
      have := hcoherent.child.mp hchild
      rw [hpc] at this
      cases this
    · by_contra hpid
      rw [hcoherent.pid.mp hpid] at hfits
      simp [fits] at hfits

/-- A policy of one restart, and the run in which the start fails twice. -/
def oneRestart : Policy := ⟨.always, 10, 1, 1, 8, 5⟩

def twoFailures : List Action :=
  [.spawnFail 0 (.other "start"), .next, .next, .measure 1, .next, .next, .timer,
    .spawnFail 2 (.other "start"), .next, .next, .measure 3, .next, .next]

theorem crashLoop_bounded_twoFailures :
    ∃ i, (machine oneRestart).run (NewInstance oneRestart) twoFailures = some i ∧
      i.attempts = [some 1, some 1] ∧
      ∀ block, block <:+: i.attempts → (∀ a ∈ block, brief oneRestart a = true) →
        (block.length : Int) ≤ 2 :=
  ⟨_, rfl, rfl, (@crashLoop_bounded oneRestart (by decide) twoFailures _ rfl (by decide)).1⟩

end Instance
end Marshal.Supervisor
