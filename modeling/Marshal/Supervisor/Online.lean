import Marshal.Supervisor.Lifecycle

/-! An instance that comes online and stays so.

Only a cancelled instance stops its child. One that is not cancelled, and whose child does
not end by itself, is on its way to being online (`Rising`), and is in the select from
there on: then it takes no step any more. -/
namespace Marshal.Supervisor
namespace Instance

/-- Its state is online, and its child runs. -/
def Up (i : Instance) : Prop := i.state = .online ∧ i.child = .running

instance (i : Instance) : Decidable (Up i) := inferInstanceAs (Decidable (_ ∧ _))

/-- Its child is being stopped. -/
def stopping : Pc → Bool
  | .stop | .term | .kill | .halted => true
  | _ => false

/-- Only a cancelled instance stops its child. -/
theorem stopping_step {i j : Instance} {a : Action} (hi : stopping i.pc = true → i.done = true)
    (h : i.step a = some j) : stopping j.pc = true → j.done = true := by
  intro hstops
  cases moves_of_step h with
  | watchDone hpc hdone => exact hdone
  | reapStop hpc =>
    refine hi ?_
    rcases hpc with hpc | hpc <;> rw [hpc] <;> rfl
  | killTimeout hpc | stopping hpc => exact hi (by rw [hpc]; rfl)
  | cancel => rfl
  | childExit | resetCounters => exact hi hstops
  | spawn | spawnFail | backoffDone | reapExit | backoffOver | measure | online | halted | record | again
  | ended | hook | giveUp | wait => cases hstops

theorem done_before {i j : Instance} {a : Action} (h : i.step a = some j) (hdone : j.done = true) :
    i.done = true ∨ a = .cancel := by
  cases moves_of_step h with
  | cancel => exact .inr rfl
  | spawn | spawnFail | childExit | watchDone | backoffDone | reapExit | reapStop | killTimeout | backoffOver
  | measure | online | stopping | halted | record | again | ended | hook | giveUp | wait | resetCounters =>
    exact .inl hdone

/-- A child ends when it was told to. -/
def OnRequest (i : Instance) : Action → Prop
  | .childExit _ => i.pc = .term ∨ i.pc = .kill
  | .cancel => False
  | _ => True

/-- It is not cancelled, and its child does not end: once it is online, it watches its child. -/
structure Rising (i : Instance) : Prop where
  coherent : Coherent i
  done : i.done = false
  calm : stopping i.pc = false
  child : ∀ waitErr, i.child ≠ .exited waitErr
  watching : i.state = .online → ∃ started, i.pc = .watch started

theorem rising_new (policy : Policy) : Rising (NewInstance policy) where
  coherent := coherent_new policy
  done := rfl
  calm := rfl
  child := by simp [NewInstance]
  watching := by simp [NewInstance]

theorem Rising.up {i : Instance} (h : Rising i) (honline : i.state = .online) : Up i := by
  obtain ⟨started, hpc⟩ := h.watching honline
  refine ⟨honline, ?_⟩
  have hchild := h.coherent.child.mpr (by rw [hpc]; rfl)
  cases hc : i.child with
  | none => exact absurd hc hchild
  | running => rfl
  | exited waitErr => exact absurd hc (h.child waitErr)

/-- An instance that is up and not cancelled is in the select. -/
theorem rising_of_up {i : Instance} (hcoherent : Coherent i) (hdone : i.done = false)
    (hstops : stopping i.pc = true → i.done = true) (hup : Up i) : Rising i := by
  obtain ⟨honline, hrunning⟩ := hup
  have hcalm : stopping i.pc = false := by
    rw [Bool.eq_false_iff]
    intro h
    rw [hstops h] at hdone
    cases hdone
  refine ⟨hcoherent, hdone, hcalm, by simp [hrunning], fun _ => ?_⟩
  have hchild := hcoherent.child.mp (by simp [hrunning])
  have hfits := hcoherent.fits
  rw [honline] at hfits
  cases hpc : i.pc with
  | watch started => exact ⟨started, rfl⟩
  | started started pid =>
    rw [hpc] at hfits
    simp [fits] at hfits
  | stop | term | kill | halted =>
    rw [hpc] at hcalm
    cases hcalm
  | start | exit | decide | account | hook | limit | backoff | returned =>
    rw [hpc] at hchild
    cases hchild

/-- Where the program counter is elsewhere, it is not online. -/
theorem Rising.offline {i : Instance} (h : Rising i) (hpc : ∀ started, i.pc ≠ .watch started) :
    i.state ≠ .online := by
  intro honline
  obtain ⟨started, hwatch⟩ := h.watching honline
  exact hpc started hwatch

/-- It keeps rising, and once online it stays so. -/
theorem rising_step {i j : Instance} {a : Action} (hi : Rising i) (ha : OnRequest i a)
    (h : i.step a = some j) : Rising j ∧ (i.state = .online → j.state = .online) := by
  have hcoherent := coherent_step hi.coherent h
  have hdone := hi.done
  have hbusy : ∀ {pc : Pc}, i.pc = pc → stopping pc = true → False := by
    intro pc hpc hstops
    have hcalm := hi.calm
    rw [hpc, hstops] at hcalm
    cases hcalm
  cases moves_of_step h with
  | childExit => exact ha.elim (fun hpc => (hbusy hpc rfl).elim) fun hpc => (hbusy hpc rfl).elim
  | cancel => exact ha.elim
  | reapStop hpc => exact hpc.elim (fun hpc => (hbusy hpc rfl).elim) fun hpc => (hbusy hpc rfl).elim
  | killTimeout hpc | stopping hpc | halted hpc => exact (hbusy hpc rfl).elim
  | watchDone hpc hcancelled | backoffDone hpc hcancelled =>
    rw [hdone] at hcancelled
    cases hcancelled
  | reapExit hpc hchild => exact absurd hchild (hi.child _)
  | spawn hpc =>
    have hoff := hi.offline (by simp [hpc])
    exact ⟨⟨hcoherent, hdone, rfl, by simp, fun h => absurd h hoff⟩, fun h => absurd h hoff⟩
  | spawnFail hpc | backoffOver hpc | measure hpc | record hpc | again hpc | hook hpc =>
    have hoff := hi.offline (by simp [hpc])
    exact ⟨⟨hcoherent, hdone, rfl, hi.child, fun h => absurd h hoff⟩, fun h => absurd h hoff⟩
  | online hpc => exact ⟨⟨hcoherent, hdone, rfl, hi.child, fun _ => ⟨_, rfl⟩⟩, fun _ => rfl⟩
  | ended hpc hstate =>
    have hoff := hi.offline (by simp [hpc])
    refine ⟨⟨hcoherent, hdone, rfl, hi.child, ?_⟩, fun h => absurd h hoff⟩
    rcases hstate with rfl | rfl <;> simp [set]
  | giveUp hpc | wait hpc =>
    have hoff := hi.offline (by simp [hpc])
    exact ⟨⟨hcoherent, hdone, rfl, hi.child, by simp [set]⟩, fun h => absurd h hoff⟩
  | resetCounters => exact ⟨⟨hcoherent, hdone, hi.calm, hi.child, hi.watching⟩, id⟩

end Instance
end Marshal.Supervisor
