import Marshal.Daemon.Single

/-! One process a slot.

No slot ever has two children (`Single`, the invariant), and what a finished operation
stopped, replaced or deleted is over: the operation waited for it, and an instance that
is over stays so. -/
namespace Marshal.Daemon
open Config Supervisor
namespace Manager

/-! ### An instance that is over -/

/-- The instances move on, or new ones are started. -/
def WorkersStep (ws ws' : List Worker) : Prop :=
  Evolves ws ws' ∨ ∃ started, ws' = ws ++ started ∧ ∀ x ∈ started, Instance.Coherent x.inst

theorem WorkersStep.same {ws ws' : List Worker} (h : ws' = ws) : WorkersStep ws ws' :=
  .inl (h ▸ .refl ws)

/-- New goroutines stand behind those there are. -/
def Started (ctxDone : Bool) (ws ws' : List Worker) : Prop :=
  ∃ started, ws' = ws ++ started ∧ ∀ x ∈ started, ∃ app idx, x = worker app idx ctxDone

theorem Started.same (ctxDone : Bool) (ws : List Worker) : Started ctxDone ws ws :=
  ⟨[], (List.append_nil ws).symm, by simp⟩

theorem Started.trans {ctxDone : Bool} {ws ws' ws'' : List Worker} (h : Started ctxDone ws ws')
    (h' : Started ctxDone ws' ws'') : Started ctxDone ws ws'' := by
  obtain ⟨started, rfl, hnew⟩ := h
  obtain ⟨more, rfl, hmore⟩ := h'
  refine ⟨started ++ more, List.append_assoc _ _ _, fun x hx => ?_⟩
  rcases List.mem_append.mp hx with hx | hx
  · exact hnew x hx
  · exact hmore x hx

theorem Started.instances (ws : List Worker) (ctxDone : Bool) (app : App) :
    Started ctxDone ws (ws ++ (startInstances ws.length ctxDone app).1) := by
  refine ⟨_, rfl, fun x hx => ?_⟩
  obtain ⟨idx, -, rfl⟩ := List.mem_map.mp hx
  exact ⟨app, idx, rfl⟩

theorem Started.step {ctxDone : Bool} {ws ws' : List Worker} (h : Started ctxDone ws ws') : WorkersStep ws ws' := by
  obtain ⟨started, heq, hnew⟩ := h
  refine .inr ⟨started, heq, fun x hx => ?_⟩
  obtain ⟨app, idx, rfl⟩ := hnew x hx
  exact coherent_worker app idx ctxDone

theorem call_started (m : Manager) (op : Op) : Started m.ctxDone m.workers (m.call op).workers := by
  have hsame : ∀ {ws : List Worker}, ws = m.workers → Started m.ctxDone m.workers ws := by
    rintro ws rfl
    exact .same _ _
  cases op with
  | add app =>
    cases hname : m.apps.any (·.name == app.name) with
    | true => exact hsame (by rw [call, Add_taken hname, finish_workers])
    | false =>
      rw [call, (Add_new hname).2.1]
      exact .instances _ _ _
  | stop sel | restart sel | reload sel | resetCounters sel =>
    apply hsame
    simp only [call, selected]
    split <;> rfl
  | updateEnv name env =>
    apply hsame
    simp only [call, UpdateEnv]
    split <;> rfl
  | delete sel =>
    apply hsame
    simp only [call, Delete]
    split <;> rfl
  | stopAll => exact .same _ _

theorem freshApp_started (m : Manager) (p : Nat) : Started m.ctxDone m.workers (m.freshApp p).workers := by
  unfold freshApp
  split
  · exact .same _ _
  · exact .instances _ _ _

theorem freshApp_ctxDone (m : Manager) (p : Nat) : (m.freshApp p).ctxDone = m.ctxDone := by
  unfold freshApp
  split <;> rfl

theorem fresh_started (m : Manager) (ps : List Nat) :
    Started m.ctxDone m.workers (ps.foldl freshApp m).workers := by
  induction ps generalizing m with
  | nil => exact .same _ _
  | cons p rest ih =>
    have hrest := ih (m.freshApp p)
    rw [freshApp_ctxDone] at hrest
    exact (freshApp_started m p).trans hrest

theorem replaceSlot_started (m : Manager) (p idx : Nat) :
    Started m.ctxDone m.workers (m.replaceSlot p idx).workers := by
  unfold replaceSlot
  split
  · exact .same _ _
  · refine ⟨_, rfl, fun x hx => ?_⟩
    rw [List.mem_singleton.mp hx]
    exact ⟨_, idx, rfl⟩

theorem workers_step {m t : Manager} {a : Action} (h : m.step a = some t) :
    WorkersStep m.workers t.workers := by
  cases moves_of_step h with
  | @call op hidle => exact (call_started m op).step
  | exec hrun hexec =>
    cases hexec with
    | cancel => exact .inl (evolves_touch fun i => (rfl : i.step .cancel = _))
    | resetCounters => exact .inl (evolves_touch fun i => (rfl : i.step .resetCounters = _))
    | @fresh ps rest => exact (fresh_started m ps).step
    | @replace p idx rest => exact (replaceSlot_started m p idx).step
    | wait | reloadSlot | online | abort | goOn | describe | answer => exact .same rfl
  | worker hmove => exact .inl (evolves_worker hmove)
  | cancelCtx => exact .same rfl

/-- The instance is over, after so many children, and has none. -/
def Rests (m : Manager) (w children : Nat) : Prop :=
  ∃ x, m.workers[w]? = some x ∧ x.inst.pc = .returned ∧ x.inst.children = children ∧
    Instance.Coherent x.inst

theorem rests_step {m t : Manager} {a : Action} {w n : Nat} (hw : Rests m w n)
    (h : m.step a = some t) : Rests t w n := by
  obtain ⟨x, hx, hpc, hn, hcoherent⟩ := hw
  rcases workers_step h with he | ⟨started, heq, -⟩
  · obtain ⟨y, hy, -, hover, hcoh⟩ := he.each w x hx
    exact ⟨y, hy, (hover hpc).1, (hover hpc).2.trans hn, hcoh hcoherent⟩
  · refine ⟨x, ?_, hpc, hn, hcoherent⟩
    rw [heq]
    exact Growing.keep hx

theorem over_step {m t : Manager} {a : Action} {w : Nat} (hw : Over m.workers w)
    (h : m.step a = some t) : Over t.workers w := by
  rcases workers_step h with he | ⟨started, heq, -⟩
  · exact he.over hw
  · rw [heq]
    exact over_append hw

/-- Whatever happens from here on, the instance has no child and starts none. -/
def Retired (m : Manager) (w : Nat) : Prop :=
  ∃ n, ∀ more t, machine.run m more = some t → ∃ x, t.workers[w]? = some x ∧
    x.inst.children = n ∧ x.inst.child = .none

theorem retired_of_over {m : Manager} (hm : Single m) {w : Nat} (hw : Over m.workers w) :
    Retired m w := by
  obtain ⟨x, hx, hpc⟩ := hw
  have hcoherent := hm.slots.coherent x (List.mem_of_getElem? hx)
  refine ⟨x.inst.children, fun more t hmore => ?_⟩
  obtain ⟨y, hy, hpcy, hn, hcoh⟩ : Rests t w x.inst.children :=
    machine.run_invariant (I := fun u => Rests u w x.inst.children)
      (fun _ _ _ hu h => rests_step hu h) ⟨x, hx, hpc, rfl, hcoherent⟩ hmore
  refine ⟨y, hy, hn, ?_⟩
  by_contra hchild
  have hhas := hcoh.child.mp hchild
  rw [hpcy] at hhas
  cases hhas

/-! ### What an operation waits for -/

/-- The instances an operation stops before it answers. A reload replaces its instances one
by one instead. -/
def stopped (m : Manager) : Op → List ManagedInstance
  | .stop sel | .restart sel | .delete sel => match resolve m.apps sel with
    | .ok ps => collectInstances m.apps ps
    | .error _ => []
  | .updateEnv name _ => match resolve m.apps name with
    | .ok (p :: _) => collectInstances m.apps [p]
    | _ => []
  | .stopAll => collectInstances m.apps (List.range m.apps.length)
  | .add _ | .reload _ | .resetCounters _ => []

theorem awaited_of_todo {m : Manager} {op : Op} {insts : List ManagedInstance} {more : List Instr}
    (hrun : m.running = some ⟨op, stopInstances insts ++ more⟩) {x : ManagedInstance}
    (hx : x ∈ insts) : Awaited m x.inst :=
  ⟨op, _, hrun, List.mem_append_left _ (wait_mem_stopInstances hx)⟩

theorem awaited_call {m : Manager} {op : Op} {x : ManagedInstance} (hx : x ∈ stopped m op) :
    Awaited (m.call op) x.inst := by
  cases op with
  | add | reload | resetCounters => cases hx
  | stop sel | restart sel =>
    cases hres : resolve m.apps sel with
    | error text => simp [stopped, hres] at hx
    | ok ps =>
      simp only [stopped, hres] at hx
      simp only [call, selected, hres]
      exact awaited_of_todo rfl hx
  | delete sel =>
    cases hres : resolve m.apps sel with
    | error text => simp [stopped, hres] at hx
    | ok ps =>
      simp only [stopped, hres] at hx
      simp only [call, Delete, hres]
      exact awaited_of_todo rfl hx
  | updateEnv name env =>
    cases hres : resolve m.apps name with
    | error text => simp [stopped, hres] at hx
    | ok ps =>
      cases ps with
      | nil => simp [stopped, hres] at hx
      | cons p rest =>
        simp only [stopped, hres] at hx
        simp only [call, UpdateEnv, hres]
        refine awaited_of_todo rfl ?_
        obtain ⟨q, hq, a, hget, hmem⟩ := mem_collectInstances.mp hx
        rw [List.mem_singleton.mp hq] at hget
        refine mem_collectInstances.mpr
          ⟨p, by simp, { a with spec := { a.spec with env := env } }, ?_, hmem⟩
        simp [hget]
  | stopAll => exact awaited_of_todo rfl hx

/-- The wait for the instance is still to come, or the instance is over. -/
theorem awaited_step {m t : Manager} {a : Action} (hm : Single m) {w : Nat}
    (hw : Awaited m w ∨ Over m.workers w) (h : m.step a = some t) :
    Awaited t w ∨ Over t.workers w := by
  rcases hw with ⟨op, todo, hrun, hmem⟩ | hover
  · cases moves_of_step h with
    | call hidle =>
      rw [hidle] at hrun
      cases hrun
    | exec hrun' hexec =>
      rw [hrun] at hrun'
      cases hrun'
      have hg := hm.guarded op todo hrun
      cases hexec with
      | cancel | online | resetCounters =>
        exact .inl ⟨op, _, rfl, by simpa using hmem⟩
      | @wait v rest hdone =>
        rcases List.mem_cons.mp hmem with heq | hmem
        · cases heq
          exact .inr (isDone_iff.mp hdone)
        · exact .inl ⟨op, rest, rfl, hmem⟩
      | fresh => exact absurd (by simpa using hmem) (awaits_nothing hg.2.2)
      | replace => exact absurd (by simpa using hmem) (awaits_nothing hg.2)
      | reloadSlot | abort | goOn | describe | answer =>
        exact absurd (by simpa using hmem) (awaits_nothing hg)
    | worker hmove =>
      rw [hmove.eq]
      exact .inl ⟨op, todo, hrun, hmem⟩
    | cancelCtx => exact .inl ⟨op, todo, hrun, hmem⟩
  · exact .inr (over_step hover h)

/-- An instance no app holds is over while no operation is under way. -/
theorem over_of_unlinked {m : Manager} (hm : Single m) (hidle : m.running = none) {w : Nat}
    {x : Worker} (hx : m.workers[w]? = some x) (hfree : ∀ a ∈ m.apps, ∀ h ∈ a.insts, h.inst ≠ w) :
    Over m.workers w := by
  refine ⟨x, hx, ?_⟩
  by_contra hpc
  obtain ⟨a, ha, hdl, hmem, heq⟩ := ((hm.idle hidle).held w x hx hpc).resolve_left id
  exact hfree a ha hdl hmem heq

/-- What an operation stops is over when it has answered. -/
theorem over_of_stopped {m t : Manager} {op : Op} {more : List Action} (hm : Single m)
    (hrun : machine.run m (.call op :: more) = some t) (hidle : t.running = none)
    (hfresh : machine.Along FreshID m (.call op :: more)) {x : ManagedInstance}
    (hx : x ∈ stopped m op) : Over t.workers x.inst := by
  obtain ⟨u, hcall, hmore⟩ := machine.run_cons.mp hrun
  have hu : Single u := single_step hfresh.1 hm hcall
  have hawaited : Awaited u x.inst := by
    have hstep : m.step (.call op) = some u := hcall
    cases moves_of_step hstep with
    | call => exact awaited_call hx
  have hend : Single t ∧ (Awaited t x.inst ∨ Over t.workers x.inst) :=
    machine.along_invariant (C := FreshID)
      (I := fun v => Single v ∧ (Awaited v x.inst ∨ Over v.workers x.inst))
      (fun _ _ _ hC hI h => ⟨single_step hC hI.1 h, awaited_step hI.1 hI.2 h⟩)
      ⟨hu, .inl hawaited⟩ hmore (by simpa [hcall] using hfresh.2)
  rcases hend.2 with ⟨op', todo, hrun', -⟩ | hover
  · rw [hidle] at hrun'
    cases hrun'
  · exact hover

/-- **Each slot has at most one process, as long as ids do not run out.** In every run whose
`Add` calls never need an id above the largest 64-bit integer: no two instances of one app name
and index have a child at the same time; while no operation is under way, an instance that no
app holds — one that was replaced or deleted — has no child and never starts one again; and the
same is true of every instance the last operation stopped. -/
theorem single_process {as : List Action} {m : Manager} (hrun : machine.run {} as = some m)
    (hfresh : machine.Along FreshID {} as) :
    (∀ (v w : Nat) (x y : Worker), m.workers[v]? = some x → m.workers[w]? = some y →
      x.inst.child = .running → y.inst.child = .running → x.app = y.app → x.idx = y.idx → v = w) ∧
    (m.running = none → ∀ (w : Nat) (x : Worker), m.workers[w]? = some x →
      (∀ a ∈ m.apps, ∀ h ∈ a.insts, h.inst ≠ w) → Retired m w) ∧
    (m.running = none → ∀ before op more s, as = before ++ .call op :: more →
      machine.run {} before = some s → ∀ h ∈ stopped s op, Retired m h.inst) := by
  have hm := single_run hrun hfresh
  refine ⟨?_, ?_, ?_⟩
  · intro v w x y hx hy hcx hcy happ hidx
    have hactive : ∀ {v : Nat} {x : Worker}, m.workers[v]? = some x → x.inst.child = .running →
        x.inst.pc ≠ .returned := by
      intro v x hx hc hpc
      have hhas := (hm.slots.coherent x (List.mem_of_getElem? hx)).child.mp (by simp [hc])
      rw [hpc] at hhas
      cases hhas
    exact hm.slots.unique v w x y hx hy (hactive hx hcx) (hactive hy hcy) (by simp [slotKey, happ, hidx])
  · intro hidle w x hx hfree
    exact retired_of_over hm (over_of_unlinked hm hidle hx hfree)
  · rintro hidle before op more s rfl hs h hmem
    obtain ⟨s', hs', hrest⟩ := machine.run_append.mp hrun
    obtain rfl : s = s' := Option.some.inj (hs.symm.trans hs')
    obtain ⟨hbefore, hafter⟩ := (machine.along_append hs).mp hfresh
    exact retired_of_over hm (over_of_stopped (single_run hs hbefore) hrest hidle hafter hmem)

/-- The steps of an instance from its start to its child, and from a cancellation to its end. -/
def comesUp (w : Nat) (pid : Int) : List Action := [.worker w (.spawn 0 pid), .worker w .next]

def goesDown (w : Nat) : List Action :=
  [.worker w .ctxDone, .worker w .next, .worker w (.childExit none), .worker w .reap,
    .worker w .next]

/-- An app is added, comes up and is stopped. -/
def addAndStop : List Action :=
  [.call (.add { name := "web" })] ++ comesUp 0 7 ++ [.call (.stop "web"), .exec] ++ goesDown 0 ++
    [.exec, .exec]

theorem single_process_addAndStop :
    ∃ m, machine.run {} addAndStop = some m ∧ m.running = none ∧ Retired m 0 :=
  ⟨_, rfl, rfl, (@single_process addAndStop _ rfl (by decide)).2.2 rfl
    ([.call (.add { name := "web" })] ++ comesUp 0 7) (.stop "web")
    ([.exec] ++ goesDown 0 ++ [.exec, .exec]) _ rfl rfl ⟨0, label "web" 0, 0⟩ (by decide)⟩

/-- With one id for two apps a deletion of the first unlinks the second, whose instance is not
stopped; it is added anew. -/
def sharedID : List Action :=
  [.call (.add { name := "web", id := 2 ^ 63 - 1 }), .call (.add { name := "db" }),
    .call (.add { name := "api" })] ++ comesUp 1 7 ++ comesUp 2 8 ++ [.call (.delete "db"), .exec] ++
    goesDown 1 ++ [.exec, .exec, .call (.add { name := "api" })] ++ comesUp 3 9

/-- Two processes for one slot, after the ids ran out. -/
theorem two_processes :
    ¬ ∀ (as : List Action) (m : Manager), machine.run {} as = some m →
      ∀ (v w : Nat) (x y : Worker), m.workers[v]? = some x → m.workers[w]? = some y →
        x.inst.child = .running → y.inst.child = .running → x.app = y.app → x.idx = y.idx →
        v = w := by
  intro h
  exact absurd (h sharedID _ rfl 2 3 _ _ rfl rfl rfl rfl rfl rfl) (by decide)

end Manager
end Marshal.Daemon
