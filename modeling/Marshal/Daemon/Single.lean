import Marshal.Daemon.Slots

/-! The steps of the manager keep one instance a slot.

What the operation under way waits for answers for an instance that no app holds
(`Awaited`). An operation starts an instance only where it has waited for the one in
the slot before, and an operation that unlinks apps goes on to wait for their
instances; the rest moves the instances on (`Single`). -/
namespace Marshal.Daemon
open Config Supervisor
namespace Manager

/-! ### The invariant -/

/-- The operation under way waits for the instance before it ends. -/
def Awaited (m : Manager) (w : Nat) : Prop :=
  ∃ op todo, m.running = some ⟨op, todo⟩ ∧ .wait w ∈ todo

structure Single (m : Manager) : Prop where
  sound : Sound m
  slots : Slots m.apps m.workers (Awaited m)
  guarded : ∀ op todo, m.running = some ⟨op, todo⟩ → Guarded m.apps (Over m.workers) todo

theorem single_of_idle {m : Manager} (hs : Sound m) (hidle : m.running = none)
    (h : Slots m.apps m.workers fun _ => False) : Single m := by
  refine ⟨hs, h.mono fun _ hw => hw.elim, fun op todo hrun => ?_⟩
  rw [hidle] at hrun
  cases hrun

theorem single_of_todo {m : Manager} {op : Op} {todo : List Instr} (hs : Sound m)
    (hrun : m.running = some ⟨op, todo⟩) (h : Slots m.apps m.workers fun w => .wait w ∈ todo)
    (hg : Guarded m.apps (Over m.workers) todo) : Single m := by
  refine ⟨hs, h.mono fun _ hw => .inl ⟨op, todo, hrun, hw⟩, fun op' todo' hrun' => ?_⟩
  rw [hrun] at hrun'
  cases hrun'
  exact hg

/-- While no operation is under way, the apps hold every instance that is not over. -/
theorem Single.idle {m : Manager} (h : Single m) (hidle : m.running = none) :
    Slots m.apps m.workers fun _ => False := by
  refine h.slots.mono fun w hw => ?_
  obtain ⟨op, todo, hrun, -⟩ := hw
  rw [hidle] at hrun
  cases hrun

theorem Single.busy {m : Manager} (h : Single m) {op : Op} {todo : List Instr}
    (hrun : m.running = some ⟨op, todo⟩) :
    Slots m.apps m.workers fun w => .wait w ∈ todo := by
  refine h.slots.mono fun w hw => .inl ?_
  obtain ⟨op', todo', hrun', hmem⟩ := hw
  rw [hrun] at hrun'
  cases hrun'
  exact hmem

theorem wait_mem_stopInstances {insts : List ManagedInstance} {x : ManagedInstance}
    (h : x ∈ insts) : .wait x.inst ∈ stopInstances insts :=
  List.mem_append_right _ (List.mem_map.mpr ⟨x, h, rfl⟩)

/-! ### Calls -/

/-- The same names and instances, in any apps. -/
theorem Slots.congr {apps apps' : List ManagedApp} {ws : List Worker} {P : Nat → Prop}
    (h : Slots apps ws P)
    (heq : apps'.map (fun a => (a.name, a.insts)) = apps.map fun a => (a.name, a.insts)) :
    Slots apps' ws P := by
  have hto : ∀ {as bs : List ManagedApp}, as.map (fun a => (a.name, a.insts)) =
      bs.map (fun a => (a.name, a.insts)) → ∀ a ∈ as, ∃ b ∈ bs, b.name = a.name ∧ b.insts = a.insts := by
    intro as bs hmap a ha
    have hmem : (a.name, a.insts) ∈ bs.map fun a => (a.name, a.insts) := by
      rw [← hmap]
      exact List.mem_map.mpr ⟨a, ha, rfl⟩
    obtain ⟨b, hb, hpair⟩ := List.mem_map.mp hmem
    obtain ⟨hname, hinsts⟩ := Prod.mk.inj hpair
    exact ⟨b, hb, hname, hinsts⟩
  refine ⟨?_, ?_, h.unique, h.coherent⟩
  · intro a ha x hx
    obtain ⟨b, hb, hname, hinsts⟩ := hto heq a ha
    rw [← hname]
    exact h.linked b hb x (hinsts ▸ hx)
  · intro w x hx hpc
    refine (h.held w x hx hpc).imp id ?_
    rintro ⟨b, hb, hdl, hmem, rfl⟩
    obtain ⟨a, ha, -, hinsts⟩ := hto heq.symm b hb
    exact ⟨a, ha, hdl, hinsts ▸ hmem, rfl⟩

theorem Slots.of_idle {apps : List ManagedApp} {ws : List Worker} {P : Nat → Prop}
    (h : Slots apps ws fun _ => False) : Slots apps ws P :=
  h.mono fun _ hw => hw.elim

theorem coherent_worker (app : App) (idx : Nat) (ctxDone : Bool) :
    Instance.Coherent (worker app idx ctxDone).inst :=
  ⟨by simp [worker, NewInstance], by simp [worker, NewInstance, Instance.hasChild], .inl rfl⟩

theorem startInstances_idx (base : Nat) (ctxDone : Bool) (app : App) :
    (startInstances base ctxDone app).1.map (·.idx) = List.range app.instances.toNat := by
  simp [startInstances, worker, Function.comp_def]

theorem mem_started {base : Nat} {ctxDone : Bool} {app : App} {x : Worker}
    (h : x ∈ (startInstances base ctxDone app).1) :
    x.app = app.name ∧ Instance.Coherent x.inst := by
  obtain ⟨idx, -, rfl⟩ := List.mem_map.mp h
  exact ⟨rfl, coherent_worker app idx ctxDone⟩

/-- A started instance is found through its handle. -/
theorem startInstances_get {ws : List Worker} {ctxDone : Bool} {app : App} {x : ManagedInstance}
    (h : x ∈ (startInstances ws.length ctxDone app).2) :
    ∃ y, (ws ++ (startInstances ws.length ctxDone app).1)[x.inst]? = some y ∧
      slotKey y = (app.name, x.instanceID) := by
  obtain ⟨idx, hidx, rfl⟩ := List.mem_map.mp h
  refine ⟨worker app idx ctxDone, ?_, rfl⟩
  rw [List.getElem?_append_right (Nat.le_add_right _ _)]
  simp [startInstances, List.mem_range.mp hidx]

theorem startInstances_link {base : Nat} {ctxDone : Bool} {app : App} {k : Nat}
    (h : k < (startInstances base ctxDone app).1.length) :
    ∃ x ∈ (startInstances base ctxDone app).2, x.inst = base + k := by
  refine ⟨⟨k, label app.name k, base + k⟩, List.mem_map.mpr ⟨k, ?_, rfl⟩, rfl⟩
  simpa [startInstances] using h

/-- An app whose instances are all over gets new ones. -/
theorem Slots.startInstances {apps : List ManagedApp} {ws : List Worker} {p : Nat} {a : ManagedApp}
    (h : Slots apps ws fun _ => False) (app : App) (hnames : (apps.map (·.name)).Nodup)
    (hget : apps[p]? = some a) (happ : app.name = a.name) (hover : ∀ x ∈ a.insts, Over ws x.inst)
    (ctxDone : Bool) :
    Slots (apps.set p { a with insts := (Manager.startInstances ws.length ctxDone app).2 })
      (ws ++ (Manager.startInstances ws.length ctxDone app).1) fun _ => False := by
  apply h.start hnames hget
  · intro x hx
    exact (mem_started hx).1.trans happ
  · rw [startInstances_idx]
    exact List.nodup_range
  · intro x hx
    exact (mem_started hx).2
  · intro _ _ x hx _
    exact hover x hx
  · intro x hx
    exact .inr (hover x hx)
  · intro x hx
    obtain ⟨y, hy, hkey⟩ := startInstances_get hx
    exact .inr ⟨y, hy, happ ▸ hkey⟩
  · intro k hk
    exact startInstances_link hk

theorem single_add {m : Manager} {app : App} (h : Slots m.apps m.workers fun _ => False)
    (hrep : Represents (m.Add app).apps) (hs : Sound (m.Add app)) : Single (m.Add app) := by
  refine single_of_idle hs (Add_running m app) ?_
  cases hname : m.apps.any (·.name == app.name) with
  | true =>
    rw [Add_taken hname]
    exact h
  | false =>
    obtain ⟨happs, hworkers, -⟩ := Add_new hname
    have hnames := hrep.names
    rw [happs] at hnames
    rw [happs, hworkers]
    -- The new app without its instances changes nothing yet.
    let bare : ManagedApp := { m.addedApp app with insts := [] }
    have hbare : Slots (m.apps ++ [bare]) m.workers fun _ => False := by
      refine ⟨?_, ?_, h.unique, h.coherent⟩
      · intro a ha x hx
        rcases List.mem_append.mp ha with ha | ha
        · exact h.linked a ha x hx
        · rw [List.mem_singleton.mp ha] at hx
          cases hx
      · intro w x hx hpc
        obtain ⟨a, ha, hdl, hmem, rfl⟩ := (h.held w x hx hpc).resolve_left id
        exact .inr ⟨a, List.mem_append_left _ ha, hdl, hmem, rfl⟩
    have hget : (m.apps ++ [bare])[m.apps.length]? = some bare := by simp
    have hfull := hbare.startInstances { app with id := m.assignID app } (by simpa using hnames) hget
      rfl (by simp [bare]) m.ctxDone
    simpa [bare, addedApp] using hfull

theorem single_selected {m : Manager} {op : Op} {sel : String} {todo : List Nat → List Instr}
    (h : Slots m.apps m.workers fun _ => False) (hs : Sound (m.selected op sel todo))
    (hg : ∀ ps, resolve m.apps sel = .ok ps → Guarded m.apps (Over m.workers) (todo ps)) :
    Single (m.selected op sel todo) := by
  unfold selected at hs ⊢
  split at hs
  · exact single_of_idle hs rfl h
  · rename_i ps hres
    exact single_of_todo hs rfl h.of_idle (hg ps hres)

/-- A stop with nothing but a final answer after it. -/
theorem guarded_stop_only {apps : List ManagedApp} {R : Nat → Prop} {insts : List ManagedInstance}
    {more : List Instr} (hmore : Quiet more) : Guarded apps R (stopInstances insts ++ more) :=
  guarded_stop (guarded_of_quiet hmore _)

theorem guarded_fresh {apps : List ManagedApp} {R : Nat → Prop} {ps : List Nat} {more : List Instr}
    (hps : ps.Nodup) (hmore : Quiet more) :
    Guarded apps R (stopInstances (collectInstances apps ps) ++ .fresh ps :: more) := by
  refine guarded_stop ⟨hps, ?_, hmore⟩
  intro p hp a hget x hx
  exact .inl ⟨x, mem_collectInstances.mpr ⟨p, hp, a, hget, hx⟩, rfl⟩

theorem guarded_resets {apps : List ManagedApp} {R : Nat → Prop} {insts : List ManagedInstance}
    {rest : List Instr} (h : Guarded apps R rest) :
    Guarded apps R (insts.map (fun x => .resetCounters x.inst) ++ rest) := by
  induction insts with
  | nil => exact h
  | cons x more ih => exact ih

theorem quiet_reload (m : Manager) (ps : List Nat) (sel : String) :
    Quiet (m.reloadSlots ps ++ [.describe sel]) := by
  intro i hi
  rcases List.mem_append.mp hi with hi | hi
  · obtain ⟨p, -, hp⟩ := List.mem_flatMap.mp hi
    cases hget : m.apps[p]? with
    | none => simp [hget] at hp
    | some a =>
      simp only [hget] at hp
      obtain ⟨idx, -, rfl⟩ := List.mem_map.mp hp
      simp
  · rw [List.mem_singleton.mp hi]
    simp

theorem quiet_describe (sel : String) : Quiet [.describe sel] := by
  intro i hi
  rw [List.mem_singleton.mp hi]
  simp

theorem quiet_answer (snaps : List InstanceSnapshot) : Quiet [.answer snaps] := by
  intro i hi
  rw [List.mem_singleton.mp hi]
  simp

/-- The deleted apps are exactly the selected ones: ids tell apps apart. -/
theorem mem_of_deleted {apps : List ManagedApp} (hids : (apps.map (·.id)).Nodup) {ps : List Nat}
    {a : ManagedApp} (ha : a ∈ apps)
    (hdel : (!(ps.filterMap fun p => apps[p]?).any (·.id == a.id)) = false) :
    ∃ p ∈ ps, apps[p]? = some a := by
  rw [Bool.not_eq_false', List.any_eq_true] at hdel
  obtain ⟨b, hb, heq⟩ := hdel
  obtain ⟨p, hp, hget⟩ := List.mem_filterMap.mp hb
  obtain rfl := List.inj_on_of_nodup_map hids ha (List.mem_of_getElem? hget) (beq_iff_eq.mp heq).symm
  exact ⟨p, hp, hget⟩

theorem single_delete {m : Manager} {sel : String} (h : Slots m.apps m.workers fun _ => False)
    (hrep : Represents m.apps) (hs : Sound (m.Delete sel)) : Single (m.Delete sel) := by
  unfold Delete at hs ⊢
  split at hs
  · exact single_of_idle hs rfl h
  · rename_i ps hres
    refine single_of_todo hs rfl (h.unlink _ ?_) (guarded_stop_only (quiet_answer _))
    intro a ha hdel x hx
    obtain ⟨p, hp, hget⟩ := mem_of_deleted hrep.ids ha hdel
    exact List.mem_append_left _ (wait_mem_stopInstances
      (mem_collectInstances.mpr ⟨p, hp, a, hget, hx⟩))

theorem single_updateEnv {m : Manager} {name : String} {env : List (String × String)}
    (h : Slots m.apps m.workers fun _ => False) (hs : Sound (m.UpdateEnv name env)) :
    Single (m.UpdateEnv name env) := by
  unfold UpdateEnv at hs ⊢
  split at hs
  · exact single_of_idle hs rfl h
  · exact single_of_idle hs rfl h
  · rename_i p rest hres
    refine single_of_todo hs rfl (Slots.of_idle (h.congr ?_))
      (guarded_fresh (List.nodup_singleton p) (quiet_describe _))
    rw [List.modify_eq_set_getElem?]
    cases hget : m.apps[p]? with
    | none => rfl
    | some a => exact map_set_eq hget rfl

theorem single_call {m : Manager} {op : Op} (hm : Single m) (hidle : m.running = none)
    (hfresh : FreshID m (.call op)) : Single (m.call op) := by
  have h := hm.idle hidle
  have hrep := hm.sound.represents
  have hs : Sound (m.call op) := sound_call hrep hfresh
  cases op with
  | add app => exact single_add h (represents_add hrep hfresh) hs
  | stop sel => exact single_selected h hs fun ps _ => guarded_stop_only (quiet_describe sel)
  | restart sel =>
    exact single_selected h hs fun ps hres => guarded_fresh (resolve_nodup hres) (quiet_describe sel)
  | reload sel =>
    exact single_selected h hs fun ps _ => guarded_of_quiet (quiet_reload m ps sel) _
  | updateEnv name env => exact single_updateEnv h hs
  | resetCounters sel =>
    exact single_selected h hs fun ps _ => guarded_resets (guarded_of_quiet (quiet_describe sel) _)
  | delete sel => exact single_delete h hrep hs
  | stopAll => exact single_of_todo hs rfl h.of_idle (guarded_stop_only (quiet_answer []))

/-! ### Instructions -/

theorem awaits_nothing {todo : List Instr} (h : Quiet todo) {w : Nat} : .wait w ∉ todo :=
  fun hmem => (h _ hmem).1 w rfl

theorem Slots.quiet {apps : List ManagedApp} {ws : List Worker} {i : Instr} {rest : List Instr}
    (h : Slots apps ws fun w => .wait w ∈ i :: rest) (hi : ∀ w, .wait w ≠ i) (hrest : Quiet rest) :
    Slots apps ws fun _ => False := by
  refine h.mono fun w hw => ?_
  rcases List.mem_cons.mp hw with heq | hw
  · exact absurd heq (hi w)
  · exact absurd hw (awaits_nothing hrest)

theorem Slots.skip {apps : List ManagedApp} {ws : List Worker} {i : Instr} {rest : List Instr}
    (h : Slots apps ws fun w => .wait w ∈ i :: rest) (hi : ∀ w, .wait w ≠ i) :
    Slots apps ws fun w => .wait w ∈ rest := by
  refine h.mono fun w hw => ?_
  rcases List.mem_cons.mp hw with heq | hw
  · exact absurd heq (hi w)
  · exact .inl hw

theorem freshApp_get {m : Manager} {p : Nat} {a : ManagedApp} (hget : m.apps[p]? = some a) :
    (m.freshApp p).apps =
      m.apps.set p { a with insts := (startInstances m.workers.length m.ctxDone a.spec).2 } ∧
    (m.freshApp p).workers =
      m.workers ++ (startInstances m.workers.length m.ctxDone a.spec).1 := by
  unfold freshApp
  rw [hget]
  exact ⟨rfl, rfl⟩

/-- Each of the apps in turn gets new instances. -/
theorem slots_fresh {m : Manager} {ps : List Nat} (h : Slots m.apps m.workers fun _ => False)
    (hrep : Represents m.apps) (hps : ps.Nodup)
    (hover : ∀ p ∈ ps, ∀ a, m.apps[p]? = some a → ∀ x ∈ a.insts, Over m.workers x.inst) :
    Slots (ps.foldl freshApp m).apps (ps.foldl freshApp m).workers fun _ => False := by
  induction ps generalizing m with
  | nil => exact h
  | cons p rest ih =>
    obtain ⟨hp, hrest⟩ := List.nodup_cons.mp hps
    have hrep' := (kept_freshApp m p).represents hrep
    cases hget : m.apps[p]? with
    | none =>
      have hsame : m.freshApp p = m := by
        unfold freshApp
        rw [hget]
      rw [List.foldl_cons, hsame]
      exact ih h hrep hrest fun q hq => hover q (List.mem_cons_of_mem _ hq)
    | some a =>
      obtain ⟨happs, hworkers⟩ := freshApp_get hget
      have hname := (hrep.each a (List.mem_of_getElem? hget)).specName
      have hnext := h.startInstances a.spec hrep.names hget hname (hover p (by simp) a hget) m.ctxDone
      rw [← happs, ← hworkers] at hnext
      refine ih hnext hrep' hrest ?_
      intro q hq b hb x hx
      have hne : p ≠ q := fun heq => hp (heq ▸ hq)
      rw [happs, List.getElem?_set_ne hne] at hb
      rw [hworkers]
      exact over_append (hover q (List.mem_cons_of_mem _ hq) b hb x hx)

theorem replaceSlot_get {m : Manager} {p idx : Nat} {a : ManagedApp} (hget : m.apps[p]? = some a)
    (hidx : idx < a.insts.length) :
    (m.replaceSlot p idx).apps = m.apps.set p { a with
      insts := a.insts.set idx ⟨idx, label a.spec.name idx, m.workers.length⟩ } ∧
    (m.replaceSlot p idx).workers = m.workers ++ [worker a.spec idx m.ctxDone] := by
  unfold replaceSlot
  rw [hget]
  simp [hidx]

/-- One slot gets a new instance. -/
theorem slots_replace {m : Manager} {p idx : Nat} {a : ManagedApp}
    (h : Slots m.apps m.workers fun _ => False) (hrep : Represents m.apps)
    (hget : m.apps[p]? = some a) (hidx : idx < a.spec.instances.toNat)
    (hover : ∀ x, a.insts[idx]? = some x → Over m.workers x.inst) :
    Slots (m.replaceSlot p idx).apps (m.replaceSlot p idx).workers fun _ => False := by
  have ha := hrep.each a (List.mem_of_getElem? hget)
  have hlt : idx < a.insts.length := by
    rw [ha.length]
    exact hidx
  obtain ⟨happs, hworkers⟩ := replaceSlot_get hget hlt
  have hat : ∀ x ∈ a.insts, x.instanceID = idx → a.insts[idx]? = some x := by
    intro x hx hid
    obtain ⟨k, hk⟩ := List.mem_iff_getElem?.mp hx
    rw [← hid, slots_instanceID ha.slots hk]
    exact hk
  rw [happs, hworkers]
  apply h.start hrep.names hget
  · intro x hx
    rw [List.mem_singleton.mp hx]
    exact ha.specName
  · exact List.nodup_singleton _
  · intro x hx
    rw [List.mem_singleton.mp hx]
    exact coherent_worker _ _ _
  · intro y hy x hx hid
    rw [List.mem_singleton.mp hy] at hid
    exact hover x (hat x hx hid)
  · intro x hx
    obtain ⟨k, hk⟩ := List.mem_iff_getElem?.mp hx
    by_cases hkidx : idx = k
    · subst hkidx
      exact .inr (hover x hk)
    · refine .inl (List.mem_iff_getElem?.mpr ⟨k, ?_⟩)
      rw [List.getElem?_set_ne hkidx]
      exact hk
  · intro x hx
    rcases List.mem_or_eq_of_mem_set hx with hx | rfl
    · exact .inl hx
    · refine .inr ⟨worker a.spec idx m.ctxDone, by simp, ?_⟩
      show (a.spec.name, idx) = (a.name, idx)
      rw [ha.specName]
  · intro k hk
    refine ⟨_, List.mem_set hlt _, ?_⟩
    have : k = 0 := by simpa using hk
    rw [this]
    rfl

theorem single_exec {m t : Manager} {op : Op} {todo : List Instr} (hm : Single m)
    (hrun : m.running = some ⟨op, todo⟩) (h : Executes m op todo t) : Single t := by
  have hs := sound_exec hm.sound hrun h
  have hslots := hm.busy hrun
  have hg := hm.guarded op todo hrun
  have hrep := hm.sound.represents
  cases h with
  | @cancel w rest =>
    have he : Evolves m.workers (m.touch w fun i => { i with done := true }).workers :=
      evolves_touch (fun i => (rfl : i.step .cancel = _))
    exact single_of_todo hs rfl ((hslots.skip (by simp)).evolves he) (hg.mono fun _ hw => he.over hw)
  | @wait w rest hdone =>
    have hover := isDone_iff.mp hdone
    have hg : Guarded m.apps (fun v => v = w ∨ Over m.workers v) rest := hg
    refine single_of_todo hs rfl (hslots.mono fun v hv => ?_) (hg.mono fun v hv => ?_)
    · rcases List.mem_cons.mp hv with heq | hv
      · cases heq
        exact .inr hover
      · exact .inl hv
    · rcases hv with rfl | hv
      · exact hover
      · exact hv
  | @fresh ps rest =>
    obtain ⟨hps, hover, hquiet⟩ := hg
    have hfresh := slots_fresh (hslots.quiet (by simp) hquiet) hrep hps hover
    exact single_of_todo hs rfl hfresh.of_idle (guarded_of_quiet hquiet _)
  | @reloadSlot p idx rest =>
    have hidle := hslots.quiet (by simp) hg
    refine single_of_todo hs rfl hidle.of_idle (guarded_stop ⟨?_, hg⟩)
    intro a x hget hx
    have hget : m.apps[p]? = some a := hget
    refine .inl ⟨x, ?_, rfl⟩
    simp [slot, hget, hx]
  | @replace p idx rest =>
    obtain ⟨hover, hquiet⟩ := hg
    obtain ⟨a, hget, hidx⟩ := hm.sound.planned op _ hrun p idx (.inr (by simp))
    have hnext := slots_replace (hslots.quiet (by simp) hquiet) hrep hget hidx
      (fun x hx => hover a x hget hx)
    exact single_of_todo hs rfl hnext.of_idle hquiet
  | online => exact single_of_todo hs rfl (hslots.skip (by simp)) hg
  | goOn =>
    exact single_of_todo hs rfl (hslots.skip (by simp)) (guarded_of_quiet hg _)
  | @resetCounters w rest =>
    have he : Evolves m.workers (m.touch w Instance.ResetCounters).workers :=
      evolves_touch (fun i => (rfl : i.step .resetCounters = _))
    exact single_of_todo hs rfl ((hslots.skip (by simp)).evolves he) (hg.mono fun _ hw => he.over hw)
  | abort | describe | answer => exact single_of_idle hs rfl (hslots.quiet (by simp) hg)

theorem single_step {m t : Manager} {a : Action} (hfresh : FreshID m a) (hm : Single m)
    (h : m.step a = some t) : Single t := by
  have hs := sound_step hfresh hm.sound h
  cases moves_of_step h with
  | call hidle => exact single_call hm hidle hfresh
  | exec hrun hexec => exact single_exec hm hrun hexec
  | worker hmove =>
    have he := evolves_worker hmove
    rw [hmove.eq] at hs he ⊢
    exact ⟨hs, hm.slots.evolves he, fun op todo hrun =>
      (hm.guarded op todo hrun).mono fun _ hw => he.over hw⟩
  | cancelCtx => exact ⟨hs, hm.slots, hm.guarded⟩

theorem single_new : Single {} := single_of_idle sound_new rfl ⟨by simp, by simp, by simp, by simp⟩

theorem single_run {as : List Action} {m : Manager} (hrun : machine.run {} as = some m)
    (hfresh : machine.Along FreshID {} as) : Single m :=
  machine.along_invariant (fun _ _ _ hC hm h => single_step hC hm h) single_new hrun hfresh

end Manager
end Marshal.Daemon
