import Marshal.Daemon.SingleProcess
import Marshal.Supervisor.Online

/-! What holds of a manager however its ids were given.

Names tell the apps apart, an app's handles fill its slots and lead to goroutines of its
own (`Seated`), and a cancelled instance that is not over is waited for, unless the base
context is cancelled too (`Housed`). None of this needs the ids to be distinct. -/
namespace Marshal.Daemon
open Config Supervisor
namespace Manager

/-! ### The instructions of a stop -/

/-- What is cancelled is waited for, and the answer comes last. -/
def Orderly : List Instr → Prop
  | [] => True
  | .cancel w :: rest => .wait w ∈ rest ∧ Orderly rest
  | .describe _ :: rest | .answer _ :: rest => rest = []
  | _ :: rest => Orderly rest

theorem Orderly.tail {i : Instr} {rest : List Instr} (h : Orderly (i :: rest)) : Orderly rest := by
  cases i with
  | cancel => exact h.2
  | describe | answer =>
    obtain rfl : rest = [] := h
    trivial
  | wait | fresh | reloadSlot | replace | online | checkCtx | resetCounters => exact h

theorem orderly_stop (insts : List ManagedInstance) (more : List Instr) (h : Orderly more) :
    Orderly (stopInstances insts ++ more) := by
  have hwaits : ∀ waits : List ManagedInstance, Orderly (waits.map (fun x => .wait x.inst) ++ more) := by
    intro waits
    induction waits with
    | nil => exact h
    | cons x waits ih => exact ih
  have hcancels : ∀ cancels : List ManagedInstance, (∀ x ∈ cancels, x ∈ insts) → Orderly
      (cancels.map (fun x => .cancel x.inst) ++ (insts.map (fun x => .wait x.inst) ++ more)) := by
    intro cancels
    induction cancels with
    | nil => exact fun _ => hwaits insts
    | cons x cancels ih =>
      intro hin
      refine ⟨?_, ih fun y hy => hin y (List.mem_cons_of_mem _ hy)⟩
      refine List.mem_append_right _ (List.mem_append_left _ ?_)
      exact List.mem_map.mpr ⟨x, hin x List.mem_cons_self, rfl⟩
  unfold stopInstances
  rw [List.append_assoc]
  exact hcancels insts fun x hx => hx

theorem orderly_turns (m : Manager) (ps : List Nat) (sel : String) :
    Orderly (m.reloadSlots ps ++ [.describe sel]) := by
  have hturns : ∀ l : List Instr, (∀ i ∈ l, ∃ p idx, i = .reloadSlot p idx) →
      Orderly (l ++ [.describe sel]) := by
    intro l
    induction l with
    | nil => exact fun _ => rfl
    | cons i l ih =>
      intro hl
      obtain ⟨p, idx, rfl⟩ := hl i List.mem_cons_self
      exact ih fun j hj => hl j (List.mem_cons_of_mem _ hj)
  refine hturns _ fun i hi => ?_
  obtain ⟨p, -, hp⟩ := List.mem_flatMap.mp hi
  split at hp
  · obtain ⟨idx, -, rfl⟩ := List.mem_map.mp hp
    exact ⟨p, idx, rfl⟩
  · cases hp

theorem orderly_resets (insts : List ManagedInstance) (sel : String) :
    Orderly (insts.map (fun x => .resetCounters x.inst) ++ [.describe sel]) := by
  induction insts with
  | nil => rfl
  | cons x insts ih => exact ih

theorem orderly_selected {m : Manager} {op op' : Op} {sel : String} {todo : List Nat → List Instr}
    (htodo : ∀ ps, Orderly (todo ps)) {rest : List Instr}
    (h : (m.selected op sel todo).running = some ⟨op', rest⟩) : Orderly rest := by
  unfold selected at h
  split at h
  · cases h
  · cases h
    exact htodo _

theorem orderly_call {m : Manager} {op op' : Op} {todo : List Instr}
    (h : (m.call op).running = some ⟨op', todo⟩) : Orderly todo := by
  cases op with
  | add app =>
    rw [call, Add_running] at h
    cases h
  | stop sel => exact orderly_selected (fun ps => orderly_stop _ [.describe sel] rfl) h
  | restart sel => exact orderly_selected (fun ps => orderly_stop _ [.fresh ps, .describe sel] rfl) h
  | reload sel => exact orderly_selected (fun ps => m.orderly_turns ps sel) h
  | updateEnv name env =>
    simp only [call, UpdateEnv] at h
    split at h
    · cases h
    · cases h
    · cases h
      exact orderly_stop _ [.fresh _, .describe name] rfl
  | resetCounters sel => exact orderly_selected (fun ps => orderly_resets _ sel) h
  | delete sel =>
    simp only [call, Delete] at h
    split at h
    · cases h
    · cases h
      exact orderly_stop _ _ rfl
  | stopAll =>
    cases h
    exact orderly_stop _ _ rfl

theorem orderly_exec {m t : Manager} {op op' : Op} {todo rest : List Instr} (h : Orderly todo)
    (hexec : Executes m op todo t) (hrun : t.running = some ⟨op', rest⟩) : Orderly rest := by
  cases hexec with
  | cancel | wait | fresh | online | goOn | resetCounters =>
    cases hrun
    exact h.tail
  | @reloadSlot p idx more =>
    cases hrun
    exact orderly_stop _ (.replace p idx :: more) h.tail
  | replace =>
    cases hrun
    exact h.tail
  | abort | describe | answer => cases hrun

/-! ### Handles and their goroutines -/

/-- The app's handles fill its slots, and each leads to a goroutine that was started for its slot. -/
structure Seated (ws : List Worker) (a : ManagedApp) : Prop where
  specName : a.spec.name = a.name
  slots : a.insts.map (fun h => (h.instanceID, h.label)) =
    (List.range a.spec.instances.toNat).map fun idx => (idx, label a.name idx)
  linked : ∀ h ∈ a.insts, ∃ x, ws[h.inst]? = some x ∧ slotKey x = (a.name, h.instanceID)

section Seated
variable {ws ws' : List Worker} {a : ManagedApp}

theorem Seated.length (h : Seated ws a) : a.insts.length = a.spec.instances.toNat := slots_length h.slots

theorem WorkersStep.keys (h : WorkersStep ws ws') {w : Nat} {x : Worker} (hx : ws[w]? = some x) :
    ∃ y, ws'[w]? = some y ∧ slotKey y = slotKey x := by
  rcases h with hmoves | ⟨started, rfl, -⟩
  · obtain ⟨y, hy, hkey, -⟩ := hmoves.each w x hx
    exact ⟨y, hy, hkey⟩
  · exact ⟨x, Growing.keep hx, rfl⟩

theorem Seated.moves (h : Seated ws a) (hws : WorkersStep ws ws') : Seated ws' a := by
  refine ⟨h.specName, h.slots, fun x hx => ?_⟩
  obtain ⟨y, hy, hkey⟩ := h.linked x hx
  obtain ⟨z, hz, hkey'⟩ := hws.keys hy
  exact ⟨z, hz, hkey'.trans hkey⟩

theorem seated_start (h : Seated ws a) (ctxDone : Bool) :
    Seated (ws ++ (startInstances ws.length ctxDone a.spec).1)
      { a with insts := (startInstances ws.length ctxDone a.spec).2 } := by
  refine ⟨h.specName, by simp [startInstances, h.specName], fun x hx => ?_⟩
  obtain ⟨y, hy, hkey⟩ := startInstances_get hx
  exact ⟨y, hy, hkey.trans (by rw [h.specName])⟩

theorem seated_replace (h : Seated ws a) (idx : Nat) (ctxDone : Bool) :
    Seated (ws ++ [worker a.spec idx ctxDone])
      { a with insts := a.insts.set idx ⟨idx, label a.spec.name idx, ws.length⟩ } := by
  refine ⟨h.specName, slots_set h.specName h.slots idx ws.length, fun x hx => ?_⟩
  rcases List.mem_or_eq_of_mem_set hx with hx | rfl
  · obtain ⟨y, hy, hkey⟩ := h.linked x hx
    exact ⟨y, Growing.keep hy, hkey⟩
  · exact ⟨worker a.spec idx ctxDone, List.getElem?_concat_length .., by rw [← h.specName]; rfl⟩

/-- All apps of a list, after one of them was set. -/
theorem seated_set {apps : List ManagedApp} {p : Nat} {b : ManagedApp} (h : ∀ a ∈ apps, Seated ws' a)
    (hb : Seated ws' b) : ∀ a ∈ apps.set p b, Seated ws' a := by
  intro a ha
  rcases List.mem_or_eq_of_mem_set ha with ha | rfl
  · exact h a ha
  · exact hb

end Seated

section Step
variable {m t : Manager}

theorem seated_freshApp (h : ∀ a ∈ m.apps, Seated m.workers a) (p : Nat) :
    ∀ a ∈ (m.freshApp p).apps, Seated (m.freshApp p).workers a := by
  cases hget : m.apps[p]? with
  | none =>
    unfold freshApp
    rw [hget]
    exact h
  | some a =>
    obtain ⟨happs, hworkers⟩ := freshApp_get hget
    have hmoves := (freshApp_started m p).step
    rw [happs]
    refine seated_set (fun b hb => (h b hb).moves hmoves) ?_
    rw [hworkers]
    exact seated_start (h a (List.mem_of_getElem? hget)) m.ctxDone

theorem seated_fresh (h : ∀ a ∈ m.apps, Seated m.workers a) (ps : List Nat) :
    ∀ a ∈ (ps.foldl freshApp m).apps, Seated (ps.foldl freshApp m).workers a := by
  induction ps generalizing m with
  | nil => exact h
  | cons p rest ih => exact ih (seated_freshApp h p)

theorem seated_replaceSlot (h : ∀ a ∈ m.apps, Seated m.workers a) {p idx : Nat}
    (hidx : ∀ a, m.apps[p]? = some a → idx < a.spec.instances.toNat) :
    ∀ a ∈ (m.replaceSlot p idx).apps, Seated (m.replaceSlot p idx).workers a := by
  cases hget : m.apps[p]? with
  | none =>
    unfold replaceSlot
    rw [hget]
    exact h
  | some a =>
    have ha := h a (List.mem_of_getElem? hget)
    obtain ⟨happs, hworkers⟩ := replaceSlot_get hget (by rw [ha.length]; exact hidx a hget)
    have hmoves := (replaceSlot_started m p idx).step
    rw [happs]
    refine seated_set (fun b hb => (h b hb).moves hmoves) ?_
    rw [hworkers]
    exact seated_replace ha idx m.ctxDone

theorem seated_call (h : ∀ a ∈ m.apps, Seated m.workers a) (op : Op) :
    ∀ a ∈ (m.call op).apps, Seated (m.call op).workers a := by
  have hmoves := (call_started m op).step
  have hkept : ∀ a ∈ m.apps, Seated (m.call op).workers a := fun a ha => (h a ha).moves hmoves
  cases op with
  | add app =>
    cases hname : m.apps.any (·.name == app.name) with
    | true =>
      intro a ha
      rw [call, Add_taken hname, finish_apps] at ha
      exact hkept a ha
    | false =>
      obtain ⟨happs, hworkers, -⟩ := Add_new hname
      intro a ha
      rw [call, happs] at ha
      rcases List.mem_append.mp ha with ha | ha
      · exact hkept a ha
      · rw [List.mem_singleton.mp ha, call, hworkers]
        refine ⟨rfl, by simp [addedApp, startInstances], fun x hx => ?_⟩
        exact startInstances_get hx
  | stop sel | restart sel | reload sel | resetCounters sel =>
    intro a ha
    exact hkept a (apps_selected ▸ ha)
  | updateEnv name env =>
    intro a ha
    simp only [call, UpdateEnv] at ha
    split at ha
    · exact hkept a ha
    · exact hkept a ha
    · rename_i p rest hres
      rw [List.modify_eq_set_getElem?] at ha
      cases hget : m.apps[p]? with
      | none =>
        rw [hget] at ha
        exact hkept a ha
      | some b =>
        have hset : a ∈ m.apps.set p { b with spec := { b.spec with env := env } } := by
          simpa [hget] using ha
        have hb := hkept b (List.mem_of_getElem? hget)
        have hb' : Seated (m.call (.updateEnv name env)).workers { b with spec := { b.spec with env := env } } :=
          ⟨hb.specName, hb.slots, hb.linked⟩
        exact seated_set hkept hb' a hset
  | delete sel =>
    intro a ha
    simp only [call, Delete] at ha
    split at ha
    · exact hkept a ha
    · exact hkept a (List.mem_of_mem_filter ha)
  | stopAll => exact hkept

theorem seated_exec {op : Op} {todo : List Instr} (h : ∀ a ∈ m.apps, Seated m.workers a)
    (hplan : PlannedTodo m.apps todo) (hmoves : WorkersStep m.workers t.workers)
    (hexec : Executes m op todo t) : ∀ a ∈ t.apps, Seated t.workers a := by
  have hkept : ∀ a ∈ m.apps, Seated t.workers a := fun a ha => (h a ha).moves hmoves
  cases hexec with
  | fresh => exact seated_fresh h _
  | @replace p idx rest =>
    refine seated_replaceSlot h fun a hget => ?_
    obtain ⟨b, hb, hidx⟩ := hplan p idx (.inr (by simp))
    rw [hget, Option.some.injEq] at hb
    rw [hb]
    exact hidx
  | cancel | wait | reloadSlot | online | abort | goOn | resetCounters | describe | answer => exact hkept

/-! ### Where a goroutine comes from -/

theorem Started.old_or_new {ctxDone : Bool} {ws ws' : List Worker} (h : Started ctxDone ws ws') {w : Nat}
    {y : Worker} (hy : ws'[w]? = some y) : ws[w]? = some y ∨ ∃ app idx, y = worker app idx ctxDone := by
  obtain ⟨started, rfl, hnew⟩ := h
  rcases Nat.lt_or_ge w ws.length with hlt | hge
  · rw [List.getElem?_append_left hlt] at hy
    exact .inl hy
  · rw [List.getElem?_append_right hge] at hy
    exact .inr (hnew y (List.mem_of_getElem? hy))

/-- It is new, it stays as it is, or its instance takes a step; it is cancelled by an operation that
waits for it then, or through the base context. -/
inductive Origin (m t : Manager) (w : Nat) (y : Worker) : Prop
  | new {app : App} {idx : Nat} (heq : y = worker app idx m.ctxDone)
  | same (hx : m.workers[w]? = some y)
  | moved {x : Worker} {a : Instance.Action} (hx : m.workers[w]? = some x)
      (hstep : x.inst.step a = some y.inst) (hcancel : a = .cancel → m.ctxDone = true ∨ Awaited t w)

theorem Started.origin {t : Manager} (h : Started m.ctxDone m.workers t.workers) {w : Nat} {y : Worker}
    (hy : t.workers[w]? = some y) : Origin m t w y := by
  rcases h.old_or_new hy with hx | ⟨app, idx, heq⟩
  · exact .same hx
  · exact .new heq

theorem origin_touch {v : Nat} {f : Instance → Instance} {a : Instance.Action}
    (hf : ∀ i, i.step a = some (f i)) (hworkers : t.workers = (m.touch v f).workers)
    (hcancel : a = .cancel → Awaited t v) {w : Nat} {y : Worker} (hy : t.workers[w]? = some y) :
    Origin m t w y := by
  rw [hworkers, touch, List.getElem?_modify] at hy
  obtain ⟨x, hx, rfl⟩ := Option.map_eq_some_iff.mp hy
  by_cases hv : v = w
  · subst hv
    refine .moved hx (a := a) ?_ fun ha => .inr (hcancel ha)
    simpa using hf x.inst
  · simpa [hv] using Origin.same (t := t) hx

theorem origin_step {a : Action} (horderly : ∀ op todo, m.running = some ⟨op, todo⟩ → Orderly todo)
    (hstep : m.step a = some t) {w : Nat} {y : Worker} (hy : t.workers[w]? = some y) : Origin m t w y := by
  cases moves_of_step hstep with
  | @call op hidle => exact (call_started m op).origin hy
  | @exec op todo t hrun hexec =>
    cases hexec with
    | @cancel v rest =>
      have hwaits := (horderly op _ hrun).1
      refine origin_touch (v := v) (a := .cancel) (fun i => rfl) ?_ ?_ hy
      · rfl
      · exact fun _ => ⟨op, rest, rfl, hwaits⟩
    | @resetCounters v rest =>
      refine origin_touch (v := v) (a := .resetCounters) (fun i => rfl) ?_ nofun hy
      rfl
    | @fresh ps rest =>
      have hstarted := fresh_started m ps
      exact Started.origin (t := (ps.foldl freshApp m).proceed op rest) hstarted hy
    | @replace p idx rest =>
      have hstarted := replaceSlot_started m p idx
      exact Started.origin (t := (m.replaceSlot p idx).proceed op _) hstarted hy
    | wait | reloadSlot | online | abort | goOn | describe | answer => exact .same hy
  | @worker v a t x i hmove =>
    rw [hmove.eq] at hy
    by_cases hv : v = w
    · subst hv
      have hlt := (List.getElem?_eq_some_iff.mp hmove.get).1
      have hy' : some { x with inst := i } = some y := by simpa [hlt] using hy
      obtain rfl := Option.some.inj hy'
      refine .moved hmove.get hmove.step fun ha => .inl ?_
      have hown := hmove.own
      rw [ha] at hown
      exact hown
    · rw [List.getElem?_set_ne hv] at hy
      exact .same hy
  | cancelCtx => exact .same hy

/-! ### The invariant -/

/-- Nothing more is to come of it: the base context is cancelled, it is over, or it is waited for. -/
def Ends (m : Manager) (w : Nat) : Prop := m.ctxDone = true ∨ Over m.workers w ∨ Awaited m w

theorem ctxDone_call (m : Manager) (op : Op) : (m.call op).ctxDone = m.ctxDone := by
  cases op with
  | add app =>
    show (m.Add app).ctxDone = m.ctxDone
    cases hname : m.apps.any (·.name == app.name) with
    | true => rw [Add_taken hname, finish_ctxDone]
    | false => exact (Add_new hname).2.2.2
  | stop | restart | reload | resetCounters =>
    simp only [call, selected]
    split <;> rfl
  | updateEnv =>
    simp only [call, UpdateEnv]
    split <;> rfl
  | delete =>
    simp only [call, Delete]
    split <;> rfl
  | stopAll => rfl

theorem ctxDone_fresh (m : Manager) (ps : List Nat) : (ps.foldl freshApp m).ctxDone = m.ctxDone := by
  induction ps generalizing m with
  | nil => rfl
  | cons p ps ih => exact (ih _).trans (freshApp_ctxDone m p)

theorem ctxDone_exec {op : Op} {todo : List Instr} (h : Executes m op todo t) : t.ctxDone = m.ctxDone := by
  cases h with
  | fresh => exact ctxDone_fresh m _
  | @replace p idx =>
    show (m.replaceSlot p idx).ctxDone = m.ctxDone
    unfold replaceSlot
    split <;> rfl
  | cancel | wait | reloadSlot | online | abort | goOn | resetCounters | describe | answer => rfl

theorem ctxDone_step {a : Action} (hctx : m.ctxDone = true) (hstep : m.step a = some t) : t.ctxDone = true := by
  cases moves_of_step hstep with
  | call => rwa [ctxDone_call]
  | exec hrun hexec => rwa [ctxDone_exec hexec]
  | worker hmove =>
    rw [hmove.eq]
    exact hctx
  | cancelCtx => rfl

/-- It is waited for until it is over, or until the end of the base context cuts the operation off. -/
theorem ends_awaited {a : Action} {w : Nat} (horderly : ∀ op todo, m.running = some ⟨op, todo⟩ → Orderly todo)
    (hw : Awaited m w) (hstep : m.step a = some t) : Ends t w := by
  obtain ⟨op, todo, hrun, hmem⟩ := hw
  cases moves_of_step hstep with
  | call hidle =>
    rw [hidle] at hrun
    cases hrun
  | exec hrun' hexec =>
    rw [hrun] at hrun'
    cases hrun'
    have hlast := horderly op todo hrun
    cases hexec with
    | cancel | fresh | replace | online | goOn | resetCounters =>
      exact .inr (.inr ⟨op, _, rfl, by simpa using hmem⟩)
    | reloadSlot => exact .inr (.inr ⟨op, _, rfl, List.mem_append_right _ (by simpa using hmem)⟩)
    | @wait v rest hdone =>
      rcases List.mem_cons.mp hmem with heq | hmem
      · cases heq
        exact .inr (.inl (isDone_iff.mp hdone))
      · exact .inr (.inr ⟨op, rest, rfl, hmem⟩)
    | abort hctx => exact .inl hctx
    | describe | answer =>
      obtain rfl := hlast
      simp at hmem
  | worker hmove =>
    rw [hmove.eq]
    exact .inr (.inr ⟨op, todo, hrun, hmem⟩)
  | cancelCtx => exact .inl rfl

theorem ends_step {a : Action} {w : Nat} (horderly : ∀ op todo, m.running = some ⟨op, todo⟩ → Orderly todo)
    (hw : Ends m w) (hstep : m.step a = some t) : Ends t w := by
  rcases hw with hctx | hover | hwaits
  · exact .inl (ctxDone_step hctx hstep)
  · exact .inr (.inl (over_step hover hstep))
  · exact ends_awaited horderly hwaits hstep

/-- What is kept in every state of every run. -/
structure Housed (m : Manager) : Prop where
  names : (m.apps.map (·.name)).Nodup
  planned : Planned m
  orderly : ∀ op todo, m.running = some ⟨op, todo⟩ → Orderly todo
  seated : ∀ a ∈ m.apps, Seated m.workers a
  coherent : ∀ x ∈ m.workers, Instance.Coherent x.inst
  stops : ∀ x ∈ m.workers, Instance.stopping x.inst.pc = true → x.inst.done = true
  cancelled : ∀ (w : Nat) (x : Worker), m.workers[w]? = some x → x.inst.done = true → Ends m w

theorem housed_new : Housed {} where
  names := List.nodup_nil
  planned := planned_of_idle rfl
  orderly := by simp
  seated := by simp
  coherent := by simp
  stops := by simp
  cancelled := by simp

theorem names_step {a : Action} (h : (m.apps.map (·.name)).Nodup) (hstep : m.step a = some t) :
    (t.apps.map (·.name)).Nodup := by
  cases hkeeps : keepsList a with
  | true =>
    have hsame := congrArg (List.map Prod.snd) (lasting_idName.step hkeeps hstep)
    rw [List.map_map, List.map_map] at hsame
    have hnames : t.apps.map (·.name) = m.apps.map (·.name) := hsame
    rwa [hnames]
  | false =>
    cases moves_of_step hstep with
    | @call op hidle =>
      cases op with
      | add app =>
        show ((m.Add app).apps.map (·.name)).Nodup
        cases hname : m.apps.any (·.name == app.name) with
        | true =>
          rw [Add_taken hname]
          exact h
        | false =>
          rw [(Add_new hname).1, List.map_append, List.map_singleton, ← List.concat_eq_append, List.nodup_concat]
          refine ⟨?_, h⟩
          intro hmem
          obtain ⟨b, hb, heq⟩ := List.mem_map.mp hmem
          rw [List.any_eq_false] at hname
          exact hname b hb (beq_iff_eq.mpr heq)
      | delete sel =>
        show ((m.Delete sel).apps.map (·.name)).Nodup
        unfold Delete
        split
        · exact h
        · exact h.sublist (List.filter_sublist.map _)
      | stop | restart | reload | updateEnv | resetCounters | stopAll => cases hkeeps
    | exec | worker | cancelCtx => cases hkeeps

theorem seated_step {a : Action} (hm : Housed m) (hstep : m.step a = some t) :
    ∀ b ∈ t.apps, Seated t.workers b := by
  have hmoves := workers_step hstep
  cases moves_of_step hstep with
  | call => exact seated_call hm.seated _
  | exec hrun hexec => exact seated_exec hm.seated (hm.planned _ _ hrun) hmoves hexec
  | worker hmove =>
    intro b hb
    rw [hmove.eq] at hb
    exact (hm.seated b hb).moves hmoves
  | cancelCtx => exact hm.seated

theorem orderly_step {a : Action} (hm : Housed m) (hstep : m.step a = some t) :
    ∀ op todo, t.running = some ⟨op, todo⟩ → Orderly todo := by
  intro op todo hrun
  cases moves_of_step hstep with
  | call => exact orderly_call hrun
  | exec hrun' hexec => exact orderly_exec (hm.orderly _ _ hrun') hexec hrun
  | worker hmove =>
    rw [hmove.eq] at hrun
    exact hm.orderly op todo hrun
  | cancelCtx => exact hm.orderly op todo hrun

theorem housed_step {a : Action} (hm : Housed m) (hstep : m.step a = some t) : Housed t where
  names := names_step hm.names hstep
  planned := planned_step hm.planned hstep
  orderly := orderly_step hm hstep
  seated := seated_step hm hstep
  coherent := by
    intro y hy
    obtain ⟨w, hy⟩ := List.mem_iff_getElem?.mp hy
    cases origin_step hm.orderly hstep hy with
    | new heq =>
      rw [heq]
      exact coherent_worker _ _ _
    | same hx => exact hm.coherent y (List.mem_of_getElem? hx)
    | moved hx hmove => exact Instance.coherent_step (hm.coherent _ (List.mem_of_getElem? hx)) hmove
  stops := by
    intro y hy
    obtain ⟨w, hy⟩ := List.mem_iff_getElem?.mp hy
    cases origin_step hm.orderly hstep hy with
    | new heq =>
      intro hpc
      rw [heq] at hpc
      cases hpc
    | same hx => exact hm.stops y (List.mem_of_getElem? hx)
    | moved hx hmove => exact Instance.stopping_step (hm.stops _ (List.mem_of_getElem? hx)) hmove
  cancelled := by
    intro w y hy hdone
    cases origin_step hm.orderly hstep hy with
    | new heq =>
      rw [heq] at hdone
      exact .inl (ctxDone_step hdone hstep)
    | same hx => exact ends_step hm.orderly (hm.cancelled w y hx hdone) hstep
    | moved hx hmove hcancel =>
      rcases Instance.done_before hmove hdone with hdone | hcancelled
      · exact ends_step hm.orderly (hm.cancelled w _ hx hdone) hstep
      · rcases hcancel hcancelled with hctx | hwaits
        · exact .inl (ctxDone_step hctx hstep)
        · exact .inr (.inr hwaits)

theorem housed_run {as : List Action} (hrun : machine.run {} as = some m) : Housed m :=
  machine.run_invariant (fun _ _ _ hI h => housed_step hI h) housed_new hrun

end Step

end Manager
end Marshal.Daemon
