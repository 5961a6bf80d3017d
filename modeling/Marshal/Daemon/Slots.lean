import Marshal.Daemon.Representation

/-! Slots: an app's name and an instance's index in it.

An instance that is not over is held by an app, or something else answers for it, and
no two of them are for one slot (`Slots`). Instances move on and come to their end
(`Evolves`); starting them is safe where those before them in their slots are over, and
an operation's instructions say which it has yet to wait for (`Guarded`). -/
namespace Marshal.Daemon
open Config Supervisor
namespace Manager

/-- The slot a goroutine was started for. -/
def slotKey (x : Worker) : String × Nat := (x.app, x.idx)

/-- The goroutine's `Run` has returned. -/
def Over (ws : List Worker) (w : Nat) : Prop := ∃ x, ws[w]? = some x ∧ x.inst.pc = .returned

theorem isDone_iff {m : Manager} {w : Nat} : m.isDone w = true ↔ Over m.workers w := by
  unfold isDone Over
  cases m.workers[w]? <;> simp

/-! ### Instances move on -/

/-- The same goroutines later on: one that is over stays over and starts no child. -/
structure Evolves (ws ws' : List Worker) : Prop where
  length : ws'.length = ws.length
  each : ∀ (w : Nat) (x : Worker), ws[w]? = some x → ∃ y, ws'[w]? = some y ∧ slotKey y = slotKey x ∧
    (x.inst.pc = .returned → y.inst.pc = .returned ∧ y.inst.children = x.inst.children) ∧
    (Instance.Coherent x.inst → Instance.Coherent y.inst)

theorem Evolves.refl (ws : List Worker) : Evolves ws ws :=
  ⟨rfl, fun _ x h => ⟨x, h, rfl, fun h => ⟨h, rfl⟩, id⟩⟩

theorem Evolves.over {ws ws' : List Worker} (h : Evolves ws ws') {w : Nat} (hw : Over ws w) :
    Over ws' w := by
  obtain ⟨x, hx, hpc⟩ := hw
  obtain ⟨y, hy, -, hover, -⟩ := h.each w x hx
  exact ⟨y, hy, (hover hpc).1⟩

/-- Only the goroutine at `w` moves. -/
theorem evolves_set {ws : List Worker} {w : Nat} {x y : Worker} (hget : ws[w]? = some x)
    (hkey : slotKey y = slotKey x)
    (hover : x.inst.pc = .returned → y.inst.pc = .returned ∧ y.inst.children = x.inst.children)
    (hcoherent : Instance.Coherent x.inst → Instance.Coherent y.inst) :
    Evolves ws (ws.set w y) := by
  refine ⟨List.length_set, ?_⟩
  intro v z hz
  by_cases hv : w = v
  · subst hv
    rw [hget, Option.some.injEq] at hz
    subst hz
    have hlt : w < ws.length := (List.getElem?_eq_some_iff.mp hget).1
    exact ⟨y, by simp [hlt], hkey, hover, hcoherent⟩
  · refine ⟨z, ?_, rfl, fun h => ⟨h, rfl⟩, id⟩
    rw [List.getElem?_set_ne hv]
    exact hz

theorem evolves_worker {m t : Manager} {w : Nat} {a : Instance.Action} {x : Worker} {i : Instance}
    (h : WorkerMoves m w a t x i) : Evolves m.workers t.workers := by
  rw [h.eq]
  exact evolves_set h.get rfl (fun hpc => Instance.returned_step hpc h.step)
    (fun hx => Instance.coherent_step hx h.step)

/-- A call of an operation that leaves the program counter and the number of children. -/
theorem evolves_touch {m : Manager} {w : Nat} {f : Instance → Instance} {a : Instance.Action}
    (hf : ∀ i, i.step a = some (f i)) : Evolves m.workers (m.touch w f).workers := by
  show Evolves m.workers (m.workers.modify w _)
  rw [List.modify_eq_set_getElem?]
  cases hget : m.workers[w]? with
  | none => exact .refl _
  | some x =>
    exact evolves_set hget rfl (fun hpc => Instance.returned_step hpc (hf x.inst))
      (fun hx => Instance.coherent_step hx (hf x.inst))

/-! ### The slots -/

/-- What the apps hold and what is under way: every handle is on an instance of its slot, an
instance that is not over is held or awaited (`P`), and no slot has two of them. -/
structure Slots (apps : List ManagedApp) (ws : List Worker) (P : Nat → Prop) : Prop where
  linked : ∀ a ∈ apps, ∀ h ∈ a.insts, ∃ x, ws[h.inst]? = some x ∧
    slotKey x = (a.name, h.instanceID)
  held : ∀ (w : Nat) (x : Worker), ws[w]? = some x → x.inst.pc ≠ .returned →
    P w ∨ ∃ a ∈ apps, ∃ h ∈ a.insts, h.inst = w
  unique : ∀ (v w : Nat) (x y : Worker), ws[v]? = some x → ws[w]? = some y → x.inst.pc ≠ .returned →
    y.inst.pc ≠ .returned → slotKey x = slotKey y → v = w
  coherent : ∀ x ∈ ws, Instance.Coherent x.inst

section Slots
variable {apps : List ManagedApp} {ws : List Worker} {P : Nat → Prop}

theorem Slots.mono {Q : Nat → Prop} (h : Slots apps ws P) (hPQ : ∀ w, P w → Q w ∨ Over ws w) :
    Slots apps ws Q := by
  refine ⟨h.linked, ?_, h.unique, h.coherent⟩
  intro w x hx hpc
  rcases h.held w x hx hpc with hP | hlink
  · rcases hPQ w hP with hQ | ⟨y, hy, hover⟩
    · exact .inl hQ
    · rw [hx, Option.some.injEq] at hy
      subst hy
      exact absurd hover hpc
  · exact .inr hlink

/-- An entry of the later list was there before. -/
theorem Evolves.back {ws' : List Worker} (h : Evolves ws ws') {w : Nat} {y : Worker}
    (hy : ws'[w]? = some y) : ∃ x, ws[w]? = some x ∧ slotKey y = slotKey x ∧
      (y.inst.pc ≠ .returned → x.inst.pc ≠ .returned) ∧
      (Instance.Coherent x.inst → Instance.Coherent y.inst) := by
  obtain ⟨hlt, -⟩ := List.getElem?_eq_some_iff.mp hy
  rw [h.length] at hlt
  have hget : ws[w]? = some ws[w] := List.getElem?_eq_getElem hlt
  obtain ⟨z, hz, hkey, hover, hcoherent⟩ := h.each w _ hget
  rw [hy, Option.some.injEq] at hz
  subst hz
  exact ⟨_, hget, hkey, fun hpc hx => hpc (hover hx).1, hcoherent⟩

theorem Slots.evolves {ws' : List Worker} (h : Slots apps ws P) (he : Evolves ws ws') :
    Slots apps ws' P := by
  refine ⟨?_, ?_, ?_, ?_⟩
  · intro a ha x hx
    obtain ⟨y, hy, hkey⟩ := h.linked a ha x hx
    obtain ⟨z, hz, hkey', -⟩ := he.each _ _ hy
    exact ⟨z, hz, hkey'.trans hkey⟩
  · intro w y hy hpc
    obtain ⟨x, hx, -, hact, -⟩ := he.back hy
    exact h.held w x hx (hact hpc)
  · intro v w y z hy hz hpcy hpcz hkey
    obtain ⟨x, hx, hkeyx, hactx, -⟩ := he.back hy
    obtain ⟨u, hu, hkeyu, hactu, -⟩ := he.back hz
    exact h.unique v w x u hx hu (hactx hpcy) (hactu hpcz) (hkeyx ▸ hkeyu ▸ hkey)
  · intro y hy
    obtain ⟨w, hw⟩ := List.mem_iff_getElem?.mp hy
    obtain ⟨x, hx, -, -, hcoherent⟩ := he.back hw
    exact hcoherent (h.coherent x (List.mem_of_getElem? hx))

/-- Two apps of one name are one app. -/
theorem app_unique (hnames : (apps.map (·.name)).Nodup) {a b : ManagedApp} (ha : a ∈ apps)
    (hb : b ∈ apps) (h : a.name = b.name) : a = b :=
  List.inj_on_of_nodup_map hnames ha hb h

/-- An instance of a slot that is not over is the one the app holds there. -/
theorem Slots.held_by (h : Slots apps ws fun _ => False) (hnames : (apps.map (·.name)).Nodup)
    {a : ManagedApp} (ha : a ∈ apps) {w : Nat} {x : Worker} (hx : ws[w]? = some x)
    (hpc : x.inst.pc ≠ .returned) (happ : x.app = a.name) :
    ∃ h ∈ a.insts, h.inst = w ∧ h.instanceID = x.idx := by
  rcases h.held w x hx hpc with hP | ⟨b, hb, hdl, hmem, rfl⟩
  · exact hP.elim
  · obtain ⟨y, hy, hkey⟩ := h.linked b hb hdl hmem
    rw [hx, Option.some.injEq] at hy
    subst hy
    obtain ⟨hname, hidx⟩ := Prod.mk.inj hkey
    obtain rfl := app_unique hnames ha hb (happ.symm.trans hname)
    exact ⟨hdl, hmem, rfl, hidx.symm⟩

theorem mem_set_of_mem {p : Nat} {a b c : ManagedApp} (hget : apps[p]? = some a)
    (hc : c ∈ apps) : c = a ∨ c ∈ apps.set p b := by
  obtain ⟨k, hk⟩ := List.mem_iff_getElem?.mp hc
  by_cases hkp : p = k
  · subst hkp
    rw [hk, Option.some.injEq] at hget
    exact .inl hget
  · refine .inr (List.mem_iff_getElem?.mpr ⟨k, ?_⟩)
    rw [List.getElem?_set_ne hkp]
    exact hk

theorem over_append {started : List Worker} {w : Nat} (h : Over ws w) : Over (ws ++ started) w := by
  obtain ⟨x, hx, hpc⟩ := h
  exact ⟨x, Growing.keep hx, hpc⟩

/-- A slot has one instance that is not over, also when the new ones are counted: these are for slots
of their own, in which what was started before is over. -/
theorem unique_append {started : List Worker}
    (hold : ∀ (v w : Nat) (x y : Worker), ws[v]? = some x → ws[w]? = some y → x.inst.pc ≠ .returned →
      y.inst.pc ≠ .returned → slotKey x = slotKey y → v = w)
    (hnodup : (started.map (·.idx)).Nodup)
    (hcross : ∀ {v : Nat} {x y : Worker}, ws[v]? = some x → x.inst.pc ≠ .returned → y ∈ started →
      slotKey x ≠ slotKey y) {v w : Nat} {x y : Worker} (hx : (ws ++ started)[v]? = some x)
    (hy : (ws ++ started)[w]? = some y) (hpcx : x.inst.pc ≠ .returned) (hpcy : y.inst.pc ≠ .returned)
    (hkey : slotKey x = slotKey y) : v = w := by
  rcases Nat.lt_or_ge v ws.length with hv | hv <;> rcases Nat.lt_or_ge w ws.length with hw | hw
  · rw [List.getElem?_append_left hv] at hx
    rw [List.getElem?_append_left hw] at hy
    exact hold v w x y hx hy hpcx hpcy hkey
  · rw [List.getElem?_append_left hv] at hx
    rw [List.getElem?_append_right hw] at hy
    exact absurd hkey (hcross hx hpcx (List.mem_of_getElem? hy))
  · rw [List.getElem?_append_right hv] at hx
    rw [List.getElem?_append_left hw] at hy
    exact absurd hkey.symm (hcross hy hpcy (List.mem_of_getElem? hx))
  · rw [List.getElem?_append_right hv] at hx
    rw [List.getElem?_append_right hw] at hy
    have hidx : x.idx = y.idx := (Prod.mk.inj hkey).2
    have hxi : (started.map (·.idx))[v - ws.length]? = some x.idx := by simp [hx]
    have hyi : (started.map (·.idx))[w - ws.length]? = some x.idx := by simp [hy, hidx]
    have hlt : v - ws.length < (started.map (·.idx)).length := (List.getElem?_eq_some_iff.mp hxi).1
    have hsame := (List.getElem?_inj hlt hnodup).mp (hxi.trans hyi.symm)
    omega

/-- Starting instances of one app: no slot gets a second one if those started before in these
slots are over, and the app holds what is not over. -/
theorem Slots.start (h : Slots apps ws fun _ => False) (hnames : (apps.map (·.name)).Nodup)
    {p : Nat} {a : ManagedApp} (hget : apps[p]? = some a) {started : List Worker}
    {insts : List ManagedInstance} (happ : ∀ x ∈ started, x.app = a.name)
    (hnodup : (started.map (·.idx)).Nodup) (hcoherent : ∀ x ∈ started, Instance.Coherent x.inst)
    (hfree : ∀ x ∈ started, ∀ h ∈ a.insts, h.instanceID = x.idx → Over ws h.inst)
    (hkeep : ∀ h ∈ a.insts, h ∈ insts ∨ Over ws h.inst)
    (hnew : ∀ h ∈ insts, h ∈ a.insts ∨
      ∃ x, (ws ++ started)[h.inst]? = some x ∧ slotKey x = (a.name, h.instanceID))
    (hlink : ∀ k, k < started.length → ∃ h ∈ insts, h.inst = ws.length + k) :
    Slots (apps.set p { a with insts := insts }) (ws ++ started) fun _ => False := by
  have ha : a ∈ apps := List.mem_of_getElem? hget
  have hold : ∀ {w : Nat} {x : Worker}, ws[w]? = some x → (ws ++ started)[w]? = some x := by
    intro w x hx
    exact Growing.keep hx
  have hself : { a with insts := insts } ∈ apps.set p { a with insts := insts } :=
    List.mem_set (List.getElem?_eq_some_iff.mp hget).1 _
  -- An instance that is not over and one that is started are not for one slot.
  have hcross : ∀ {v : Nat} {x y : Worker}, ws[v]? = some x → x.inst.pc ≠ .returned →
      y ∈ started → slotKey x ≠ slotKey y := by
    intro v x y hx hpc hy hkey
    obtain ⟨hname, hidx⟩ := Prod.mk.inj hkey
    obtain ⟨hdl, hmem, rfl, hid⟩ := h.held_by hnames ha hx hpc (hname.trans (happ y hy))
    obtain ⟨z, hz, hover⟩ := hfree y hy hdl hmem (hid.trans hidx)
    rw [hx, Option.some.injEq] at hz
    subst hz
    exact hpc hover
  refine ⟨?_, ?_, ?_, ?_⟩
  · intro b hb hdl hmem
    have hlinked : ∀ b ∈ apps, ∀ hdl ∈ b.insts, ∃ x, (ws ++ started)[hdl.inst]? = some x ∧
        slotKey x = (b.name, hdl.instanceID) := by
      intro b hb hdl hmem
      obtain ⟨x, hx, hkey⟩ := h.linked b hb hdl hmem
      exact ⟨x, hold hx, hkey⟩
    rcases List.mem_or_eq_of_mem_set hb with hb | rfl
    · exact hlinked b hb hdl hmem
    · rcases hnew hdl hmem with hmem | hstarted
      · exact hlinked a ha hdl hmem
      · exact hstarted
  · intro w x hx hpc
    refine .inr ?_
    rcases Nat.lt_or_ge w ws.length with hlt | hge
    · rw [List.getElem?_append_left hlt] at hx
      obtain ⟨b, hb, hdl, hmem, rfl⟩ := (h.held w x hx hpc).resolve_left id
      rcases mem_set_of_mem (b := { a with insts := insts }) hget hb with rfl | hset
      · rcases hkeep hdl hmem with hkept | ⟨y, hy, hover⟩
        · exact ⟨_, hself, hdl, hkept, rfl⟩
        · rw [hx, Option.some.injEq] at hy
          subst hy
          exact absurd hover hpc
      · exact ⟨b, hset, hdl, hmem, rfl⟩
    · rw [List.getElem?_append_right hge] at hx
      obtain ⟨hdl, hmem, hinst⟩ := hlink (w - ws.length) (List.getElem?_eq_some_iff.mp hx).1
      exact ⟨_, hself, hdl, hmem, by omega⟩
  · intro v w x y hx hy hpcx hpcy hkey
    exact unique_append h.unique hnodup hcross hx hy hpcx hpcy hkey
  · intro x hx
    rcases List.mem_append.mp hx with hx | hx
    · exact h.coherent x hx
    · exact hcoherent x hx

/-- Unlinking apps: their instances are awaited from now on. -/
theorem Slots.unlink (h : Slots apps ws fun _ => False) (keep : ManagedApp → Bool)
    (hP : ∀ a ∈ apps, keep a = false → ∀ h ∈ a.insts, P h.inst) :
    Slots (apps.filter keep) ws P := by
  refine ⟨?_, ?_, h.unique, h.coherent⟩
  · intro a ha hdl hmem
    exact h.linked a (List.mem_of_mem_filter ha) hdl hmem
  · intro w x hx hpc
    obtain ⟨a, ha, hdl, hmem, rfl⟩ := (h.held w x hx hpc).resolve_left id
    cases hkeep : keep a with
    | true => exact .inr ⟨a, List.mem_filter.mpr ⟨ha, hkeep⟩, hdl, hmem, rfl⟩
    | false => exact .inl (hP a ha hkeep hdl hmem)

end Slots

/-! ### Instructions wait before they start -/

/-- Nothing here waits for an instance or starts one at once. -/
def Quiet (todo : List Instr) : Prop :=
  ∀ i ∈ todo, (∀ w, i ≠ .wait w) ∧ (∀ ps, i ≠ .fresh ps) ∧ ∀ p idx, i ≠ .replace p idx

/-- Instances are started only in slots whose instances are over by then: `R` are those that
are over now, and each wait adds one. -/
def Guarded (apps : List ManagedApp) : (Nat → Prop) → List Instr → Prop
  | _, [] => True
  | R, .wait w :: rest => Guarded apps (fun v => v = w ∨ R v) rest
  | R, .fresh ps :: rest =>
    ps.Nodup ∧ (∀ p ∈ ps, ∀ a, apps[p]? = some a → ∀ h ∈ a.insts, R h.inst) ∧ Quiet rest
  | R, .replace p idx :: rest =>
    (∀ a h, apps[p]? = some a → a.insts[idx]? = some h → R h.inst) ∧ Quiet rest
  | _, .reloadSlot _ _ :: rest | _, .checkCtx :: rest | _, .describe _ :: rest
  | _, .answer _ :: rest => Quiet rest
  | R, _ :: rest => Guarded apps R rest

theorem Quiet.tail {i : Instr} {rest : List Instr} (h : Quiet (i :: rest)) : Quiet rest :=
  fun j hj => h j (List.mem_cons_of_mem _ hj)

theorem guarded_of_quiet {apps : List ManagedApp} {todo : List Instr} (h : Quiet todo)
    (R : Nat → Prop) : Guarded apps R todo := by
  induction todo with
  | nil => trivial
  | cons i rest ih =>
    cases i with
    | wait w => exact absurd rfl ((h _ (by simp)).1 w)
    | fresh ps => exact absurd rfl ((h _ (by simp)).2.1 ps)
    | replace p idx => exact absurd rfl ((h _ (by simp)).2.2 p idx)
    | reloadSlot | checkCtx | describe | answer => exact h.tail
    | cancel | online | resetCounters => exact ih h.tail

theorem Guarded.mono {apps : List ManagedApp} {todo : List Instr} {R R' : Nat → Prop}
    (h : Guarded apps R todo) (hR : ∀ w, R w → R' w) : Guarded apps R' todo := by
  induction todo generalizing R R' with
  | nil => trivial
  | cons i rest ih =>
    cases i with
    | wait w => exact ih h fun v hv => hv.imp id (hR v)
    | fresh ps => exact ⟨h.1, fun p hp a ha x hx => hR _ (h.2.1 p hp a ha x hx), h.2.2⟩
    | replace p idx => exact ⟨fun a x ha hx => hR _ (h.1 a x ha hx), h.2⟩
    | reloadSlot | checkCtx | describe | answer => exact h
    | cancel | online | resetCounters => exact ih h hR

theorem guarded_cancels {apps : List ManagedApp} {R : Nat → Prop} {insts : List ManagedInstance}
    {rest : List Instr} (h : Guarded apps R rest) :
    Guarded apps R (insts.map (fun x => .cancel x.inst) ++ rest) := by
  induction insts with
  | nil => exact h
  | cons x more ih => exact ih

/-- After a stop its instances are over. -/
theorem guarded_stop {apps : List ManagedApp} {R : Nat → Prop} {insts : List ManagedInstance}
    {rest : List Instr} (h : Guarded apps (fun w => (∃ x ∈ insts, x.inst = w) ∨ R w) rest) :
    Guarded apps R (stopInstances insts ++ rest) := by
  rw [stopInstances, List.append_assoc]
  apply guarded_cancels
  induction insts generalizing R with
  | nil => exact h.mono fun w hw => by simpa using hw
  | cons x more ih =>
    apply ih
    refine h.mono fun w hw => ?_
    rcases hw with ⟨y, hy, rfl⟩ | hw
    · rcases List.mem_cons.mp hy with rfl | hy
      · exact .inr (.inl rfl)
      · exact .inl ⟨y, hy, rfl⟩
    · exact .inr (.inr hw)

end Manager
end Marshal.Daemon
