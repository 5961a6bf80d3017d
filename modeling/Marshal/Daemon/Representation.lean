import Mathlib.Data.List.Nodup
import Marshal.Daemon.Steps
import Marshal.Lib.Separator

/-! The representation invariant of the manager.

Names and ids tell the apps apart, every app holds one instance for each of its
slots, in order, and the label of an instance gives its app and its slot back. Ids
come from stored specs or are one more than the largest id in use; the latter is a
fresh positive id unless that is the largest 64-bit integer (`FreshID`). -/
namespace Marshal.Daemon
open Config Supervisor
namespace Manager

/-! ### Labels -/

theorem hash_notMem_toString (idx : Nat) : '#' ∉ (toString idx).toList := by
  intro hmem
  rw [Nat.toString_eq_repr, Nat.toList_repr] at hmem
  exact absurd (Nat.isDigit_of_mem_toDigits (by decide) (by decide) hmem) (by decide)

theorem toString_inj {i j : Nat} (h : toString i = toString j) : i = j := by
  have hdigits : Nat.toDigits 10 i = Nat.toDigits 10 j := by
    simpa only [Nat.toString_eq_repr, Nat.toList_repr] using congrArg String.toList h
  rw [← @Nat.ofDigitChars_ten_toDigits i, hdigits, Nat.ofDigitChars_ten_toDigits]

/-- A label names its app and its slot. -/
theorem label_inj {n n' : String} {i j : Nat} (h : label n i = label n' j) : n = n' ∧ i = j := by
  obtain ⟨hname, hidx⟩ := Separator.append_inj rfl (hash_notMem_toString i) (hash_notMem_toString j) h
  exact ⟨hname, toString_inj hidx⟩

/-! ### The invariant -/

/-- One app on its own: its spec carries its id and name, and its instances fill its slots. -/
structure WellFormed (a : ManagedApp) : Prop where
  positive : 0 < a.id
  specID : a.spec.id = a.id
  specName : a.spec.name = a.name
  slots : a.insts.map (fun h => (h.instanceID, h.label)) =
    (List.range a.spec.instances.toNat).map fun idx => (idx, label a.name idx)

structure Represents (apps : List ManagedApp) : Prop where
  names : (apps.map (·.name)).Nodup
  ids : (apps.map (·.id)).Nodup
  each : ∀ a ∈ apps, WellFormed a

theorem slots_length {a : ManagedApp} (h : a.insts.map (fun h => (h.instanceID, h.label)) =
    (List.range a.spec.instances.toNat).map fun idx => (idx, label a.name idx)) :
    a.insts.length = a.spec.instances.toNat := by
  simpa using congrArg List.length h

/-- The handle in a slot carries the slot's index. -/
theorem slots_instanceID {a : ManagedApp} (h : a.insts.map (fun h => (h.instanceID, h.label)) =
    (List.range a.spec.instances.toNat).map fun idx => (idx, label a.name idx)) {k : Nat}
    {x : ManagedInstance} (hx : a.insts[k]? = some x) : x.instanceID = k := by
  have hmap : (a.insts.map fun h => (h.instanceID, h.label))[k]? = some (x.instanceID, x.label) := by
    simp [hx]
  have hlt := (List.getElem?_eq_some_iff.mp hx).1
  rw [slots_length h] at hlt
  rw [h, List.getElem?_map, List.getElem?_range hlt, Option.map_some, Option.some.injEq] at hmap
  exact (Prod.mk.inj hmap).1.symm

theorem WellFormed.length {a : ManagedApp} (h : WellFormed a) :
    a.insts.length = a.spec.instances.toNat := slots_length h.slots

theorem WellFormed.instanceIDs {a : ManagedApp} (h : WellFormed a) :
    a.insts.map (·.instanceID) = List.range a.spec.instances.toNat := by
  have hmap := congrArg (List.map Prod.fst) h.slots
  simpa [List.map_map, Function.comp_def] using hmap

theorem WellFormed.labels {a : ManagedApp} (h : WellFormed a) :
    a.insts.map (·.label) = (List.range a.spec.instances.toNat).map (label a.name) := by
  have hmap := congrArg (List.map Prod.snd) h.slots
  simpa [List.map_map, Function.comp_def] using hmap

theorem wellFormed_fresh {a : ManagedApp} (h : WellFormed a) (base : Nat) (ctxDone : Bool) :
    WellFormed { a with insts := (startInstances base ctxDone a.spec).2 } := by
  refine ⟨h.positive, h.specID, h.specName, ?_⟩
  simp [startInstances, h.specName]

/-- A handle that is put into a slot carries the slot's index and label. -/
theorem slots_set {a : ManagedApp} (hname : a.spec.name = a.name)
    (h : a.insts.map (fun h => (h.instanceID, h.label)) =
      (List.range a.spec.instances.toNat).map fun idx => (idx, label a.name idx)) (idx inst : Nat) :
    (a.insts.set idx ⟨idx, label a.spec.name idx, inst⟩).map (fun h => (h.instanceID, h.label)) =
      (List.range a.spec.instances.toNat).map fun idx => (idx, label a.name idx) := by
  rw [List.map_set, h]
  apply List.ext_getElem
  · simp
  · intro k hk hk'
    rw [List.getElem_set]
    split
    · rename_i hkidx
      subst hkidx
      simp [hname]
    · rfl

theorem wellFormed_replace {a : ManagedApp} (h : WellFormed a) (idx inst : Nat) :
    WellFormed { a with insts := a.insts.set idx ⟨idx, label a.spec.name idx, inst⟩ } :=
  ⟨h.positive, h.specID, h.specName, slots_set h.specName h.slots idx inst⟩

/-- A label occurs once among all instances of all apps. -/
theorem Represents.labels {apps : List ManagedApp} (h : Represents apps) :
    (apps.flatMap fun a => a.insts.map (·.label)).Nodup := by
  rw [List.nodup_flatMap]
  refine ⟨?_, ?_⟩
  · intro a ha
    rw [(h.each a ha).labels]
    exact (List.nodup_range).map (fun i j hij => (label_inj hij).2)
  · have hnames : apps.Pairwise fun a b => a.name ≠ b.name := by
      have := h.names
      rwa [List.Nodup, List.pairwise_map] at this
    refine hnames.imp_of_mem ?_
    intro a b ha hb hne l hla hlb
    simp only [(h.each a ha).labels] at hla
    simp only [(h.each b hb).labels] at hlb
    obtain ⟨i, -, rfl⟩ := List.mem_map.mp hla
    obtain ⟨j, -, hj⟩ := List.mem_map.mp hlb
    exact hne (label_inj hj).1.symm

/-! ### Each change of the list of apps -/

/-- Replacing an entry by one with the same value of `f` leaves the values of `f`. -/
theorem map_set_eq {α β : Type*} {l : List α} {p : Nat} {a b : α} (hget : l[p]? = some a)
    {f : α → β} (hf : f b = f a) : (l.set p b).map f = l.map f := by
  rw [List.map_set, hf]
  have hmap : (l.map f)[p]? = some (f a) := by simp [hget]
  obtain ⟨hlt, hval⟩ := List.getElem?_eq_some_iff.mp hmap
  rw [← hval, List.set_getElem_self]

theorem Represents.set {apps : List ManagedApp} (h : Represents apps) {p : Nat} {a b : ManagedApp}
    (hget : apps[p]? = some a) (hid : b.id = a.id) (hname : b.name = a.name) (hb : WellFormed b) :
    Represents (apps.set p b) := by
  refine ⟨?_, ?_, ?_⟩
  · rw [map_set_eq hget hname]
    exact h.names
  · rw [map_set_eq hget hid]
    exact h.ids
  · intro c hc
    rcases List.mem_or_eq_of_mem_set hc with hc | rfl
    · exact h.each c hc
    · exact hb

theorem Represents.append {apps : List ManagedApp} (h : Represents apps) {a : ManagedApp}
    (hname : ∀ b ∈ apps, b.name ≠ a.name) (hid : ∀ b ∈ apps, b.id ≠ a.id) (ha : WellFormed a) :
    Represents (apps ++ [a]) := by
  refine ⟨?_, ?_, ?_⟩
  · rw [List.map_append, List.map_cons, List.map_nil, ← List.concat_eq_append, List.nodup_concat]
    refine ⟨?_, h.names⟩
    intro hmem
    obtain ⟨b, hb, heq⟩ := List.mem_map.mp hmem
    exact hname b hb heq
  · rw [List.map_append, List.map_cons, List.map_nil, ← List.concat_eq_append, List.nodup_concat]
    refine ⟨?_, h.ids⟩
    intro hmem
    obtain ⟨b, hb, heq⟩ := List.mem_map.mp hmem
    exact hid b hb heq
  · intro b hb
    rcases List.mem_append.mp hb with hb | hb
    · exact h.each b hb
    · rw [List.mem_singleton.mp hb]
      exact ha

theorem Represents.filter {apps : List ManagedApp} (h : Represents apps) (p : ManagedApp → Bool) :
    Represents (apps.filter p) :=
  ⟨h.names.sublist (List.filter_sublist.map _), h.ids.sublist (List.filter_sublist.map _),
    fun a ha => h.each a (List.mem_of_mem_filter ha)⟩

/-! ### Ids -/

theorem foldl_max (apps : List ManagedApp) (top : Int) :
    let most := apps.foldl (fun top a => if a.id > top then a.id else top) top
    top ≤ most ∧ ∀ a ∈ apps, a.id ≤ most := by
  induction apps generalizing top with
  | nil => simp
  | cons b rest ih =>
    obtain ⟨htop, hrest⟩ := ih (if b.id > top then b.id else top)
    refine ⟨?_, ?_⟩
    · refine Int.le_trans ?_ htop
      split <;> omega
    · intro a ha
      rcases List.mem_cons.mp ha with rfl | ha
      · refine Int.le_trans ?_ htop
        split <;> omega
      · exact hrest a ha

theorem le_maxAppID {apps : List ManagedApp} {a : ManagedApp} (ha : a ∈ apps) :
    a.id ≤ maxAppID apps :=
  (foldl_max apps 0).2 a ha

theorem maxAppID_nonneg (apps : List ManagedApp) : 0 ≤ maxAppID apps := (foldl_max apps 0).1

/-- A fresh id is positive and free: the largest id in use has a successor. -/
def FreshID (m : Manager) : Action → Prop
  | .call (.add app) => app.id ≤ 0 ∨ idTaken m.apps app.id = true → maxAppID m.apps < 2 ^ 63 - 1
  | _ => True

instance (m : Manager) : (a : Action) → Decidable (FreshID m a)
  | .call (.add _) => inferInstanceAs (Decidable (_ → _))
  | .call (.stop _) | .call (.restart _) | .call (.reload _) | .call (.updateEnv _ _)
  | .call (.resetCounters _) | .call (.delete _) | .call .stopAll | .exec | .worker _ _
  | .cancelCtx => isTrue trivial

theorem assignID_fresh {m : Manager} {app : App} (h : FreshID m (.call (.add app))) :
    0 < m.assignID app ∧ ∀ a ∈ m.apps, a.id ≠ m.assignID app := by
  unfold assignID
  split
  · rename_i hstored
    have hroom := h (by simpa using hstored)
    have hnonneg := maxAppID_nonneg m.apps
    have hsucc : succ64 (maxAppID m.apps) = maxAppID m.apps + 1 := by
      unfold succ64
      rw [Int.bmod_eq_of_le] <;> omega
    rw [hsucc]
    refine ⟨by omega, ?_⟩
    intro a ha
    have := le_maxAppID ha
    omega
  · rename_i hstored
    simp only [Bool.or_eq_true, decide_eq_true_eq, not_or] at hstored
    refine ⟨by omega, ?_⟩
    intro a ha heq
    apply hstored.2
    rw [idTaken, List.any_eq_true]
    exact ⟨a, ha, by simpa using heq⟩

theorem represents_add {m : Manager} {app : App} (h : Represents m.apps) (hfresh : FreshID m (.call (.add app))) :
    Represents (m.Add app).apps := by
  cases hname : m.apps.any (·.name == app.name) with
  | true =>
    rw [Add_taken hname]
    exact h
  | false =>
    rw [(Add_new hname).1]
    obtain ⟨hpos, hfree⟩ := assignID_fresh hfresh
    refine h.append ?_ hfree ⟨hpos, rfl, rfl, ?_⟩
    · intro b hb heq
      rw [List.any_eq_false] at hname
      exact hname b hb (by simpa [addedApp] using heq)
    · simp [addedApp, startInstances]

/-! ### Changes that keep the apps in place -/

def idName (a : ManagedApp) : Int × String := (a.id, a.name)

/-- The list keeps its ids and names, in order, and its numbers of slots. -/
structure Kept (apps apps' : List ManagedApp) : Prop where
  represents : Represents apps → Represents apps'
  idNames : apps'.map idName = apps.map idName
  counts : apps'.map (·.spec.instances) = apps.map (·.spec.instances)

theorem Kept.refl (apps : List ManagedApp) : Kept apps apps := ⟨id, rfl, rfl⟩

theorem Kept.trans {a b c : List ManagedApp} (hab : Kept a b) (hbc : Kept b c) : Kept a c :=
  ⟨fun h => hbc.represents (hab.represents h), hbc.idNames.trans hab.idNames,
    hbc.counts.trans hab.counts⟩

theorem Kept.set {apps : List ManagedApp} {p : Nat} {a b : ManagedApp} (hget : apps[p]? = some a)
    (hid : b.id = a.id) (hname : b.name = a.name)
    (hcount : b.spec.instances = a.spec.instances) (hb : WellFormed a → WellFormed b) : Kept apps (apps.set p b) := by
  refine ⟨?_, map_set_eq hget (by simp [idName, hid, hname]), map_set_eq hget hcount⟩
  intro h
  exact h.set hget hid hname (hb (h.each a (List.mem_of_getElem? hget)))

theorem kept_freshApp (m : Manager) (p : Nat) : Kept m.apps (m.freshApp p).apps := by
  unfold freshApp
  split
  · exact .refl _
  · rename_i a hget
    exact .set hget rfl rfl rfl fun ha => wellFormed_fresh ha _ _

theorem kept_fresh (m : Manager) (ps : List Nat) : Kept m.apps (ps.foldl freshApp m).apps := by
  induction ps generalizing m with
  | nil => exact .refl _
  | cons p rest ih => exact (kept_freshApp m p).trans (ih (m.freshApp p))

theorem kept_replaceSlot {m : Manager} {p idx : Nat}
    (hidx : ∀ a, m.apps[p]? = some a → idx < a.spec.instances.toNat) :
    Kept m.apps (m.replaceSlot p idx).apps := by
  unfold replaceSlot
  split
  · exact .refl _
  · rename_i a hget
    refine .set hget rfl rfl rfl fun ha => ?_
    have hlt : idx < a.insts.length := by
      rw [ha.length]
      exact hidx a hget
    simp only [if_pos hlt]
    exact wellFormed_replace ha idx _

theorem kept_env (apps : List ManagedApp) (p : Nat) (env : List (String × String)) :
    Kept apps (apps.modify p fun a => { a with spec := { a.spec with env := env } }) := by
  rw [List.modify_eq_set_getElem?]
  cases hget : apps[p]? with
  | none => exact .refl _
  | some a =>
    exact .set hget rfl rfl rfl fun ha =>
      ⟨ha.positive, ha.specID, ha.specName, ha.slots⟩

/-! ### Steps -/

/-- A turn of a reload that is to come is about a slot its app has. -/
def PlannedTodo (apps : List ManagedApp) (todo : List Instr) : Prop :=
  ∀ p idx, .reloadSlot p idx ∈ todo ∨ .replace p idx ∈ todo →
    ∃ a, apps[p]? = some a ∧ idx < a.spec.instances.toNat

def Planned (m : Manager) : Prop :=
  ∀ op todo, m.running = some ⟨op, todo⟩ → PlannedTodo m.apps todo

structure Sound (m : Manager) : Prop where
  represents : Represents m.apps
  planned : ∀ op todo, m.running = some ⟨op, todo⟩ → PlannedTodo m.apps todo

/-- Plans are about positions and numbers of slots only. -/
theorem PlannedTodo.kept {apps apps' : List ManagedApp} {todo rest : List Instr}
    (h : PlannedTodo apps todo) (hkept : Kept apps apps')
    (hrest : ∀ i ∈ rest, i ∈ todo ∨ ∀ p idx, i ≠ .reloadSlot p idx ∧ i ≠ .replace p idx) :
    PlannedTodo apps' rest := by
  intro p idx hmem
  have hold : .reloadSlot p idx ∈ todo ∨ .replace p idx ∈ todo := by
    rcases hmem with hmem | hmem
    · rcases hrest _ hmem with hin | hnot
      · exact .inl hin
      · exact absurd rfl (hnot p idx).1
    · rcases hrest _ hmem with hin | hnot
      · exact .inr hin
      · exact absurd rfl (hnot p idx).2
  obtain ⟨a, hget, hidx⟩ := h p idx hold
  have hcount : (apps'.map (·.spec.instances))[p]? = some a.spec.instances := by
    rw [hkept.counts]
    simp [hget]
  rw [List.getElem?_map, Option.map_eq_some_iff] at hcount
  obtain ⟨b, hb, heq⟩ := hcount
  exact ⟨b, hb, by rw [heq]; exact hidx⟩

theorem plannedTodo_of_free {apps : List ManagedApp} {todo : List Instr}
    (h : ∀ i ∈ todo, ∀ p idx, i ≠ .reloadSlot p idx ∧ i ≠ .replace p idx) :
    PlannedTodo apps todo := by
  intro p idx hmem
  rcases hmem with hmem | hmem
  · exact absurd rfl (h _ hmem p idx).1
  · exact absurd rfl (h _ hmem p idx).2

theorem mem_stopInstances {insts : List ManagedInstance} {i : Instr}
    (h : i ∈ stopInstances insts) : ∃ x ∈ insts, i = .cancel x.inst ∨ i = .wait x.inst := by
  rcases List.mem_append.mp h with h | h
  · obtain ⟨x, hx, rfl⟩ := List.mem_map.mp h
    exact ⟨x, hx, .inl rfl⟩
  · obtain ⟨x, hx, rfl⟩ := List.mem_map.mp h
    exact ⟨x, hx, .inr rfl⟩

theorem stopInstances_free {insts : List ManagedInstance} {i : Instr}
    (h : i ∈ stopInstances insts) (p idx : Nat) : i ≠ .reloadSlot p idx ∧ i ≠ .replace p idx := by
  obtain ⟨x, -, rfl | rfl⟩ := mem_stopInstances h <;> simp

theorem planned_of_idle {m : Manager} (hidle : m.running = none) : Planned m := by
  intro op todo hrun
  rw [hidle] at hrun
  cases hrun

theorem planned_of_todo {m : Manager} {op : Op} {todo : List Instr} (hrun : m.running = some ⟨op, todo⟩)
    (hplan : PlannedTodo m.apps todo) : Planned m := by
  intro op' todo' hrun'
  rw [hrun] at hrun'
  cases hrun'
  exact hplan

theorem planned_selected {m : Manager} {op : Op} {sel : String} {todo : List Nat → List Instr}
    (hplan : ∀ ps, PlannedTodo m.apps (todo ps)) : Planned (m.selected op sel todo) := by
  unfold selected
  split
  · exact planned_of_idle rfl
  · exact planned_of_todo rfl (hplan _)

theorem planned_reload (m : Manager) (ps : List Nat) (sel : String) :
    PlannedTodo m.apps (m.reloadSlots ps ++ [.describe sel]) := by
  have hslot : ∀ i ∈ m.reloadSlots ps, ∃ p idx a, i = .reloadSlot p idx ∧ m.apps[p]? = some a ∧
      idx < a.spec.instances.toNat := by
    intro i hi
    obtain ⟨p, -, hp⟩ := List.mem_flatMap.mp hi
    cases hget : m.apps[p]? with
    | none => simp [hget] at hp
    | some a =>
      simp only [hget] at hp
      obtain ⟨idx, hidx, rfl⟩ := List.mem_map.mp hp
      exact ⟨p, idx, a, rfl, hget, List.mem_range.mp hidx⟩
  intro p idx hmem
  rcases hmem with hmem | hmem <;> rcases List.mem_append.mp hmem with hmem | hmem
  · obtain ⟨q, j, a, heq, hget, hidx⟩ := hslot _ hmem
    cases heq
    exact ⟨a, hget, hidx⟩
  · simp at hmem
  · obtain ⟨q, j, a, heq, -⟩ := hslot _ hmem
    cases heq
  · simp at hmem

/-- Nothing of a stop, then of what follows it, is a turn of a reload. -/
theorem planned_stop (apps : List ManagedApp) (insts : List ManagedInstance) {more : List Instr}
    (hmore : ∀ i ∈ more, ∀ p idx, i ≠ .reloadSlot p idx ∧ i ≠ .replace p idx) :
    PlannedTodo apps (stopInstances insts ++ more) := by
  apply plannedTodo_of_free
  intro i hi p idx
  rcases List.mem_append.mp hi with hi | hi
  · exact stopInstances_free hi p idx
  · exact hmore i hi p idx

/-- An operation that selects its apps and stops instances, or resets them, plans nothing else. -/
theorem planned_call (m : Manager) (op : Op) : Planned (m.call op) := by
  cases op with
  | add app => exact planned_of_idle (Add_running m app)
  | stop sel => exact planned_selected fun ps => planned_stop _ _ (by simp)
  | restart sel => exact planned_selected fun ps => planned_stop _ _ (by simp)
  | reload sel => exact planned_selected fun ps => planned_reload m ps sel
  | updateEnv name env =>
    show Planned (m.UpdateEnv name env)
    unfold UpdateEnv
    split
    · exact planned_of_idle rfl
    · exact planned_of_idle rfl
    · exact planned_of_todo rfl (planned_stop _ _ (by simp))
  | resetCounters sel =>
    refine planned_selected fun ps => plannedTodo_of_free ?_
    intro i hi p idx
    rcases List.mem_append.mp hi with hi | hi
    · obtain ⟨x, -, rfl⟩ := List.mem_map.mp hi
      simp
    · rw [List.mem_singleton.mp hi]
      simp
  | delete sel =>
    show Planned (m.Delete sel)
    unfold Delete
    split
    · exact planned_of_idle rfl
    · exact planned_of_todo rfl (planned_stop _ _ (by simp))
  | stopAll => exact planned_of_todo rfl (planned_stop _ _ (by simp))

theorem represents_call {m : Manager} {op : Op} (h : Represents m.apps) (hfresh : FreshID m (.call op)) :
    Represents (m.call op).apps := by
  cases op with
  | add app => exact represents_add h hfresh
  | stop sel | restart sel | reload sel | resetCounters sel =>
    show Represents (m.selected _ sel _).apps
    unfold selected
    split <;> exact h
  | updateEnv name env =>
    show Represents (m.UpdateEnv name env).apps
    unfold UpdateEnv
    split
    · exact h
    · exact h
    · exact (kept_env _ _ _).represents h
  | delete sel =>
    show Represents (m.Delete sel).apps
    unfold Delete
    split
    · exact h
    · exact h.filter _
  | stopAll => exact h

theorem sound_call {m : Manager} {op : Op} (h : Represents m.apps)
    (hfresh : FreshID m (.call op)) : Sound (m.call op) :=
  ⟨represents_call h hfresh, planned_call m op⟩

/-- An instruction leaves the ids and names, and every slot filled. -/
theorem kept_exec {m t : Manager} {op : Op} {todo : List Instr} (hplan : PlannedTodo m.apps todo)
    (h : Executes m op todo t) : Kept m.apps t.apps := by
  cases h with
  | fresh => exact kept_fresh m _
  | @replace p idx rest =>
    refine kept_replaceSlot fun a hget => ?_
    obtain ⟨b, hb, hidx⟩ := hplan p idx (.inr (by simp))
    rw [hget, Option.some.injEq] at hb
    rw [hb]
    exact hidx
  | cancel | wait | reloadSlot | online | abort | goOn | resetCounters | describe | answer =>
    exact .refl _

theorem planned_exec {m t : Manager} {op : Op} {todo : List Instr} (hplan : PlannedTodo m.apps todo)
    (h : Executes m op todo t) : Planned t := by
  have hkept := kept_exec hplan h
  cases h with
  | cancel | wait | fresh | online | goOn | resetCounters =>
    exact planned_of_todo rfl (hplan.kept hkept fun i hi => .inl (by simp [hi]))
  | @reloadSlot p idx rest =>
    refine planned_of_todo rfl ?_
    intro q j hmem
    apply hplan
    rcases hmem with hmem | hmem <;> rcases List.mem_append.mp hmem with hmem | hmem
    · exact absurd rfl (stopInstances_free hmem q j).1
    · exact .inl (List.mem_cons_of_mem _ (by simpa using hmem))
    · exact absurd rfl (stopInstances_free hmem q j).2
    · rcases List.mem_cons.mp hmem with heq | hmem
      · cases heq
        exact .inl (by simp)
      · exact .inr (by simp [hmem])
  | replace =>
    refine planned_of_todo rfl (hplan.kept hkept fun i hi => ?_)
    rcases List.mem_cons.mp hi with rfl | hi
    · exact .inr (by simp)
    · rcases List.mem_cons.mp hi with rfl | hi
      · exact .inr (by simp)
      · exact .inl (by simp [hi])
  | abort | describe | answer => exact planned_of_idle rfl

theorem planned_step {m t : Manager} {a : Action} (hm : Planned m) (h : m.step a = some t) : Planned t := by
  cases moves_of_step h with
  | call hidle => exact planned_call m _
  | exec hrun hexec => exact planned_exec (hm _ _ hrun) hexec
  | worker hmove =>
    rw [hmove.eq]
    exact hm
  | cancelCtx => exact hm

theorem sound_exec {m t : Manager} {op : Op} {todo : List Instr} (hm : Sound m)
    (hrun : m.running = some ⟨op, todo⟩) (h : Executes m op todo t) : Sound t := by
  have hplan := hm.planned op todo hrun
  exact ⟨(kept_exec hplan h).represents hm.represents, planned_exec hplan h⟩

theorem sound_step {m t : Manager} {a : Action} (hfresh : FreshID m a) (hm : Sound m)
    (h : m.step a = some t) : Sound t := by
  cases moves_of_step h with
  | call hidle => exact sound_call hm.represents hfresh
  | exec hrun hexec => exact sound_exec hm hrun hexec
  | worker hmove =>
    rw [hmove.eq]
    exact ⟨hm.represents, hm.planned⟩
  | cancelCtx => exact ⟨hm.represents, hm.planned⟩

theorem sound_new : Sound {} := ⟨⟨List.nodup_nil, List.nodup_nil, by simp⟩, planned_of_idle rfl⟩

/-! ### Runs -/

/-- An action that is no call of `Add` or `Delete`. -/
def keepsList : Action → Bool
  | .call (.add _) | .call (.delete _) => false
  | _ => true

theorem apps_selected {m : Manager} {op : Op} {sel : String} {todo : List Nat → List Instr} :
    (m.selected op sel todo).apps = m.apps := by
  unfold selected
  split <;> rfl

/-- What of an app is neither its instances nor its environment. -/
structure Lasting {β : Type*} (f : ManagedApp → β) : Prop where
  insts : ∀ a insts, f { a with insts := insts } = f a
  env : ∀ a env, f { a with spec := { a.spec with env := env } } = f a

section Lasting
variable {β : Type*} {f : ManagedApp → β} (hf : Lasting f)
include hf

theorem Lasting.freshApp (m : Manager) (p : Nat) :
    (m.freshApp p).apps.map f = m.apps.map f := by
  unfold Manager.freshApp
  split
  · rfl
  · rename_i hget
    exact map_set_eq hget (hf.insts _ _)

theorem Lasting.fresh (m : Manager) (ps : List Nat) :
    (ps.foldl Manager.freshApp m).apps.map f = m.apps.map f := by
  induction ps generalizing m with
  | nil => rfl
  | cons p rest ih => exact (ih (m.freshApp p)).trans (hf.freshApp m p)

theorem Lasting.replaceSlot (m : Manager) (p idx : Nat) :
    (m.replaceSlot p idx).apps.map f = m.apps.map f := by
  unfold Manager.replaceSlot
  split
  · rfl
  · rename_i hget
    exact map_set_eq hget (hf.insts _ _)

theorem Lasting.UpdateEnv (m : Manager) (name : String) (env : List (String × String)) :
    (m.UpdateEnv name env).apps.map f = m.apps.map f := by
  unfold Manager.UpdateEnv
  split
  · rfl
  · rfl
  · rename_i p rest hres
    show (m.apps.modify p _).map f = _
    rw [List.modify_eq_set_getElem?]
    cases hget : m.apps[p]? with
    | none => rfl
    | some a => exact map_set_eq hget (hf.env _ _)

/-- Whatever else happens, only `Add` and `Delete` change what lasts of the apps. -/
theorem Lasting.step {m t : Manager} {a : Action} (hkeeps : keepsList a = true)
    (h : m.step a = some t) : t.apps.map f = m.apps.map f := by
  cases moves_of_step h with
  | @call op hidle =>
    cases op with
    | add app => cases hkeeps
    | delete sel => cases hkeeps
    | stop sel | restart sel | reload sel | resetCounters sel => exact congrArg _ apps_selected
    | updateEnv name env => exact hf.UpdateEnv m name env
    | stopAll => rfl
  | exec hrun hexec =>
    cases hexec with
    | fresh => exact hf.fresh m _
    | replace => exact hf.replaceSlot m _ _
    | cancel | wait | reloadSlot | online | abort | goOn | resetCounters | describe | answer => rfl
  | worker hmove =>
    rw [hmove.eq]
  | cancelCtx => rfl

end Lasting

theorem lasting_idName : Lasting idName := ⟨fun _ _ => rfl, fun _ _ => rfl⟩

/-- An app that is added has an instance. -/
def hasInstances : Action → Bool
  | .call (.add app) => 1 ≤ app.instances
  | _ => true

theorem instances_of_kept {apps apps' : List ManagedApp} (hkept : Kept apps apps')
    (h : ∀ a ∈ apps, 1 ≤ a.spec.instances) : ∀ a ∈ apps', 1 ≤ a.spec.instances := by
  intro a ha
  have hmem : a.spec.instances ∈ apps'.map (·.spec.instances) := List.mem_map.mpr ⟨a, ha, rfl⟩
  rw [hkept.counts] at hmem
  obtain ⟨b, hb, heq⟩ := List.mem_map.mp hmem
  rw [← heq]
  exact h b hb

theorem instances_step {m t : Manager} {a : Action} (hadd : hasInstances a = true) (hm : Sound m)
    (hi : ∀ b ∈ m.apps, 1 ≤ b.spec.instances) (h : m.step a = some t) :
    ∀ b ∈ t.apps, 1 ≤ b.spec.instances := by
  cases moves_of_step h with
  | @call op hidle =>
    cases op with
    | add app =>
      show ∀ b ∈ (m.Add app).apps, _
      cases hname : m.apps.any (·.name == app.name) with
      | true =>
        rw [Add_taken hname]
        exact hi
      | false =>
        rw [(Add_new hname).1]
        intro b hb
        rcases List.mem_append.mp hb with hb | hb
        · exact hi b hb
        · rw [List.mem_singleton.mp hb]
          exact of_decide_eq_true hadd
    | stop sel | restart sel | reload sel | resetCounters sel =>
      intro b hb
      exact hi b (apps_selected ▸ hb)
    | updateEnv name env =>
      show ∀ b ∈ (m.UpdateEnv name env).apps, _
      unfold UpdateEnv
      split
      · exact hi
      · exact hi
      · exact instances_of_kept (kept_env _ _ _) hi
    | delete sel =>
      show ∀ b ∈ (m.Delete sel).apps, _
      unfold Delete
      split
      · exact hi
      · intro b hb
        exact hi b (List.mem_of_mem_filter hb)
    | stopAll => exact hi
  | exec hrun hexec => exact instances_of_kept (kept_exec (hm.planned _ _ hrun) hexec) hi
  | worker hmove =>
    rw [hmove.eq]
    exact hi
  | cancelCtx => exact hi

/-- **The apps are told apart, and every slot is filled, as long as ids do not run out.** In
every run whose apps have an instance and whose `Add` calls never need an id above the largest
64-bit integer, in every state: names, positive ids and labels are each distinct, specs carry
the ids, every app holds exactly its instances in order, and from there on nothing but `Add`
and `Delete` changes the list of ids and names. -/
theorem apps_represented {as : List Action} {m : Manager} (hrun : machine.run {} as = some m)
    (hspecs : ∀ a ∈ as, hasInstances a = true) (hfresh : machine.Along FreshID {} as) :
    (m.apps.map (·.name)).Nodup ∧
    (∀ a ∈ m.apps, 0 < a.id ∧ a.id = a.spec.id) ∧
    (m.apps.map (·.id)).Nodup ∧
    (m.apps.flatMap fun a => a.insts.map (·.label)).Nodup ∧
    (∀ a ∈ m.apps, (a.insts.length : Int) = a.spec.instances ∧
      a.insts.map (·.instanceID) = List.range a.insts.length) ∧
    ∀ more t, machine.run m more = some t → (∀ a ∈ more, keepsList a = true) →
      t.apps.map idName = m.apps.map idName := by
  have hboth : Sound m ∧ ∀ a ∈ m.apps, 1 ≤ a.spec.instances :=
    machine.along_invariant (C := fun u a => FreshID u a ∧ hasInstances a = true)
      (I := fun u => Sound u ∧ ∀ a ∈ u.apps, 1 ≤ a.spec.instances)
      (fun _ _ _ hC hI h => ⟨sound_step hC.1 hI.1 h, instances_step hC.2 hI.1 hI.2 h⟩)
      ⟨sound_new, by simp⟩ hrun
      (machine.along_and.mpr ⟨hfresh, machine.along_of_mem (fun _ a ha => hspecs a ha) _⟩)
  obtain ⟨hsound, hinstances⟩ := hboth
  obtain ⟨hnames, hids, heach⟩ := hsound.represents
  refine ⟨hnames, ?_, hids, hsound.represents.labels, ?_, ?_⟩
  · intro a ha
    exact ⟨(heach a ha).positive, (heach a ha).specID.symm⟩
  · intro a ha
    have hlength := (heach a ha).length
    refine ⟨?_, ?_⟩
    · have := hinstances a ha
      omega
    · rw [hlength]
      exact (heach a ha).instanceIDs
  · intro more t hmore hkeeps
    exact machine.along_invariant (C := fun _ a => keepsList a = true)
      (I := fun u => u.apps.map idName = m.apps.map idName)
      (fun _ _ _ hC hu h => (lasting_idName.step hC h).trans hu) rfl hmore
      (machine.along_of_mem (fun _ a ha => hkeeps a ha) _)

/-- Two apps are added and the first is reloaded. -/
def addAndReload : List Action :=
  [.call (.add { name := "web", instances := 2, id := 7 }), .call (.add { name := "db" }),
    .call (.reload "web"), .exec, .exec]

theorem apps_represented_addAndReload :
    ∃ m, machine.run {} addAndReload = some m ∧ m.apps.map idName = [(7, "web"), (8, "db")] ∧
      (m.apps.map (·.id)).Nodup :=
  ⟨_, rfl, rfl, (@apps_represented addAndReload _ rfl (by decide) (by decide)).2.2.1⟩

/-- The first app was stored with the largest id, the second is given a fresh one. -/
def idsRunOut : List Action :=
  [.call (.add { name := "web", id := 2 ^ 63 - 1 }), .call (.add { name := "db" })]

/-- The fresh id after the largest one is negative. -/
theorem id_overflows :
    ¬ ∀ (as : List Action) (m : Manager), machine.run {} as = some m →
      (∀ a ∈ as, hasInstances a = true) → m.running = none → ∀ a ∈ m.apps, 0 < a.id := by
  intro h
  exact absurd (h idsRunOut _ rfl (by decide) rfl) (by decide)

end Manager
end Marshal.Daemon
