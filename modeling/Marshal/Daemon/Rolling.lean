import Marshal.Daemon.Housed

/-! The rolling reload.

One slot after the other is stopped and started anew, and the next one is not stopped
before the new instance is online. So at most one slot of an app is down at a time, as long
as no child ends by itself and every new instance is online in time (`Gentle`). What the
reload has done of one app so far is `Rolls`; where it stands in its turn is `Turn`. -/
namespace Marshal.Daemon
open Config Supervisor
namespace Manager

/-! ### Instances that are up -/

/-- The instance is online, and its child runs. -/
def isUp (m : Manager) (w : Nat) : Bool :=
  match m.workers[w]? with
  | some x => decide (Instance.Up x.inst)
  | none => false

/-- How many of the app's instances are up. -/
def upCount (m : Manager) (a : ManagedApp) : Nat := a.insts.countP fun h => m.isUp h.inst

/-- The slots of an app of this name in which goroutines were started after the first `base`. -/
def slotsStarted (m : Manager) (base : Nat) (name : String) : List Nat :=
  (((m.workers.map slotKey).drop base).filter (·.1 == name)).map (·.2)

/-- The instance a reload waits for. -/
def awaitsOnline (m : Manager) : Option Worker :=
  match m.running with
  | some ⟨_, .online w :: _⟩ => m.workers[w]?
  | _ => none

/-- The reload is left alone: the base context goes on, no child of the app ends before it is told
to, and a new instance is online before its time is up. -/
def Gentle (name : String) (m : Manager) : Action → Prop
  | .call _ | .cancelCtx => False
  | .exec => ∀ x ∈ m.awaitsOnline, x.app = name → x.inst.state = .online
  | .worker w (.childExit _) => ∀ x ∈ m.workers[w]?, x.app = name → x.inst.pc = .term ∨ x.inst.pc = .kill
  | .worker _ _ => True

instance (name : String) (m : Manager) : (a : Action) → Decidable (Gentle name m a)
  | .call _ | .cancelCtx => isFalse id
  | .exec => inferInstanceAs (Decidable (∀ x ∈ m.awaitsOnline, x.app = name → x.inst.state = .online))
  | .worker w (.childExit _) =>
    inferInstanceAs (Decidable (∀ x ∈ m.workers[w]?, x.app = name → x.inst.pc = .term ∨ x.inst.pc = .kill))
  | .worker _ (.spawn ..) | .worker _ (.spawnFail ..) | .worker _ .ctxDone | .worker _ .reap | .worker _ .timer
  | .worker _ (.measure _) | .worker _ .next | .worker _ .cancel | .worker _ .resetCounters => isTrue trivial

/-- It is online, and stays so while nobody cancels it. -/
def Steady (m : Manager) (w : Nat) : Prop :=
  ∃ x, m.workers[w]? = some x ∧ Instance.Rising x.inst ∧ x.inst.state = .online

theorem Steady.isUp {m : Manager} {w : Nat} (h : Steady m w) : m.isUp w = true := by
  obtain ⟨x, hx, hrising, honline⟩ := h
  unfold Manager.isUp
  rw [hx]
  exact decide_eq_true (hrising.up honline)

/-- All but one. -/
theorem length_le_countP {α : Type*} {P : α → Bool} {l : List α} {hot : Option Nat}
    (h : ∀ k x, l[k]? = some x → hot ≠ some k → P x = true) : l.length ≤ l.countP P + 1 := by
  induction l generalizing hot with
  | nil => exact Nat.zero_le _
  | cons x l ih =>
    rw [List.countP_cons, List.length_cons]
    by_cases hhot : hot = some 0
    · have hall : l.countP P = l.length := by
        rw [List.countP_eq_length]
        intro y hy
        obtain ⟨k, hk⟩ := List.mem_iff_getElem?.mp hy
        exact h (k + 1) y hk (by simp [hhot])
      omega
    · have hx : P x = true := h 0 x rfl hhot
      have hrest := @ih (hot.map (· - 1)) fun k y hy hne => h (k + 1) y hy fun heq => hne (by simp [heq])
      rw [if_pos hx]
      omega

/-! ### Goroutines and slots -/

section Slots
variable {m t : Manager} {base : Nat} {name : String}

theorem Evolves.map_slotKey {ws ws' : List Worker} (h : Evolves ws ws') : ws'.map slotKey = ws.map slotKey := by
  apply List.ext_getElem?
  intro w
  rw [List.getElem?_map, List.getElem?_map]
  cases hx : ws[w]? with
  | none =>
    rw [List.getElem?_eq_none_iff, ← h.length, ← List.getElem?_eq_none_iff] at hx
    rw [hx]
  | some x =>
    obtain ⟨y, hy, hkey, -⟩ := h.each w x hx
    rw [hy, Option.map_some, Option.map_some, hkey]

theorem slotsStarted_evolves (h : Evolves m.workers t.workers) :
    t.slotsStarted base name = m.slotsStarted base name := by
  unfold slotsStarted
  rw [h.map_slotKey]

theorem slotsStarted_concat {x : Worker} (h : t.workers = m.workers ++ [x]) (hlen : base ≤ m.workers.length) :
    t.slotsStarted base name = m.slotsStarted base name ++ if x.app = name then [x.idx] else [] := by
  unfold slotsStarted
  have hdrop : base ≤ (m.workers.map slotKey).length := by simpa using hlen
  rw [h, List.map_append, List.drop_append_of_le_length hdrop, List.filter_append, List.map_append]
  by_cases hx : x.app = name <;> simp [slotKey, hx]

/-- Instances that are shared are those of one slot. -/
theorem Housed.one_slot (hm : Housed m) {b c : ManagedApp} (hb : b ∈ m.apps) (hc : c ∈ m.apps)
    {x y : ManagedInstance} (hx : x ∈ b.insts) (hy : y ∈ c.insts) (heq : x.inst = y.inst) :
    b.name = c.name ∧ x.instanceID = y.instanceID := by
  obtain ⟨g, hg, hkey⟩ := (hm.seated b hb).linked x hx
  obtain ⟨g', hg', hkey'⟩ := (hm.seated c hc).linked y hy
  rw [heq, hg', Option.some.injEq] at hg
  rw [← hg, hkey', Prod.mk.injEq] at hkey
  exact ⟨hkey.1.symm, hkey.2.symm⟩

theorem Housed.name_ne (hm : Housed m) {p q : Nat} {b c : ManagedApp} (hb : m.apps[p]? = some b)
    (hc : m.apps[q]? = some c) (hne : q ≠ p) : c.name ≠ b.name := by
  intro hnames
  have hlt := (List.getElem?_eq_some_iff.mp hc).1
  refine hne ((List.getElem?_inj (by simpa using hlt) hm.names).mp ?_)
  rw [List.getElem?_map, List.getElem?_map, hb, hc, Option.map_some, Option.map_some, hnames]

theorem Housed.app_of_handle (hm : Housed m) {p : Nat} {b : ManagedApp} (hb : m.apps[p]? = some b)
    {h : ManagedInstance} (hh : h ∈ b.insts) {x : Worker} (hx : m.workers[h.inst]? = some x) :
    x.app = b.name := by
  obtain ⟨y, hy, hkey⟩ := (hm.seated b (List.mem_of_getElem? hb)).linked h hh
  obtain rfl : x = y := Option.some.inj (hx.symm.trans hy)
  exact congrArg Prod.fst hkey

/-- Apps at two positions share no instance. -/
theorem Housed.apart (hm : Housed m) {p q : Nat} {b c : ManagedApp} (hb : m.apps[p]? = some b)
    (hc : m.apps[q]? = some c) (hne : q ≠ p) {x y : ManagedInstance} (hx : x ∈ b.insts) (hy : y ∈ c.insts) :
    x.inst ≠ y.inst := by
  intro heq
  obtain ⟨hnames, -⟩ := hm.one_slot (List.mem_of_getElem? hb) (List.mem_of_getElem? hc) hx hy heq
  exact hm.name_ne hb hc hne hnames.symm

theorem mem_slot {q idx : Nat} {x : ManagedInstance} (hx : x ∈ m.slot q idx) :
    ∃ c, m.apps[q]? = some c ∧ x ∈ c.insts := by
  unfold slot at hx
  split at hx
  · cases hx
  · rename_i c hc
    exact ⟨c, hc, List.mem_of_getElem? (by simpa using hx)⟩

/-- Two slots of an app share no instance. -/
theorem Housed.slots_apart (hm : Housed m) {p j k : Nat} {b : ManagedApp} (hb : m.apps[p]? = some b)
    {x y : ManagedInstance} (hx : b.insts[j]? = some x) (hy : b.insts[k]? = some y) (hne : j ≠ k) :
    x.inst ≠ y.inst := by
  intro heq
  have hmem := List.mem_of_getElem? hb
  have hseated := hm.seated b hmem
  obtain ⟨-, hids⟩ := hm.one_slot hmem hmem (List.mem_of_getElem? hx) (List.mem_of_getElem? hy) heq
  rw [slots_instanceID hseated.slots hx, slots_instanceID hseated.slots hy] at hids
  exact hne hids

theorem Steady.touch {v w : Nat} {f : Instance → Instance} (h : Steady m w) (hne : v ≠ w) :
    Steady (m.touch v f) w := by
  obtain ⟨x, hx, hx'⟩ := h
  refine ⟨x, ?_, hx'⟩
  show (m.workers.modify v _)[w]? = some x
  rw [List.getElem?_modify_ne _ _ hne]
  exact hx

theorem Steady.concat {w : Nat} {x : Worker} (h : Steady m w) (ht : t.workers = m.workers ++ [x]) :
    Steady t w := by
  obtain ⟨y, hy, hy'⟩ := h
  exact ⟨y, ht ▸ Growing.keep hy, hy'⟩

end Slots

/-! ### What a reload has done of an app -/

/-- The app's first `j` slots have new instances, and all but the `hot` one are online. -/
structure Rolls (base : Nat) (a b : ManagedApp) (j : Nat) (hot : Option Nat) (m : Manager) : Prop where
  name : b.name = a.name
  instances : b.spec.instances = a.spec.instances
  length : base ≤ m.workers.length
  started : m.slotsStarted base a.name = List.range j
  fresh : ∀ k h, b.insts[k]? = some h → k < j → base ≤ h.inst
  steady : ∀ k h, b.insts[k]? = some h → hot ≠ some k → Steady m h.inst

/-- An instruction that leaves the app `b` at `p` alone. -/
def Aside (p : Nat) (b : ManagedApp) : Instr → Prop
  | .cancel w => ∀ h ∈ b.insts, h.inst ≠ w
  | .replace q _ => q ≠ p
  | .wait _ | .online _ | .checkCtx => True
  | .fresh _ | .reloadSlot _ _ | .resetCounters _ | .describe _ | .answer _ => False

/-- The instructions in front of the turns to come, after `j` turns of the app `b` at `p`. The next
turn to come is about slot `s`, and the `hot` slot may be down. -/
inductive Turn (m : Manager) (p : Nat) (b : ManagedApp) : Nat → Nat → Option Nat → List Instr → Prop
  /-- The instructions are about other apps. -/
  | aside {j : Nat} {front : List Instr} (h : ∀ i ∈ front, Aside p b i) : Turn m p b j j none front
  | cancel {j : Nat} {h : ManagedInstance} (hget : b.insts[j]? = some h) :
    Turn m p b j (j + 1) none [.cancel h.inst, .wait h.inst, .replace p j]
  | wait {j w : Nat} : Turn m p b j (j + 1) (some j) [.wait w, .replace p j]
  | replace {j : Nat} : Turn m p b j (j + 1) (some j) [.replace p j]
  | online {j : Nat} {h : ManagedInstance} {x : Worker} (hget : b.insts[j]? = some h)
      (hx : m.workers[h.inst]? = some x) (hrising : Instance.Rising x.inst) :
    Turn m p b (j + 1) (j + 1) (some j) [.online h.inst, .checkCtx]

/-- The turns to come, each a position and a slot, and the answer. -/
def toCome (rem : List (Nat × Nat)) (sel : String) : List Instr :=
  rem.map (fun t => .reloadSlot t.1 t.2) ++ [.describe sel]

/-- The slots of the app at `p` whose turns are to come. -/
def slotsToCome (p : Nat) (rem : List (Nat × Nat)) : List Nat := (rem.filter (·.1 == p)).map (·.2)

/-- A reload of the app `a` at `p`, or what it left. -/
structure Rolling (base : Nat) (a : ManagedApp) (p : Nat) (m : Manager) : Prop where
  housed : Housed m
  ctx : m.ctxDone = false
  stage : ∃ b j hot, m.apps[p]? = some b ∧ Rolls base a b j hot m ∧
    (m.running = none → j = a.spec.instances.toNat ∧ hot = none) ∧
    ∀ op todo, m.running = some ⟨op, todo⟩ → ∃ s front rem sel, todo = front ++ toCome rem sel ∧
      Turn m p b j s hot front ∧ s ≤ a.spec.instances.toNat ∧
      slotsToCome p rem = List.range' s (a.spec.instances.toNat - s)

section Rolls
variable {m t : Manager} {base p j s : Nat} {hot : Option Nat} {a b : ManagedApp} {op : Op}

theorem Rolls.congr {hot' : Option Nat} (h : Rolls base a b j hot m)
    (hlen : m.workers.length ≤ t.workers.length)
    (hstarted : t.slotsStarted base a.name = m.slotsStarted base a.name)
    (hsteady : ∀ k x, b.insts[k]? = some x → hot' ≠ some k → Steady t x.inst) :
    Rolls base a b j hot' t where
  name := h.name
  instances := h.instances
  length := Nat.le_trans h.length hlen
  started := hstarted.trans h.started
  fresh := h.fresh
  steady := hsteady

theorem Rolls.proceed (h : Rolls base a b j hot m) (todo : List Instr) :
    Rolls base a b j hot (m.proceed op todo) :=
  h.congr (Nat.le_refl _) rfl h.steady

theorem Rolls.finish (h : Rolls base a b j hot m) (outcome : Outcome) :
    Rolls base a b j hot (m.finish op outcome) :=
  h.congr (Nat.le_refl _) rfl h.steady

/-- Another instance is cancelled, or that of the slot that may be down. -/
theorem Rolls.touch {hot' : Option Nat} {v : Nat} (h : Rolls base a b j hot m)
    (hhot : ∀ k, hot' ≠ some k → hot ≠ some k)
    (hne : ∀ k x, b.insts[k]? = some x → hot' ≠ some k → v ≠ x.inst) :
    Rolls base a b j hot' (m.touch v fun i => { i with done := true }) := by
  have hevolves : Evolves m.workers (m.touch v fun i => { i with done := true }).workers :=
    evolves_touch (a := .cancel) fun i => rfl
  refine h.congr (Nat.le_of_eq hevolves.length.symm) (slotsStarted_evolves hevolves) fun k x hx hk => ?_
  exact (h.steady k x hx (hhot k hk)).touch (hne k x hx hk)

/-- Another app's slot gets a new instance. -/
theorem Rolls.concat {x : Worker} (h : Rolls base a b j hot m) (ht : t.workers = m.workers ++ [x])
    (hx : x.app ≠ a.name) : Rolls base a b j hot t := by
  refine h.congr (by simp [ht]) ?_ fun k y hy hk => (h.steady k y hy hk).concat ht
  rw [slotsStarted_concat ht h.length, if_neg hx, List.append_nil]

/-- The app's next slot gets a new instance, which is not online yet. -/
theorem Rolls.replace {h : ManagedInstance} {x : Worker} (hb : Rolls base a b j (some j) m)
    (ht : t.workers = m.workers ++ [x]) (hkey : slotKey x = (a.name, j)) (hh : h.inst = m.workers.length) :
    Rolls base a { b with insts := b.insts.set j h } (j + 1) (some j) t where
  name := hb.name
  instances := hb.instances
  length := by
    rw [ht, List.length_append]
    exact Nat.le_trans hb.length (Nat.le_add_right _ _)
  started := by
    obtain ⟨happ, hidx⟩ := Prod.mk.inj hkey
    rw [slotsStarted_concat ht hb.length, if_pos happ, hidx, hb.started, List.range_succ]
  fresh := by
    intro k y hy hk
    by_cases hjk : j = k
    · subst hjk
      rw [List.getElem?_set_self' ] at hy
      obtain ⟨z, -, rfl⟩ := Option.map_eq_some_iff.mp hy
      show base ≤ h.inst
      rw [hh]
      exact hb.length
    · have hold : b.insts[k]? = some y := by rwa [List.getElem?_set_ne hjk] at hy
      exact hb.fresh k y hold (by omega)
  steady := by
    intro k y hy hk
    have hjk : j ≠ k := fun heq => hk (congrArg some heq)
    have hold : b.insts[k]? = some y := by rwa [List.getElem?_set_ne hjk] at hy
    exact (hb.steady k y hold hk).concat ht

/-! ### The steps of a reload -/

variable {front : List Instr} {rem : List (Nat × Nat)} {sel : String}

theorem rolling_of (ht : Housed t) (hctx : t.ctxDone = false) (hget : t.apps[p]? = some b)
    (hb : Rolls base a b j hot t) (hrun : t.running = some ⟨op, front ++ toCome rem sel⟩)
    (hturn : Turn t p b j s hot front) (hs : s ≤ a.spec.instances.toNat)
    (hrem : slotsToCome p rem = List.range' s (a.spec.instances.toNat - s)) : Rolling base a p t := by
  refine ⟨ht, hctx, b, j, hot, hget, hb, fun hidle => ?_, fun op' todo hrun' => ?_⟩
  · rw [hrun] at hidle
    cases hidle
  · rw [hrun] at hrun'
    cases hrun'
    exact ⟨s, front, rem, sel, rfl, hturn, hs, hrem⟩

/-- The reload is between two turns, or about another app. -/
theorem rolling_aside {i : Instr} (hm : Housed m) (ht : Housed t) (hctx : t.ctxDone = false)
    (hget : m.apps[p]? = some b) (hb : Rolls base a b j none m) (hi : Aside p b i)
    (hfront : ∀ i ∈ front, Aside p b i) (hj : j ≤ a.spec.instances.toNat)
    (hrem : slotsToCome p rem = List.range' j (a.spec.instances.toNat - j))
    (hrun : m.running = some ⟨op, i :: (front ++ toCome rem sel)⟩)
    (hexec : Executes m op (i :: (front ++ toCome rem sel)) t) : Rolling base a p t := by
  cases hexec with
  | @cancel v =>
    have htouch := hb.touch (v := v) (fun _ hk => hk) fun k x hx _ => (hi x (List.mem_of_getElem? hx)).symm
    exact rolling_of ht hctx hget (htouch.proceed _) rfl (.aside hfront) hj hrem
  | wait | online | goOn => exact rolling_of ht hctx hget (hb.proceed _) rfl (.aside hfront) hj hrem
  | @replace q idx =>
    have hq : q ≠ p := hi
    obtain ⟨c, hc, hidx⟩ := hm.planned op _ hrun q idx (.inr List.mem_cons_self)
    have hlen := (hm.seated c (List.mem_of_getElem? hc)).length
    obtain ⟨happs, hworkers⟩ := replaceSlot_get hc (hlen ▸ hidx)
    have hname : (worker c.spec idx m.ctxDone).app ≠ a.name := by
      show c.spec.name ≠ a.name
      rw [(hm.seated c (List.mem_of_getElem? hc)).specName, ← hb.name]
      exact hm.name_ne hget hc hq
    have hget' : (m.replaceSlot q idx).apps[p]? = some b := by rwa [happs, List.getElem?_set_ne hq]
    have hfront' : ∀ i ∈ .online m.workers.length :: .checkCtx :: front, Aside p b i := by
      simp only [List.mem_cons, forall_eq_or_imp]
      exact ⟨trivial, trivial, hfront⟩
    exact rolling_of ht hctx hget' ((hb.concat hworkers hname).proceed _) rfl (.aside hfront') hj hrem
  | abort hcancelled =>
    rw [finish_ctxDone, hcancelled] at hctx
    cases hctx
  | fresh | reloadSlot | resetCounters | describe | answer => exact hi.elim

/-- The next turn begins, or the reload answers. -/
theorem rolling_next (hm : Housed m) (ht : Housed t) (hctx : t.ctxDone = false)
    (hget : m.apps[p]? = some b) (hb : Rolls base a b j none m) (hj : j ≤ a.spec.instances.toNat)
    (hrem : slotsToCome p rem = List.range' j (a.spec.instances.toNat - j))
    (hexec : Executes m op (toCome rem sel) t) : Rolling base a p t := by
  cases rem with
  | nil =>
    have hlast : Executes m op [.describe sel] t := hexec
    cases hlast with
    | describe =>
      have hnone : a.spec.instances.toNat - j = 0 := List.range'_eq_nil_iff.mp hrem.symm
      refine ⟨ht, hctx, b, j, none, hget, hb.finish _, fun _ => ⟨by omega, rfl⟩, fun op' todo hrun => ?_⟩
      rw [finish_running] at hrun
      cases hrun
  | cons turn rem =>
    obtain ⟨q, idx⟩ := turn
    have hturn : Executes m op (.reloadSlot q idx :: toCome rem sel) t := hexec
    cases hturn with
    | reloadSlot =>
      by_cases hq : q = p
      · subst hq
        have hcons : idx :: slotsToCome q rem = List.range' j (a.spec.instances.toNat - j) := by
          rw [← hrem]
          simp [slotsToCome]
        obtain ⟨rfl, hpos, hrest⟩ := List.range'_eq_cons_iff.mp hcons.symm
        have hlen := (hm.seated b (List.mem_of_getElem? hget)).length
        rw [hb.instances] at hlen
        have hslot : b.insts[j]? = some b.insts[j] := List.getElem?_eq_getElem (by omega)
        have hfront : stopInstances (m.slot q j) ++ .replace q j :: toCome rem sel =
            [.cancel b.insts[j].inst, .wait b.insts[j].inst, .replace q j] ++ toCome rem sel := by
          simp [slot, hget, hslot, stopInstances]
        rw [hfront] at ht hctx ⊢
        exact rolling_of ht hctx hget (hb.proceed _) rfl (.cancel hslot) (by omega) hrest
      · have hfront : ∀ i ∈ stopInstances (m.slot q idx) ++ [.replace q idx], Aside p b i := by
          intro i hi
          rcases List.mem_append.mp hi with hi | hi
          · obtain ⟨x, hx, rfl | rfl⟩ := mem_stopInstances hi
            · obtain ⟨c, hc, hmem⟩ := mem_slot hx
              exact fun y hy => hm.apart hget hc hq hy hmem
            · trivial
          · rw [List.mem_singleton.mp hi]
            exact hq
        have hrest : slotsToCome p rem = slotsToCome p ((q, idx) :: rem) := by simp [slotsToCome, hq]
        rw [List.append_cons] at ht hctx ⊢
        exact rolling_of ht hctx hget (hb.proceed _) rfl (.aside hfront) hj (hrest.trans hrem)

/-- The slot gets its new instance. -/
theorem rolling_replace (hm : Housed m) (hctx : m.ctxDone = false) (ht : Housed t) (hctx' : t.ctxDone = false)
    (hget : m.apps[p]? = some b) (hb : Rolls base a b j (some j) m) (hj : j + 1 ≤ a.spec.instances.toNat)
    (hrem : slotsToCome p rem = List.range' (j + 1) (a.spec.instances.toNat - (j + 1)))
    (heq : t = (m.replaceSlot p j).proceed op (.online m.workers.length :: .checkCtx :: toCome rem sel)) :
    Rolling base a p t := by
  have hseated := hm.seated b (List.mem_of_getElem? hget)
  have hlt : j < b.insts.length := by
    rw [hseated.length, hb.instances]
    exact hj
  obtain ⟨happs, hworkers⟩ := replaceSlot_get hget hlt
  have hkey : slotKey (worker b.spec j m.ctxDone) = (a.name, j) := by
    show (b.spec.name, j) = (a.name, j)
    rw [hseated.specName, hb.name]
  have hb' := hb.replace (h := ⟨j, label b.spec.name j, m.workers.length⟩) hworkers hkey rfl
  have hget' := List.getElem?_set_self (a := { b with
    insts := b.insts.set j ⟨j, label b.spec.name j, m.workers.length⟩ }) (List.getElem?_eq_some_iff.mp hget).1
  rw [← happs] at hget'
  have hnew : (m.replaceSlot p j).workers[m.workers.length]? = some (worker b.spec j m.ctxDone) := by
    rw [hworkers]
    exact List.getElem?_concat_length ..
  have hrising : Instance.Rising (worker b.spec j m.ctxDone).inst := by
    rw [hctx]
    exact Instance.rising_new (policyFor b.spec)
  subst heq
  exact rolling_of ht hctx' hget' (hb'.proceed _) rfl (.online (List.getElem?_set_self hlt) hnew hrising) hj hrem

/-- The operation under way executes its next instruction. -/
theorem rolling_exec (hm : Rolling base a p m) (hgentle : Gentle a.name m .exec)
    (hstep : m.step .exec = some t) : Rolling base a p t := by
  obtain ⟨hhoused, hctx, b, j, hot, hget, hb, -, hstage⟩ := hm
  have ht := housed_step hhoused hstep
  cases moves_of_step hstep with
  | @exec op todo t hrun hexec =>
    have hctx' : t.ctxDone = false := (ctxDone_exec hexec).trans hctx
    obtain ⟨s, front, rem, sel, rfl, hturn, hs, hrem⟩ := hstage op todo hrun
    cases hturn with
    | aside hfront =>
      cases front with
      | nil => exact rolling_next hhoused ht hctx' hget hb hs hrem hexec
      | cons i front =>
        obtain ⟨hi, hfront⟩ := List.forall_mem_cons.mp hfront
        exact rolling_aside hhoused ht hctx' hget hb hi hfront hs hrem hrun hexec
    | @cancel j h hslot =>
      have hfirst : Executes m op (.cancel h.inst :: ([.wait h.inst, .replace p j] ++ toCome rem sel)) t := hexec
      cases hfirst with
      | cancel =>
        have htouch : Rolls base a b j (some j) (m.touch h.inst fun i => { i with done := true }) := by
          refine hb.touch (fun _ _ => nofun) fun k x hx hk => ?_
          exact hhoused.slots_apart hget hslot hx fun heq => hk (congrArg some heq)
        exact rolling_of ht hctx' hget (htouch.proceed _) rfl .wait hs hrem
    | @wait j w =>
      have hfirst : Executes m op (.wait w :: ([.replace p j] ++ toCome rem sel)) t := hexec
      cases hfirst with
      | wait => exact rolling_of ht hctx' hget (hb.proceed _) rfl .replace hs hrem
    | @replace j =>
      have hfirst : Executes m op (.replace p j :: toCome rem sel) t := hexec
      cases hfirst with
      | replace => exact rolling_replace hhoused hctx ht hctx' hget hb hs hrem rfl
    | @online j h x hslot hx hrising =>
      have hfirst : Executes m op (.online h.inst :: ([.checkCtx] ++ toCome rem sel)) t := hexec
      cases hfirst with
      | online =>
        have happ : x.app = a.name := (hhoused.app_of_handle hget (List.mem_of_getElem? hslot) hx).trans hb.name
        have honline : x.inst.state = .online := hgentle x (by simp [awaitsOnline, hrun, hx]) happ
        have hall : Rolls base a b (j + 1) none m := by
          refine hb.congr (Nat.le_refl _) rfl fun k y hy _ => ?_
          by_cases hk : j = k
          · subst hk
            obtain rfl : h = y := Option.some.inj (hslot.symm.trans hy)
            exact ⟨x, hx, hrising, honline⟩
          · exact hb.steady k y hy (by simpa using hk)
        have hlast : ∀ i ∈ [Instr.checkCtx], Aside p b i := by simp [Aside]
        exact rolling_of ht hctx' hget (hall.proceed _) rfl (.aside hlast) hs hrem

/-- A rising instance at `w` goes on rising. -/
def KeepsRising (m t : Manager) (w : Nat) : Prop :=
  ∀ x, m.workers[w]? = some x → Instance.Rising x.inst → ∃ y, t.workers[w]? = some y ∧
    Instance.Rising y.inst ∧ (x.inst.state = .online → y.inst.state = .online)

theorem keepsRising_worker {w : Nat} {act : Instance.Action} {x : Worker} {i : Instance}
    (hctx : m.ctxDone = false) (hgentle : Gentle a.name m (.worker w act))
    (hmove : WorkerMoves m w act t x i) {v : Nat} (happ : ∀ y, m.workers[v]? = some y → y.app = a.name) : KeepsRising m t v := by
  intro y hy hrising
  rw [hmove.eq]
  by_cases hw : w = v
  · subst hw
    obtain rfl : x = y := Option.some.inj (hmove.get.symm.trans hy)
    have hrequest : Instance.OnRequest x.inst act := by
      cases act with
      | childExit waitErr => exact hgentle x hy (happ x hy)
      | cancel =>
        have hown : m.ctxDone = true := hmove.own
        rw [hctx] at hown
        cases hown
      | spawn | spawnFail | ctxDone | reap | timer | measure | next | resetCounters => trivial
    obtain ⟨hnext, honline⟩ := Instance.rising_step hrising hrequest hmove.step
    have hlt := (List.getElem?_eq_some_iff.mp hy).1
    exact ⟨{ x with inst := i }, by simp [hlt], hnext, honline⟩
  · exact ⟨y, by rwa [List.getElem?_set_ne hw], hrising, id⟩

theorem Steady.keeps {w : Nat} (h : Steady m w) (hkeeps : KeepsRising m t w) : Steady t w := by
  obtain ⟨x, hx, hrising, honline⟩ := h
  obtain ⟨y, hy, hrising', honline'⟩ := hkeeps x hx hrising
  exact ⟨y, hy, hrising', honline' honline⟩

theorem Turn.keeps (h : Turn m p b j s hot front) (hkeeps : ∀ x ∈ b.insts, KeepsRising m t x.inst) :
    Turn t p b j s hot front := by
  cases h with
  | aside hfront => exact .aside hfront
  | cancel hget => exact .cancel hget
  | wait => exact .wait
  | replace => exact .replace
  | online hget hx hrising =>
    obtain ⟨y, hy, hrising', -⟩ := hkeeps _ (List.mem_of_getElem? hget) _ hx hrising
    exact .online hget hy hrising'

theorem Turn.le (h : Turn m p b j s hot front) : j ≤ s := by
  cases h with
  | aside | online => exact Nat.le_refl _
  | cancel | wait | replace => exact Nat.le_succ _

theorem rolling_worker {w : Nat} {act : Instance.Action} (hm : Rolling base a p m)
    (hgentle : Gentle a.name m (.worker w act)) (hstep : m.step (.worker w act) = some t) :
    Rolling base a p t := by
  obtain ⟨hhoused, hctx, b, j, hot, hget, hb, hidle, hstage⟩ := hm
  have ht := housed_step hhoused hstep
  cases moves_of_step hstep with
  | @worker _ _ _ x i hmove =>
    have hkeeps : ∀ y ∈ b.insts, KeepsRising m t y.inst := fun y hy =>
      keepsRising_worker hctx hgentle hmove fun z hz => (hhoused.app_of_handle hget hy hz).trans hb.name
    have hevolves := evolves_worker hmove
    have hb' : Rolls base a b j hot t := by
      refine hb.congr (Nat.le_of_eq hevolves.length.symm) (slotsStarted_evolves hevolves) fun k y hy hk => ?_
      exact (hb.steady k y hy hk).keeps (hkeeps y (List.mem_of_getElem? hy))
    have heq := hmove.eq
    subst heq
    refine ⟨ht, hctx, b, j, hot, hget, hb', hidle, fun op todo hrun => ?_⟩
    obtain ⟨s, front, rem, sel, htodo, hturn, hs, hrem⟩ := hstage op todo hrun
    exact ⟨s, front, rem, sel, htodo, hturn.keeps hkeeps, hs, hrem⟩

theorem rolling_step {act : Action} (hgentle : Gentle a.name m act) (hm : Rolling base a p m)
    (hstep : m.step act = some t) : Rolling base a p t := by
  cases act with
  | call op => exact hgentle.elim
  | exec => exact rolling_exec hm hgentle hstep
  | worker w act => exact rolling_worker hm hgentle hstep
  | cancelCtx => exact hgentle.elim

end Rolls

/-! ### The start of a reload -/

section Start
variable {m : Manager} {p : Nat} {ps : List Nat} {a : ManagedApp} {sel : String}

/-- The turns of a reload, each a position and a slot. -/
def turnsOf (m : Manager) (ps : List Nat) : List (Nat × Nat) :=
  ps.flatMap fun p => match m.apps[p]? with
    | some a => (List.range a.spec.instances.toNat).map fun idx => (p, idx)
    | none => []

theorem toCome_turnsOf (m : Manager) (ps : List Nat) (sel : String) :
    toCome (m.turnsOf ps) sel = m.reloadSlots ps ++ [.describe sel] := by
  unfold toCome turnsOf reloadSlots
  rw [List.map_flatMap]
  congr 2
  funext p
  cases m.apps[p]? with
  | none => rfl
  | some a => rw [List.map_map]; rfl

theorem slotsToCome_turnsOf (ha : m.apps[p]? = some a) (hp : p ∈ ps) (hps : ps.Nodup) :
    slotsToCome p (m.turnsOf ps) = List.range a.spec.instances.toNat := by
  have hcons : ∀ q rest, slotsToCome p (m.turnsOf (q :: rest)) =
      slotsToCome p (m.turnsOf [q]) ++ slotsToCome p (m.turnsOf rest) := by
    intro q rest
    simp [turnsOf, slotsToCome]
  have hother : ∀ q, q ≠ p → slotsToCome p (m.turnsOf [q]) = [] := by
    intro q hq
    cases hget : m.apps[q]? with
    | none => simp [turnsOf, slotsToCome, hget]
    | some c => simp [turnsOf, slotsToCome, hget, hq]
  have hothers : ∀ rest, p ∉ rest → slotsToCome p (m.turnsOf rest) = [] := by
    intro rest
    induction rest with
    | nil => exact fun _ => rfl
    | cons q rest ih =>
      intro hnot
      rw [List.mem_cons, not_or] at hnot
      rw [hcons, hother q (Ne.symm hnot.1), ih hnot.2, List.nil_append]
  have hmine : slotsToCome p (m.turnsOf [p]) = List.range a.spec.instances.toNat := by
    simp [turnsOf, slotsToCome, ha, List.filter_map, Function.comp_def]
  induction ps with
  | nil => cases hp
  | cons q rest ih =>
    obtain ⟨hq, hrest⟩ := List.nodup_cons.mp hps
    rw [hcons]
    rcases List.mem_cons.mp hp with rfl | hp
    · rw [hmine, hothers rest hq, List.append_nil]
    · rw [hother q fun heq => hq (heq ▸ hp), ih hp hrest, List.nil_append]

/-- While no operation is under way, what is up is steady. -/
theorem Housed.steady (hm : Housed m) (hidle : m.running = none) (hctx : m.ctxDone = false) {w : Nat}
    (hup : m.isUp w = true) : Steady m w := by
  unfold isUp at hup
  split at hup
  · rename_i x hx
    have hup := of_decide_eq_true hup
    have hmem := List.mem_of_getElem? hx
    have hcoherent := hm.coherent x hmem
    have hdone : x.inst.done = false := by
      rw [Bool.eq_false_iff]
      intro hdone
      rcases hm.cancelled w x hx hdone with hcancelled | ⟨y, hy, hpc⟩ | ⟨op, todo, hrun, -⟩
      · rw [hctx] at hcancelled
        cases hcancelled
      · obtain rfl : x = y := Option.some.inj (hx.symm.trans hy)
        have hfits := hcoherent.fits
        rw [hpc, hup.1] at hfits
        simp [Instance.fits] at hfits
      · rw [hidle] at hrun
        cases hrun
    exact ⟨x, hx, Instance.rising_of_up hcoherent hdone (hm.stops x hmem) hup, hup.1⟩
  · cases hup

theorem rolling_call (hm : Housed m) (hidle : m.running = none) (hctx : m.ctxDone = false)
    (hsel : resolve m.apps sel = .ok ps) (hp : p ∈ ps) (ha : m.apps[p]? = some a)
    (hup : ∀ h ∈ a.insts, m.isUp h.inst = true) :
    Rolling m.workers.length a p (m.call (.reload sel)) := by
  have hcall : m.call (.reload sel) = m.proceed (.reload sel) ([] ++ toCome (m.turnsOf ps) sel) := by
    simp only [call, selected, hsel, toCome_turnsOf, proceed, List.nil_append]
  have hstep : m.step (.call (.reload sel)) = some (m.call (.reload sel)) := by simp only [step, hidle]
  have ht := housed_step hm hstep
  rw [hcall] at ht ⊢
  have hrolls : Rolls m.workers.length a a 0 none m := by
    refine ⟨rfl, rfl, Nat.le_refl _, ?_, fun k h _ hk => absurd hk (Nat.not_lt_zero k), fun k h hh _ => ?_⟩
    · simp [slotsStarted, List.drop_eq_nil_of_le]
    · exact hm.steady hidle hctx (hup h (List.mem_of_getElem? hh))
  have hrem : slotsToCome p (m.turnsOf ps) = List.range' 0 (a.spec.instances.toNat - 0) := by
    rw [slotsToCome_turnsOf ha hp (resolve_nodup hsel), Nat.sub_zero, List.range_eq_range']
  exact rolling_of ht hctx ha (hrolls.proceed _) rfl (.aside (by simp)) (Nat.zero_le _) hrem

end Start

/-! ### The whole reload -/

/-- The reload has replaced every instance of the app `a`, which is `b` now. -/
structure Reloaded (base : Nat) (a b : ManagedApp) (m : Manager) : Prop where
  slots : m.slotsStarted base a.name = List.range a.insts.length
  up : b.insts.length = a.insts.length ∧ ∀ h ∈ b.insts, m.isUp h.inst = true
  fresh : ∀ h ∈ b.insts, base ≤ h.inst
  labels : b.insts.map (fun h => (h.instanceID, h.label)) = a.insts.map fun h => (h.instanceID, h.label)

/-- **A rolling reload keeps the app up.** In every reachable state whose base context is not
cancelled, let a reload select an app whose instances are all online, and let the run go on while no
child of the app ends before it is told to, every new instance is online before its time is up, and
the base context is not cancelled. At every step the app has at most one instance that is not up,
and the slots replaced so far are the first ones, each once and in order. When the reload has
returned, every slot is replaced: the app has as many instances as before, all of them online and
new, with the same indices and labels. -/
theorem reload_rolling {as more : List Action} {m u : Manager} {sel : String} {ps : List Nat} {p : Nat}
    {a : ManagedApp} (hrun : machine.run {} as = some m) (hctx : m.ctxDone = false)
    (hsel : resolve m.apps sel = .ok ps) (hp : p ∈ ps) (ha : m.apps[p]? = some a)
    (hup : ∀ h ∈ a.insts, m.isUp h.inst = true)
    (hmore : machine.run m (.call (.reload sel) :: more) = some u)
    (hgentle : machine.Along (Gentle a.name) (m.call (.reload sel)) more) :
    ∃ b, u.apps[p]? = some b ∧ b.name = a.name ∧ a.insts.length ≤ u.upCount b + 1 ∧
      (∃ j ≤ a.insts.length, u.slotsStarted m.workers.length a.name = List.range j) ∧
      (u.running = none → Reloaded m.workers.length a b u) := by
  have hm := housed_run hrun
  obtain ⟨t, hcall, hrest⟩ := machine.run_cons.mp hmore
  obtain ⟨hidle, rfl⟩ := step_call hcall
  have hstart := rolling_call hm hidle hctx hsel hp ha hup
  have hend := machine.along_invariant (fun _ _ _ hC hI h => rolling_step hC hI h) hstart hrest hgentle
  obtain ⟨hhoused, -, b, j, hot, hget, hb, hover, hstage⟩ := hend
  have hseated := hm.seated a (List.mem_of_getElem? ha)
  have hseated' := hhoused.seated b (List.mem_of_getElem? hget)
  have hlen : b.insts.length = a.insts.length := by rw [hseated.length, hseated'.length, hb.instances]
  have hcount : b.insts.length ≤ u.upCount b + 1 :=
    length_le_countP fun k h hh hk => (hb.steady k h hh hk).isUp
  have hj : j ≤ a.insts.length := by
    rw [hseated.length]
    cases hrunning : u.running with
    | none => exact Nat.le_of_eq (hover hrunning).1
    | some r =>
      obtain ⟨s, front, rem, sel, -, hturn, hs, -⟩ := hstage r.op r.todo hrunning
      exact Nat.le_trans hturn.le hs
  refine ⟨b, hget, hb.name, hlen ▸ hcount, ⟨j, hj, hb.started⟩, fun hreturned => ?_⟩
  obtain ⟨rfl, rfl⟩ := hover hreturned
  have hall : ∀ h ∈ b.insts, ∃ k, b.insts[k]? = some h ∧ k < a.spec.instances.toNat := by
    intro h hh
    obtain ⟨k, hk⟩ := List.mem_iff_getElem?.mp hh
    have hlt := (List.getElem?_eq_some_iff.mp hk).1
    rw [hlen, hseated.length] at hlt
    exact ⟨k, hk, hlt⟩
  refine ⟨?_, ⟨hlen, fun h hh => ?_⟩, fun h hh => ?_, ?_⟩
  · rw [hb.started, hseated.length]
  · obtain ⟨k, hk, -⟩ := hall h hh
    exact (hb.steady k h hk nofun).isUp
  · obtain ⟨k, hk, hlt⟩ := hall h hh
    exact hb.fresh k h hk hlt
  · rw [hseated.slots, hseated'.slots, hb.instances, hb.name]

/-- An app of two instances, both online. -/
def twoUp : List Action :=
  [.call (.add { name := "web", instances := 2 })] ++ comesUp 0 7 ++ comesUp 1 8

/-- A turn of a reload: one instance goes down, and another comes up. -/
def turnover (old new : Nat) (pid : Int) : List Action :=
  [.exec, .exec] ++ goesDown old ++ [.exec, .exec] ++ comesUp new pid ++ [.exec, .exec]

theorem reload_rolling_twoUp : ∃ m u a b, machine.run {} twoUp = some m ∧ m.apps[0]? = some a ∧
    machine.run m (.call (.reload "web") :: (turnover 0 2 9 ++ turnover 1 3 10 ++ [.exec])) = some u ∧
    u.apps[0]? = some b ∧ Reloaded m.workers.length a b u := by
  have h := @reload_rolling twoUp (turnover 0 2 9 ++ turnover 1 3 10 ++ [.exec]) _ _ "web" [0] 0 _ rfl
    (by decide) (by decide) (by decide) rfl (by decide) rfl (by decide)
  obtain ⟨b, hget, -, -, -, hreloaded⟩ := h
  exact ⟨_, _, _, b, rfl, rfl, rfl, hget, hreloaded rfl⟩

end Manager
end Marshal.Daemon
