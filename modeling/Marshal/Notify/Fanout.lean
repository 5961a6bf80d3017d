import Marshal.Notify.Delivered

/-! Which channels get an event.

A call reads the settings, the channels and the rules at moments of their own, while the store
changes. What it delivers is judged by what it read, and what it read was the store's once the
call had begun (`history_step`). -/
namespace Marshal.Notify
open Transition

namespace Dispatching
variable {openBox : String → String → Option (Table String String)}

/-! ### What was read and when -/

/-- A state of the run is one that `P` holds of, with the actions that lead to it. -/
def Seen (openBox : String → String → Option (Table String String)) (s₀ : Dispatching) (as : List DispatchAct)
    (P : List DispatchAct → Dispatching → Prop) : Prop :=
  ∃ before u, before <+: as ∧ (dispatching openBox).run s₀ before = some u ∧ P before u

theorem Seen.longer {s₀ : Dispatching} {as : List DispatchAct} {P : List DispatchAct → Dispatching → Prop}
    (h : Seen openBox s₀ as P) (a : DispatchAct) : Seen openBox s₀ (as ++ [a]) P := by
  obtain ⟨before, u, hprefix, hrun, hP⟩ := h
  exact ⟨before, u, hprefix.trans (List.prefix_append as [a]), hrun, hP⟩

theorem seen_now {s₀ f : Dispatching} {as : List DispatchAct} {P : List DispatchAct → Dispatching → Prop}
    (hrun : (dispatching openBox).run s₀ as = some f) (hP : P as f) : Seen openBox s₀ as P :=
  ⟨as, f, List.prefix_refl as, hrun, hP⟩

/-- Recoveries were not suppressed when the call read so, and the settings are those it read. -/
structure Asked (openBox : String → String → Option (Table String String)) (s₀ : Dispatching) (as : List DispatchAct)
    (id : Nat) (x : Emission) : Prop where
  wanted : Seen openBox s₀ as fun _ u =>
    id < u.begun ∧ ¬ (x.event.type = .recovered ∧ u.store.memory.settings.suppressRecovery = true)
  settings : Seen openBox s₀ as fun _ u => id < u.begun ∧ u.store.memory.settings = x.settings

/-- The channels, and after them the rules, were the store's once the call had begun. -/
def Read (openBox : String → String → Option (Table String String)) (s₀ : Dispatching) (as : List DispatchAct)
    (r : Routing) : Prop :=
  Seen openBox s₀ as fun later v => v.store.memory.Rules = r.rules ∧
    Seen openBox s₀ later fun _ u => r.call < u.begun ∧ u.store.memory.Channels = r.channels

/-- A sender is built from the secrets its channel had at some time. -/
def Built (openBox : String → String → Option (Table String String)) (s₀ : Dispatching) (as : List DispatchAct)
    (i : Nat) (d : Delivery) (s : Sender) : Prop :=
  Seen openBox s₀ as fun _ u => i < u.deliveries.length ∧ ∃ secrets ok,
    u.store.memory.ChannelSecrets openBox d.channel.name = some (secrets, ok) ∧ newSender d.channel secrets = .ok s

def Backed (openBox : String → String → Option (Table String String)) (s₀ : Dispatching) (as : List DispatchAct)
    (id : Nat) : Stage → Prop
  | .emitting _ => True
  | .screened e => Seen openBox s₀ as fun _ u =>
    id < u.begun ∧ ¬ (e.type = .recovered ∧ u.store.memory.settings.suppressRecovery = true)
  | .asked x => Asked openBox s₀ as id x
  | .accepted x => Asked openBox s₀ as id x
  | .listed x channels => Asked openBox s₀ as id x ∧
    Seen openBox s₀ as fun _ u => id < u.begun ∧ u.store.memory.Channels = channels

def senderOf : Progress → Option Sender
  | .sending s _ => some s
  | .sent s _ => some s
  | .gaveUp s => some s
  | _ => none

section History
variable {s₀ f g : Dispatching} {as : List DispatchAct} {a : DispatchAct}

theorem Asked.longer {id : Nat} {x : Emission} (h : Asked openBox s₀ as id x) (a : DispatchAct) :
    Asked openBox s₀ (as ++ [a]) id x := ⟨h.wanted.longer a, h.settings.longer a⟩

theorem Backed.longer {id : Nat} {st : Stage} (h : Backed openBox s₀ as id st) (a : DispatchAct) :
    Backed openBox s₀ (as ++ [a]) id st := by
  cases st with
  | emitting e => trivial
  | screened e => exact Seen.longer h a
  | asked x => exact Asked.longer h a
  | accepted x => exact Asked.longer h a
  | listed x channels => exact ⟨h.1.longer a, h.2.longer a⟩

structure History (openBox : String → String → Option (Table String String)) (s₀ : Dispatching)
    (as : List DispatchAct) (f : Dispatching) : Prop where
  calls : ∀ id st, f.calls.get id = some st → Backed openBox s₀ as id st
  routings : ∀ r ∈ f.routings, Asked openBox s₀ as r.call r.emission ∧ Read openBox s₀ as r
  senders : ∀ i d s, f.deliveries[i]? = some d → senderOf d.progress = some s → Built openBox s₀ as i d s

theorem History.longer (h : History openBox s₀ as f) (a : DispatchAct) : History openBox s₀ (as ++ [a]) f where
  calls id st hst := (h.calls id st hst).longer a
  routings r hr := ⟨(h.routings r hr).1.longer a, (h.routings r hr).2.longer a⟩
  senders i d s hget hs := (h.senders i d s hget hs).longer a

/-- A call moves to a stage that what was seen so far stands behind. -/
theorem history_set (h : History openBox s₀ as f) {id : Nat} (new : Stage) (hcalls : g.calls = f.calls.set id new)
    (hroutings : g.routings = f.routings) (hdeliveries : g.deliveries = f.deliveries)
    (hnew : Backed openBox s₀ as id new) : History openBox s₀ as g := by
  refine ⟨fun i st hst => ?_, ?_, ?_⟩
  · rw [hcalls, Table.get_set] at hst
    split at hst
    · rename_i hi
      rw [Option.some.injEq] at hst
      rw [hi, ← hst]
      exact hnew
    · exact h.calls i st hst
  · rw [hroutings]
    exact h.routings
  · rw [hdeliveries]
    exact h.senders

theorem history_del (h : History openBox s₀ as f) (id : Nat) (hcalls : g.calls = f.calls.del id)
    (hroutings : g.routings = f.routings) (hdeliveries : g.deliveries = f.deliveries) : History openBox s₀ as g := by
  refine ⟨fun i st hst => ?_, ?_, ?_⟩
  · rw [hcalls, Table.get_del] at hst
    split at hst
    · cases hst
    · exact h.calls i st hst
  · rw [hroutings]
    exact h.routings
  · rw [hdeliveries]
    exact h.senders

theorem history_advance (h : History openBox s₀ as f) {i : Nat} {d : Delivery} {p : Progress}
    (hcalls : g.calls = f.calls) (hroutings : g.routings = f.routings)
    (hdeliveries : g.deliveries = (f.advance i d p).deliveries)
    (hbuilt : ∀ s, senderOf p = some s → Built openBox s₀ as i d s) : History openBox s₀ as g := by
  refine ⟨?_, ?_, fun j e s hget hs => ?_⟩
  · rw [hcalls]
    exact h.calls
  · rw [hroutings]
    exact h.routings
  · rw [hdeliveries, advance, List.getElem?_set] at hget
    split at hget
    · rename_i hij
      split at hget
      · rw [Option.some.injEq] at hget
        rw [← hget] at hs ⊢
        exact hij ▸ hbuilt s hs
      · cases hget
    · exact h.senders j e s hget hs

theorem history_route (hrun : (dispatching openBox).run s₀ as = some f) (h : History openBox s₀ as f) {id : Nat}
    {x : Emission} {channels : List Channel} (hcall : f.calls.get id = some (.listed x channels)) :
    History openBox s₀ as (f.route id x channels) := by
  have hdel : History openBox s₀ as { f with calls := f.calls.del id } := history_del h id rfl rfl rfl
  obtain ⟨hasked, hlisted⟩ := h.calls id _ hcall
  refine ⟨hdel.calls, fun r hr => ?_, fun i d s hget hs => ?_⟩
  · rcases List.mem_append.mp hr with hr | hr
    · exact h.routings r hr
    · rw [List.mem_singleton.mp hr]
      exact ⟨hasked, seen_now hrun ⟨rfl, hlisted⟩⟩
  · by_cases hi : i < f.deliveries.length
    · rw [route, List.getElem?_append_left hi] at hget
      exact h.senders i d s hget hs
    · rw [route, List.getElem?_append_right (Nat.le_of_not_lt hi), List.getElem?_map, Option.map_eq_some_iff] at hget
      obtain ⟨c, -, rfl⟩ := hget
      cases hs

theorem history_step (hrun : (dispatching openBox).run s₀ as = some f) (hknown : Accounted f)
    (h : History openBox s₀ as f) (hstep : f.step openBox a = some g) : History openBox s₀ (as ++ [a]) g := by
  refine History.longer ?_ a
  cases steps_of_step hstep with
  | change => exact ⟨h.calls, h.routings, h.senders⟩
  | emit e => exact history_set h _ rfl rfl rfl trivial
  | screen hcall =>
    unfold screen
    split
    · exact history_del h _ rfl rfl rfl
    · rename_i hwanted
      exact history_set h _ rfl rfl rfl (seen_now hrun ⟨hknown.known _ _ hcall, hwanted⟩)
  | ask now hcall =>
    exact history_set h _ rfl rfl rfl ⟨h.calls _ _ hcall, seen_now hrun ⟨hknown.known _ _ hcall, rfl⟩⟩
  | @lock id x hcall =>
    have hasked : Asked openBox s₀ as id x := h.calls id _ hcall
    cases hpass : (allow true f.last x.event x.settings x.now).2 with
    | true =>
      refine history_set h (.accepted x) ?_ rfl rfl hasked
      rw [lock, hpass, if_pos rfl]
    | false =>
      refine history_del h id ?_ rfl rfl
      rw [lock, hpass, if_neg Bool.false_ne_true]
  | list hcall =>
    exact history_set h _ rfl rfl rfl ⟨h.calls _ _ hcall, seen_now hrun ⟨hknown.known _ _ hcall, rfl⟩⟩
  | route hcall => exact history_route hrun h hcall
  | @fetch i d hget hwaits =>
    refine history_advance h rfl rfl rfl fun s hs => ?_
    refine seen_now hrun ⟨(List.getElem?_eq_some_iff.mp hget).1, ?_⟩
    unfold fetched at hs
    split at hs
    · cases hs
    · rename_i secrets ok hsecrets
      split at hs
      · cases hs
      · rename_i s' hs'
        cases hs
        exact ⟨secrets, ok, hsecrets, hs'⟩
  | @send i d s failures ok hget hsending =>
    refine history_advance h rfl rfl rfl fun s' hs' => ?_
    refine h.senders i d s' hget ?_
    rw [hsending]
    unfold tried at hs'
    split at hs'
    · exact hs'
    · split at hs'
      · exact hs'
      · exact hs'

end History

/-! ### Deliveries, exactly -/

/-- Two events of one key that got through stand a cooldown apart, that of the later one. -/
def Spaced (x y : Emission) : Prop :=
  cooldownKey x.event = cooldownKey y.event →
    y.settings.cooldownFor y.event.type ≤ y.now - x.now ∨ x.settings.cooldownFor x.event.type ≤ x.now - y.now

theorem Spaced.symm {x y : Emission} (h : Spaced x y) : Spaced y x := fun hkey => (h hkey.symm).symm

structure Exact (openBox : String → String → Option (Table String String)) (s₀ : Dispatching)
    (as : List DispatchAct) (f : Dispatching) : Prop where
  /-- No channel gets the event of a call twice. -/
  once : (f.deliveries.map fun d => (d.call, d.channel.name)).Nodup
  /-- A delivery is one of a call that got through the gate and chose its channels. -/
  ofCall : ∀ d ∈ f.deliveries, ∃ r ∈ f.routings, r.call = d.call ∧ d.message = render r.emission.event
  chosen : ∀ r ∈ f.routings, ∀ c, (∃ d ∈ f.deliveries, d.call = r.call ∧ d.channel = c) ↔
    c ∈ r.channels ∧ c.enabled = true ∧
      ∃ rule ∈ r.rules, rule.Matches r.emission.event = true ∧ c.name ∈ rule.channels
  read : ∀ r ∈ f.routings, Asked openBox s₀ as r.call r.emission ∧ Read openBox s₀ as r
  /-- With a clock that does not go back and no cooldown raised. -/
  spaced : Steady f.arrivals → ∀ r ∈ f.routings, ∀ r' ∈ f.routings, r.call ≠ r'.call → Spaced r.emission r'.emission
  /-- Failures come first, at most three of them, and nothing after the attempt that goes through. -/
  attempted : ∀ i d, f.deliveries[i]? = some d → attemptsOf f.log i = outcomes d.progress ∧ Within d.progress
  /-- A channel's message is sent with its own secrets. -/
  built : ∀ i d s, f.deliveries[i]? = some d → senderOf d.progress = some s → Built openBox s₀ as i d s

theorem pairwise_of_splits {α : Type*} {R : α → α → Prop} {l : List α}
    (h : ∀ before y after, l = before ++ y :: after → ∀ x ∈ before, R x y) : l.Pairwise R := by
  induction l using List.reverseRecOn with
  | nil => exact List.Pairwise.nil
  | append_singleton l y ih =>
    refine List.pairwise_append.mpr ⟨ih fun before z after hsplit => ?_, List.pairwise_singleton _ _, ?_⟩
    · refine h before z (after ++ [y]) ?_
      rw [hsplit, List.append_assoc, List.cons_append]
    · intro x hx z hz
      rw [List.mem_singleton.mp hz]
      exact h l y [] rfl x hx

def SpacedGated (y z : Nat × Emission × Bool) : Prop := y.2.2 = true → z.2.2 = true → Spaced y.2.1 z.2.1

instance : Std.Symm SpacedGated where
  symm _ _ h hz hy := (h hy hz).symm

/-- Two calls that got through with one key: one of them is a cooldown after the other. -/
theorem spaced_gated {f : Dispatching} (h : Gate f) (hsteady : Steady f.arrivals) {id id' : Nat} {x x' : Emission}
    (hx : (id, x, true) ∈ f.gated) (hx' : (id', x', true) ∈ f.gated) (hne : id ≠ id') : Spaced x x' := by
  have hpairs : (allowed true ∅ f.arrivals).Pairwise fun y z => y.2 = true → z.2 = true →
      cooldownKey y.1.event = cooldownKey z.1.event → z.1.settings.cooldownFor z.1.event.type ≤ z.1.now - y.1.now := by
    rw [allowed_pruned hsteady]
    refine pairwise_of_splits fun before z after hsplit y hy hyout hzout hkey => ?_
    exact (allowed_distance hsteady hsplit).apart hzout y hy hyout hkey
  rw [← h.answers, List.pairwise_map] at hpairs
  have hall : f.gated.Pairwise SpacedGated := hpairs.imp fun hyz hy hz hkey => .inl (hyz hy hz hkey)
  have hspaced : SpacedGated (id, x, true) (id', x', true) :=
    hall.forall hx hx' fun heq => hne (congrArg Prod.fst heq)
  exact hspaced rfl rfl

theorem chosen_exactly {f : Dispatching} {s₀ : Dispatching} {as : List DispatchAct} (hstarted : Started f)
    (hcalls : Accounted f) (hread : ∀ r ∈ f.routings, Read openBox s₀ as r) :
    ∀ r ∈ f.routings, ∀ c, (∃ d ∈ f.deliveries, d.call = r.call ∧ d.channel = c) ↔
      c ∈ r.channels ∧ c.enabled = true ∧
        ∃ rule ∈ r.rules, rule.Matches r.emission.event = true ∧ c.name ∈ rule.channels := by
  intro r hr c
  obtain ⟨later, v, -, -, -, before, u, -, -, -, hchannels⟩ := hread r hr
  rw [← mem_matchChannels (hchannels ▸ u.store.memory.nodup_Channels)]
  have hmem : ∀ x, x ∈ f.deliveries.map target ↔ ∃ r ∈ f.routings, x ∈ targets r := by
    intro x
    rw [hstarted, List.mem_flatMap]
  constructor
  · intro h
    obtain ⟨d, hd, hcall, hchannel⟩ := h
    obtain ⟨r', hr', htarget⟩ := (hmem (target d)).mp (List.mem_map_of_mem hd)
    obtain ⟨c', hc', heq⟩ := List.mem_map.mp htarget
    rw [target, Prod.mk.injEq, Prod.mk.injEq] at heq
    have hsame : r' = r := List.inj_on_of_nodup_map hcalls.routedOnce hr' hr (heq.1.trans hcall)
    rw [← hchannel, ← heq.2.1, ← hsame]
    exact hc'
  · intro h
    obtain ⟨d, hd, heq⟩ := List.mem_map.mp ((hmem _).mpr ⟨r, hr, List.mem_map_of_mem h⟩)
    rw [target, Prod.mk.injEq, Prod.mk.injEq] at heq
    exact ⟨d, hd, heq.1, heq.2.1⟩

theorem delivered_once {f : Dispatching} {s₀ : Dispatching} {as : List DispatchAct} (hstarted : Started f)
    (hcalls : Accounted f) (hread : ∀ r ∈ f.routings, Read openBox s₀ as r) :
    (f.deliveries.map fun d => (d.call, d.channel.name)).Nodup := by
  have hpairs : (f.deliveries.map fun d => (d.call, d.channel.name)) = f.routings.flatMap fun r =>
      (matchChannels r.channels r.rules r.emission.event).map fun c => (r.call, c.name) := by
    have h := congrArg (List.map fun x : Nat × Channel × Message => (x.1, x.2.1.name)) hstarted
    rw [List.map_map, List.map_flatMap] at h
    refine h.trans (List.flatMap_congr fun r _ => ?_)
    rw [targets, List.map_map]
    rfl
  rw [hpairs, List.nodup_flatMap]
  refine ⟨fun r hr => ?_, ?_⟩
  · obtain ⟨later, v, -, -, -, before, u, -, -, -, hchannels⟩ := hread r hr
    have hnodup := nodup_matchChannels (hchannels ▸ u.store.memory.nodup_Channels) r.rules r.emission.event
    refine List.Nodup.of_map Prod.snd ?_
    rwa [List.map_map]
  · have honce := List.pairwise_map.mp hcalls.routedOnce
    refine honce.imp fun hne => ?_
    intro y hy hy'
    obtain ⟨c, -, rfl⟩ := List.mem_map.mp hy
    obtain ⟨c', -, heq⟩ := List.mem_map.mp hy'
    exact hne (Prod.mk.inj heq).1.symm

/-- All that is kept of a run. -/
structure Kept (openBox : String → String → Option (Table String String)) (s₀ : Dispatching)
    (as : List DispatchAct) (f : Dispatching) : Prop where
  gate : Gate f
  calls : Accounted f
  started : Started f
  attempted : Attempted f
  history : History openBox s₀ as f

theorem kept_start (s : Store) (as : List DispatchAct) : Kept openBox { store := s } as { store := s } where
  gate := ⟨rfl, rfl⟩
  calls := by constructor <;> simp
  started := rfl
  attempted := by constructor <;> simp
  history := by constructor <;> simp

theorem kept_run {s₀ f : Dispatching} {as : List DispatchAct} (hinit : (dispatching openBox).init s₀)
    (hrun : (dispatching openBox).run s₀ as = some f) : Kept openBox s₀ as f := by
  obtain ⟨s, rfl⟩ := hinit
  refine (dispatching openBox).run_history (I := Kept openBox _) (kept_start s []) ?_ hrun
  intro as f a g hrun h hstep
  exact ⟨gate_step h.gate hstep, accounted_step h.calls hstep, started_step h.started hstep,
    attempted_step h.attempted hstep, history_step hrun h.calls h.history hstep⟩

end Dispatching

/-- A channel with a secret, and a rule for crashes that names it twice. -/
def onCallStore : FileModel where
  channels := (∅ : Table String StoredChannel).set "on-call" { type := "slack", enabled := true, secretCipher := "c" }
  rules := (∅ : Table String Rule).set "crashes"
    { name := "crashes", enabled := true, events := [.crash], channels := ["on-call", "gone", "on-call"] }
  settings := { cooldownSeconds := 300 }

def openAny (_ _ : String) : Option (Table String String) :=
  some ((∅ : Table String String).set "webhook_url" "https://hooks")

def retried : List DispatchAct :=
  [.emit { type := .crash, agent := "dev-1", process := "api", time := 0 }, .screen 0, .ask 0 0, .lock 0, .list 0, .route 0,
    .fetch 0, .send 0 false, .send 0 true]

end Marshal.Notify
