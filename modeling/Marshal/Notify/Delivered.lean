import Marshal.Notify.Delivery

/-! What the dispatcher delivers.

The gate is asked one call at a time, so that its answers are those of `allowed` on the events in
the order of their calls under the lock (`gate_step`). The deliveries are what the calls that got through chose
(`started_step`), and the attempts of each are failures up to the one that goes through (`attempted_step`). -/
namespace Marshal.Notify
open Transition

/-! ### The gate -/

def gateAfter (xs : List Emission) : LastSent :=
  xs.foldl (fun last x => (allow true last x.event x.settings x.now).1) ∅

theorem allowed_concat (last : LastSent) (xs : List Emission) (x : Emission) :
    allowed true last (xs ++ [x]) = allowed true last xs ++
      [(x, (allow true (xs.foldl (fun last x => (allow true last x.event x.settings x.now).1) last)
        x.event x.settings x.now).2)] := by
  induction xs generalizing last with
  | nil => rfl
  | cons y rest ih => simp only [List.cons_append, allowed, ih, List.foldl_cons]

namespace Dispatching
variable {openBox : String → String → Option (Table String String)}

/-- The events that came to the gate, in turn. -/
def arrivals (f : Dispatching) : List Emission := f.gated.map fun y => y.2.1

structure Gate (f : Dispatching) : Prop where
  last : f.last = gateAfter f.arrivals
  answers : f.gated.map Prod.snd = allowed true ∅ f.arrivals

theorem gate_lock {f : Dispatching} (h : Gate f) (id : Nat) (x : Emission) : Gate (f.lock id x) := by
  have harrivals : (f.lock id x).arrivals = f.arrivals ++ [x] := by simp [arrivals, lock]
  refine ⟨?_, ?_⟩
  · rw [harrivals, gateAfter, List.foldl_concat, ← gateAfter, ← h.last]
    rfl
  · rw [harrivals, allowed_concat, ← h.answers, ← gateAfter, ← h.last]
    simp [lock]

theorem gate_step {f g : Dispatching} {a : DispatchAct} (h : Gate f) (hstep : f.step openBox a = some g) : Gate g := by
  cases steps_of_step hstep with
  | screen hcall =>
    unfold screen
    split
    · exact ⟨h.last, h.answers⟩
    · exact ⟨h.last, h.answers⟩
  | lock hcall => exact gate_lock h _ _
  | change | emit | ask | list | route | fetch | send => exact ⟨h.last, h.answers⟩

/-! ### Calls -/

/-- The emission of a call that is through the gate. -/
def passed : Stage → Option Emission
  | .accepted x => some x
  | .listed x _ => some x
  | _ => none

structure Accounted (f : Dispatching) : Prop where
  known : ∀ id st, f.calls.get id = some st → id < f.begun
  gatedKnown : ∀ y ∈ f.gated, y.1 < f.begun
  gatedOnce : (f.gated.map Prod.fst).Nodup
  ahead : ∀ id st, f.calls.get id = some st → passed st = none → id ∉ f.gated.map Prod.fst
  through : ∀ id st x, f.calls.get id = some st → passed st = some x → (id, x, true) ∈ f.gated
  routed : ∀ r ∈ f.routings, (r.call, r.emission, true) ∈ f.gated
  routedOnce : (f.routings.map Routing.call).Nodup
  routedDone : ∀ r ∈ f.routings, f.calls.get r.call = none

/-- A call moves on and nothing else does. -/
theorem accounted_set {f g : Dispatching} (h : Accounted f) {id : Nat} {old new : Stage}
    (hcall : f.calls.get id = some old) (hcalls : g.calls = f.calls.set id new) (hbegun : g.begun = f.begun)
    (hgated : g.gated = f.gated) (hroutings : g.routings = f.routings) (hpassed : passed new = passed old) :
    Accounted g := by
  have hget : ∀ i st, g.calls.get i = some st → ∃ st', f.calls.get i = some st' ∧ passed st' = passed st := by
    intro i st hst
    rw [hcalls, Table.get_set] at hst
    split at hst
    · rename_i hi
      rw [Option.some.injEq] at hst
      exact ⟨old, hi ▸ hcall, hst ▸ hpassed.symm⟩
    · exact ⟨st, hst, rfl⟩
  refine ⟨?_, ?_, ?_, ?_, ?_, ?_, ?_, ?_⟩
  · intro i st hst
    obtain ⟨st', hst', -⟩ := hget i st hst
    rw [hbegun]
    exact h.known i st' hst'
  · rw [hgated, hbegun]
    exact h.gatedKnown
  · rw [hgated]
    exact h.gatedOnce
  · intro i st hst hnone
    obtain ⟨st', hst', hsame⟩ := hget i st hst
    rw [hgated]
    exact h.ahead i st' hst' (hsame.trans hnone)
  · intro i st x hst hsome
    obtain ⟨st', hst', hsame⟩ := hget i st hst
    rw [hgated]
    exact h.through i st' x hst' (hsame.trans hsome)
  · rw [hroutings, hgated]
    exact h.routed
  · rw [hroutings]
    exact h.routedOnce
  · intro r hr
    rw [hroutings] at hr
    have hdone := h.routedDone r hr
    have hne : r.call ≠ id := by
      intro heq
      rw [heq, hcall] at hdone
      cases hdone
    rw [hcalls, Table.get_set, if_neg hne]
    exact hdone

theorem accounted_del {f g : Dispatching} (h : Accounted f) (id : Nat) (hcalls : g.calls = f.calls.del id)
    (hbegun : g.begun = f.begun) (hgated : g.gated = f.gated) (hroutings : g.routings = f.routings) : Accounted g := by
  have hget : ∀ i st, g.calls.get i = some st → f.calls.get i = some st := by
    intro i st hst
    rw [hcalls, Table.get_del] at hst
    split at hst
    · cases hst
    · exact hst
  refine ⟨?_, ?_, ?_, ?_, ?_, ?_, ?_, ?_⟩
  · intro i st hst
    rw [hbegun]
    exact h.known i st (hget i st hst)
  · rw [hgated, hbegun]
    exact h.gatedKnown
  · rw [hgated]
    exact h.gatedOnce
  · intro i st hst hnone
    rw [hgated]
    exact h.ahead i st (hget i st hst) hnone
  · intro i st x hst hsome
    rw [hgated]
    exact h.through i st x (hget i st hst) hsome
  · rw [hroutings, hgated]
    exact h.routed
  · rw [hroutings]
    exact h.routedOnce
  · intro r hr
    rw [hroutings] at hr
    rw [hcalls, Table.get_del, h.routedDone r hr, ite_self]

theorem accounted_emit {f : Dispatching} (h : Accounted f) (e : Event) :
    Accounted { f with calls := f.calls.set f.begun (.emitting e), begun := f.begun + 1 } where
  known id st hst := by
    rw [Table.get_set] at hst
    split at hst
    · rename_i hid
      exact Nat.lt_succ_of_le (Nat.le_of_eq hid)
    · exact Nat.lt_succ_of_lt (h.known id st hst)
  gatedKnown y hy := Nat.lt_succ_of_lt (h.gatedKnown y hy)
  gatedOnce := h.gatedOnce
  ahead id st hst hnone := by
    rw [Table.get_set] at hst
    split at hst
    · rename_i hid
      intro hmem
      obtain ⟨y, hy, hyid⟩ := List.mem_map.mp hmem
      have hlt := h.gatedKnown y hy
      omega
    · exact h.ahead id st hst hnone
  through id st x hst hsome := by
    rw [Table.get_set] at hst
    split at hst
    · rw [Option.some.injEq] at hst
      rw [← hst] at hsome
      cases hsome
    · exact h.through id st x hst hsome
  routed := h.routed
  routedOnce := h.routedOnce
  routedDone r hr := by
    have hlt := h.gatedKnown _ (h.routed r hr)
    rw [Table.get_set, if_neg (Nat.ne_of_lt hlt)]
    exact h.routedDone r hr

theorem accounted_lock {f : Dispatching} (h : Accounted f) {id : Nat} {x : Emission}
    (hcall : f.calls.get id = some (.asked x)) : Accounted (f.lock id x) := by
  have hfresh : id ∉ f.gated.map Prod.fst := h.ahead id _ hcall rfl
  have hget : ∀ i st, (f.lock id x).calls.get i = some st →
      (i = id ∧ st = .accepted x ∧ (allow true f.last x.event x.settings x.now).2 = true) ∨
      (i ≠ id ∧ f.calls.get i = some st) := by
    intro i st hst
    unfold lock at hst
    dsimp only at hst
    by_cases hi : i = id
    · cases hpass : (allow true f.last x.event x.settings x.now).2 with
      | false => simp [hpass, hi] at hst
      | true =>
        rw [hpass, if_pos rfl, hi, Table.get_set_self, Option.some.injEq] at hst
        exact .inl ⟨hi, hst.symm, rfl⟩
    · refine .inr ⟨hi, ?_⟩
      split at hst
      · rwa [Table.get_set, if_neg hi] at hst
      · rwa [Table.get_del, if_neg hi] at hst
  refine ⟨?_, ?_, ?_, ?_, ?_, ?_, h.routedOnce, ?_⟩
  · intro i st hst
    rcases hget i st hst with hnew | hold
    · exact hnew.1 ▸ h.known id _ hcall
    · exact h.known i st hold.2
  · intro y hy
    rcases List.mem_append.mp hy with hy | hy
    · exact h.gatedKnown y hy
    · rw [List.mem_singleton.mp hy]
      exact h.known id _ hcall
  · show ((f.gated ++ [_]).map Prod.fst).Nodup
    rw [List.map_append, List.nodup_append]
    refine ⟨h.gatedOnce, by simp, fun a ha b hb => ?_⟩
    rw [List.map_singleton, List.mem_singleton] at hb
    intro heq
    rw [heq, hb] at ha
    exact hfresh ha
  · intro i st hst hnone
    rcases hget i st hst with hnew | hold
    · rw [hnew.2.1] at hnone
      cases hnone
    · show i ∉ (f.gated ++ [_]).map Prod.fst
      rw [List.map_append, List.mem_append, not_or]
      exact ⟨h.ahead i st hold.2 hnone, by simpa using hold.1⟩
  · intro i st y hst hsome
    rcases hget i st hst with hnew | hold
    · obtain ⟨hi, hst, hpass⟩ := hnew
      rw [hst, passed, Option.some.injEq] at hsome
      refine List.mem_append_right _ ?_
      rw [List.mem_singleton, hi, ← hsome, hpass]
    · exact List.mem_append_left _ (h.through i st y hold.2 hsome)
  · intro r hr
    exact List.mem_append_left _ (h.routed r hr)
  · intro r hr
    have hdone := h.routedDone r hr
    cases hget' : (f.lock id x).calls.get r.call with
    | none => rfl
    | some st =>
      rcases hget _ _ hget' with hnew | hold
      · rw [hnew.1, hcall] at hdone
        cases hdone
      · rw [hold.2] at hdone
        cases hdone

theorem accounted_route {f : Dispatching} (h : Accounted f) {id : Nat} {x : Emission} {channels : List Channel}
    (hcall : f.calls.get id = some (.listed x channels)) : Accounted (f.route id x channels) := by
  have hdel : Accounted { f with calls := f.calls.del id } := accounted_del h id rfl rfl rfl rfl
  have hthrough : (id, x, true) ∈ f.gated := h.through id _ x hcall rfl
  refine ⟨hdel.known, hdel.gatedKnown, hdel.gatedOnce, hdel.ahead, hdel.through, ?_, ?_, ?_⟩
  · intro r hr
    rcases List.mem_append.mp hr with hr | hr
    · exact h.routed r hr
    · rw [List.mem_singleton.mp hr]
      exact hthrough
  · show ((f.routings ++ [_]).map Routing.call).Nodup
    rw [List.map_append, List.nodup_append]
    refine ⟨h.routedOnce, by simp, fun a ha b hb => ?_⟩
    rw [List.map_singleton, List.mem_singleton] at hb
    intro heq
    obtain ⟨r, hr, hrcall⟩ := List.mem_map.mp ha
    have hdone := h.routedDone r hr
    rw [hrcall, heq, hb, hcall] at hdone
    cases hdone
  · intro r hr
    rcases List.mem_append.mp hr with hr | hr
    · exact hdel.routedDone r hr
    · rw [List.mem_singleton.mp hr]
      exact Table.get_del_self _ _

theorem accounted_step {f g : Dispatching} {a : DispatchAct} (h : Accounted f) (hstep : f.step openBox a = some g) :
    Accounted g := by
  cases steps_of_step hstep with
  | emit e => exact accounted_emit h e
  | screen hcall =>
    unfold screen
    split
    · exact accounted_del h _ rfl rfl rfl rfl
    · exact accounted_set h hcall rfl rfl rfl rfl rfl
  | ask now hcall => exact accounted_set h hcall rfl rfl rfl rfl rfl
  | lock hcall => exact accounted_lock h hcall
  | list hcall => exact accounted_set h hcall rfl rfl rfl rfl rfl
  | route hcall => exact accounted_route h hcall
  | change | fetch | send => exact ⟨h.known, h.gatedKnown, h.gatedOnce, h.ahead, h.through, h.routed, h.routedOnce, h.routedDone⟩

/-! ### Deliveries -/

def target (d : Delivery) : Nat × Channel × Message := (d.call, d.channel, d.message)

def targets (r : Routing) : List (Nat × Channel × Message) :=
  (matchChannels r.channels r.rules r.emission.event).map fun c => (r.call, c, render r.emission.event)

/-- The deliveries are those the calls chose, in the order of the calls. -/
def Started (f : Dispatching) : Prop := f.deliveries.map target = f.routings.flatMap targets

theorem targets_advance {f : Dispatching} {i : Nat} {d : Delivery} (hget : f.deliveries[i]? = some d) (p : Progress) :
    (f.advance i d p).deliveries.map target = f.deliveries.map target := by
  rw [advance, List.map_set]
  refine List.ext_getElem? fun j => ?_
  rw [List.getElem?_set]
  split
  · rename_i hj
    have hlt : j < (f.deliveries.map target).length := by
      rw [List.length_map, ← hj]
      exact (List.getElem?_eq_some_iff.mp hget).1
    rw [if_pos (hj ▸ hlt), ← hj, List.getElem?_map, hget]
    rfl
  · rfl

theorem started_step {f g : Dispatching} {a : DispatchAct} (h : Started f) (hstep : f.step openBox a = some g) :
    Started g := by
  cases steps_of_step hstep with
  | screen hcall =>
    unfold screen
    split
    · exact h
    · exact h
  | @route id x channels hcall =>
    show (f.deliveries ++ _).map target = (f.routings ++ [_]).flatMap targets
    rw [List.map_append, List.flatMap_append, ← h, List.flatMap_singleton, List.map_map]
    rfl
  | fetch hget hwaits => exact (targets_advance hget _).trans h
  | send ok hget hsending => exact (targets_advance hget _).trans h
  | change | emit | ask | lock | list => exact h

/-! ### Attempts -/

/-- What was tried of a delivery, in turn. -/
def attemptsOf (log : List (Nat × Bool)) (i : Nat) : List Bool := (log.filter fun y => y.1 = i).map Prod.snd

/-- What a delivery's attempts are to be, by where it stands. -/
def outcomes : Progress → List Bool
  | .waiting => []
  | .sending _ failures => List.replicate failures false
  | .sent _ failures => List.replicate failures false ++ [true]
  | .gaveUp _ => List.replicate attempts false
  | .dropped => []

/-- Fewer than three attempts failed, where another one may follow or went through. -/
def Within : Progress → Prop
  | .sending _ failures => failures < attempts
  | .sent _ failures => failures < attempts
  | _ => True

theorem outcomes_tried {s : Sender} {failures : Nat} (h : failures < attempts) (ok : Bool) :
    outcomes (tried s failures ok) = outcomes (.sending s failures) ++ [ok] := by
  cases ok with
  | true => rfl
  | false =>
    unfold tried
    rw [if_neg (by decide)]
    split
    · exact List.replicate_succ'
    · have hlast : attempts = failures + 1 := by omega
      show List.replicate attempts false = _
      rw [hlast]
      exact List.replicate_succ'

theorem within_tried {s : Sender} {failures : Nat} (h : failures < attempts) (ok : Bool) :
    Within (tried s failures ok) := by
  unfold tried
  split
  · exact h
  · split
    · assumption
    · trivial

structure Attempted (f : Dispatching) : Prop where
  attempted : ∀ i d, f.deliveries[i]? = some d → attemptsOf f.log i = outcomes d.progress ∧ Within d.progress
  known : ∀ y ∈ f.log, y.1 < f.deliveries.length

theorem attempted_advance {f g : Dispatching} (h : Attempted f) {i : Nat} {d : Delivery} {p : Progress} (more : List Bool)
    (hget : f.deliveries[i]? = some d) (hdeliveries : g.deliveries = (f.advance i d p).deliveries)
    (hlog : g.log = f.log ++ more.map fun ok => (i, ok)) (hout : outcomes p = outcomes d.progress ++ more)
    (hwithin : Within p) : Attempted g := by
  have hlength : g.deliveries.length = f.deliveries.length := by
    rw [hdeliveries, advance, List.length_set]
  have hlt := (List.getElem?_eq_some_iff.mp hget).1
  have hof : ∀ j, attemptsOf g.log j = attemptsOf f.log j ++ if j = i then more else [] := by
    intro j
    rw [attemptsOf, hlog, List.filter_append, List.map_append]
    congr 1
    split
    · rename_i hj
      simp [List.filter_map, hj, Function.comp_def]
    · rename_i hj
      simp [List.filter_map, Ne.symm hj, Function.comp_def]
  refine ⟨fun j e hj => ?_, fun y hy => ?_⟩
  · rw [hdeliveries, advance, List.getElem?_set] at hj
    rw [hof]
    split at hj
    · rename_i hij
      rw [Option.some.injEq] at hj
      rw [← hj, ← hij, if_pos rfl, (h.attempted i d hget).1]
      exact ⟨hout.symm, hwithin⟩
    · rename_i hij
      rw [if_neg (Ne.symm hij), List.append_nil]
      exact h.attempted j e hj
  · rw [hlength]
    rw [hlog, List.mem_append] at hy
    rcases hy with hy | hy
    · exact h.known y hy
    · obtain ⟨ok, -, rfl⟩ := List.mem_map.mp hy
      exact hlt

theorem attempted_fetch {f : Dispatching} (h : Attempted f) {i : Nat} {d : Delivery}
    (hget : f.deliveries[i]? = some d) (hwaits : d.progress = .waiting) (m : FileModel) :
    Attempted (f.advance i d (fetched openBox m d.channel)) := by
  have hout : outcomes (fetched openBox m d.channel) = [] ∧ Within (fetched openBox m d.channel) := by
    unfold fetched
    split
    · exact ⟨rfl, trivial⟩
    · split
      · exact ⟨rfl, trivial⟩
      · exact ⟨rfl, show 0 < attempts by decide⟩
  refine attempted_advance h [] hget rfl (by simp [advance]) ?_ hout.2
  rw [hout.1, hwaits]
  rfl

theorem attempted_route {f : Dispatching} (h : Attempted f) (id : Nat) (x : Emission) (channels : List Channel) :
    Attempted (f.route id x channels) := by
  refine ⟨fun i d hget => ?_, fun y hy => ?_⟩
  · by_cases hi : i < f.deliveries.length
    · rw [route, List.getElem?_append_left hi] at hget
      exact h.attempted i d hget
    · rw [route, List.getElem?_append_right (Nat.le_of_not_lt hi), List.getElem?_map, Option.map_eq_some_iff] at hget
      obtain ⟨c, -, rfl⟩ := hget
      have hnone : attemptsOf f.log i = [] := by
        rw [attemptsOf, List.map_eq_nil_iff, List.filter_eq_nil_iff]
        intro y hy heq
        exact hi (of_decide_eq_true heq ▸ h.known y hy)
      exact ⟨hnone, trivial⟩
  · have hlt := h.known y hy
    rw [route, List.length_append]
    omega

theorem attempted_step {f g : Dispatching} {a : DispatchAct} (h : Attempted f) (hstep : f.step openBox a = some g) :
    Attempted g := by
  cases steps_of_step hstep with
  | screen hcall =>
    unfold screen
    split
    · exact ⟨h.attempted, h.known⟩
    · exact ⟨h.attempted, h.known⟩
  | route hcall => exact attempted_route h _ _ _
  | fetch hget hwaits => exact attempted_fetch h hget hwaits _
  | @send i d s failures ok hget hsending =>
    have hwithin : failures < attempts := by
      have := (h.attempted i d hget).2
      rwa [hsending] at this
    refine attempted_advance h [ok] hget rfl rfl ?_ (within_tried hwithin ok)
    rw [hsending]
    exact outcomes_tried hwithin ok
  | change | emit | ask | lock | list => exact ⟨h.attempted, h.known⟩

end Dispatching
end Marshal.Notify
