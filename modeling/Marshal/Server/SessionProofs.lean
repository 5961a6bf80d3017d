import Marshal.Server.SessionInvariant

/-! What every run of a control session keeps: replies reach the dispatch that asked,
once, and no reply channel is misused. -/
namespace Marshal.Server
open Proto

variable {Op Res : Type}

/-! ### The table, from the steps taken -/

def SessionAct.isDispatch : SessionAct Op Res → Bool
  | .dispatch _ => true
  | _ => false

/-- The step takes the request id out of the table: its result is delivered, the
session fails, or its dispatch gives up on it. -/
def SessionAct.settles (id : Nat) : SessionAct Op Res → Prop
  | .deliver r => r.requestId = id
  | .failAll => True
  | .remove d => d + 1 = id
  | _ => False

/-- A dispatch registered the id and no step since has settled it. -/
def Outstanding (as : List (SessionAct Op Res)) (id : Nat) : Prop :=
  ∃ before op since, as = before ++ .dispatch op :: since ∧
    id = before.countP SessionAct.isDispatch + 1 ∧ ∀ a ∈ since, ¬ a.settles id

theorem outstanding_nil (id : Nat) : ¬ Outstanding ([] : List (SessionAct Op Res)) id := by
  rintro ⟨before, op, since, h, -⟩
  simp at h

theorem outstanding_concat (as : List (SessionAct Op Res)) (a : SessionAct Op Res) (id : Nat) :
    Outstanding (as ++ [a]) id ↔
      a.isDispatch = true ∧ id = as.countP SessionAct.isDispatch + 1 ∨
        Outstanding as id ∧ ¬ a.settles id := by
  constructor
  · rintro ⟨before, op, since, has, hid, hsince⟩
    rcases List.eq_nil_or_concat since with rfl | ⟨since, b, rfl⟩
    · obtain ⟨rfl, hb⟩ := List.append_inj' has rfl
      obtain rfl : a = .dispatch op := by simpa using hb
      exact .inl ⟨rfl, hid⟩
    · rw [List.concat_eq_append, ← List.cons_append, ← List.append_assoc] at has
      obtain ⟨rfl, hb⟩ := List.append_inj' has rfl
      obtain rfl : a = b := by simpa using hb
      refine .inr ⟨⟨before, op, since, rfl, hid, fun c hc => hsince c (by simp [hc])⟩, hsince a (by simp)⟩
  · rintro (⟨ha, hid⟩ | ⟨⟨before, op, since, rfl, hid, hsince⟩, ha⟩)
    · cases a with
      | dispatch op => exact ⟨as, op, [], rfl, hid, by simp⟩
      | _ => simp [SessionAct.isDispatch] at ha
    · refine ⟨before, op, since ++ [a], by simp, hid, ?_⟩
      intro b hb
      rcases List.mem_append.mp hb with hb | hb
      · exact hsince b hb
      · obtain rfl : b = a := by simpa using hb
        exact ha

namespace Session
variable {s t : Session Op Res} {d : Nat}

theorem nextID_step (h : Inv s) {a : SessionAct Op Res} (hs : s.step a = some t) :
    t.nextID = s.nextID + if a.isDispatch then 1 else 0 := by
  cases a with
  | dispatch op => exact Option.some.inj hs ▸ rfl
  | send d ok =>
    obtain ⟨x, -, -, rfl⟩ := step_send hs
    rfl
  | take d => obtain ⟨x, -, -, ⟨v, -, rfl⟩ | ⟨-, -, rfl⟩⟩ := step_take hs <;> rfl
  | expire d =>
    obtain ⟨x, -, -, rfl⟩ := step_expire hs
    rfl
  | remove d =>
    obtain ⟨x, e, -, -, rfl⟩ := step_remove hs
    rfl
  | deliver r =>
    obtain rfl := Option.some.inj hs
    simp only [deliver]
    split <;> rfl
  | put i =>
    obtain ⟨d, v, x, -, -, -, rfl, -⟩ := put_spec h hs
    rfl
  | failAll =>
    obtain rfl := Option.some.inj hs
    obtain ⟨xs, hfail, -⟩ := failAll_spec h
    rw [hfail]
    rfl

theorem failed_step (h : Inv s) {a : SessionAct Op Res} (hs : s.step a = some t) (hf : s.failed = true) :
    t.failed = true := by
  cases a with
  | dispatch op => exact Option.some.inj hs ▸ hf
  | send d ok =>
    obtain ⟨x, -, -, rfl⟩ := step_send hs
    exact hf
  | take d => obtain ⟨x, -, -, ⟨v, -, rfl⟩ | ⟨-, -, rfl⟩⟩ := step_take hs <;> exact hf
  | expire d =>
    obtain ⟨x, -, -, rfl⟩ := step_expire hs
    exact hf
  | remove d =>
    obtain ⟨x, e, -, -, rfl⟩ := step_remove hs
    exact hf
  | deliver r =>
    obtain rfl := Option.some.inj hs
    simp only [deliver]
    split <;> exact hf
  | put i =>
    obtain ⟨d, v, x, -, -, -, rfl, -⟩ := put_spec h hs
    exact hf
  | failAll => exact Option.some.inj hs ▸ rfl

/-- What one step does to the table. -/
theorem pending_step (h : Inv s) {a : SessionAct Op Res} (hs : s.step a = some t) (id : Nat) :
    (t.pending.get id).isSome ↔
      a.isDispatch = true ∧ id = s.nextID + 1 ∨ (s.pending.get id).isSome ∧ ¬ a.settles id := by
  cases a with
  | dispatch op =>
    obtain rfl := Option.some.inj hs
    simp only [dispatch, Table.get_set, SessionAct.isDispatch, SessionAct.settles]
    split <;> simp_all
  | send d ok =>
    obtain ⟨x, -, -, rfl⟩ := step_send hs
    simp [setDispatch, SessionAct.isDispatch, SessionAct.settles]
  | take d =>
    obtain ⟨x, -, -, ⟨v, -, rfl⟩ | ⟨-, -, rfl⟩⟩ := step_take hs <;>
      simp [setDispatch, SessionAct.isDispatch, SessionAct.settles]
  | expire d =>
    obtain ⟨x, -, -, rfl⟩ := step_expire hs
    simp [setDispatch, SessionAct.isDispatch, SessionAct.settles]
  | remove d =>
    obtain ⟨x, e, hx, -, rfl⟩ := step_remove hs
    simp only [remove, setDispatch, Table.get_del, h.id d x hx, SessionAct.isDispatch,
      SessionAct.settles, @eq_comm _ (d + 1)]
    split <;> simp_all
  | deliver r =>
    obtain rfl := Option.some.inj hs
    simp only [SessionAct.isDispatch, SessionAct.settles, @eq_comm _ r.requestId]
    cases hp : s.pending.get r.requestId with
    | none =>
      have hne : (s.pending.get id).isSome → id ≠ r.requestId := by
        rintro hid rfl
        simp [hp] at hid
      simpa [deliver, hp] using hne
    | some e =>
      simp only [deliver, hp, Table.get_del]
      split <;> simp_all
  | put i =>
    obtain ⟨d, v, x, -, -, -, rfl, -⟩ := put_spec h hs
    simp [SessionAct.isDispatch, SessionAct.settles]
  | failAll =>
    obtain rfl := Option.some.inj hs
    simp [failAll, SessionAct.isDispatch, SessionAct.settles]

/-- The table holds the outstanding request ids and no others. -/
theorem pending_run {as : List (SessionAct Op Res)}
    (hrun : (sessionSystem Op Res).run {} as = some s) (id : Nat) :
    (s.pending.get id).isSome ↔ Outstanding as id := by
  have hall : s.nextID = as.countP SessionAct.isDispatch ∧
      ∀ id, (s.pending.get id).isSome ↔ Outstanding as id := by
    refine (sessionSystem Op Res).run_history
      (I := fun as s => s.nextID = as.countP SessionAct.isDispatch ∧
        ∀ id, (s.pending.get id).isSome ↔ Outstanding as id)
      ⟨rfl, fun id => by simp [outstanding_nil]⟩ ?_ hrun
    intro as u a t hu hI ha
    obtain ⟨hnext, hout⟩ := hI
    have hinv := inv_run hu
    refine ⟨?_, fun id => ?_⟩
    · rw [nextID_step hinv ha, List.countP_append, hnext, List.countP_singleton]
    · rw [pending_step hinv ha, outstanding_concat, hnext, hout]
  exact hall.2 id

/-! ### Returning -/

end Session

/-- The step by which dispatch `d` returns. -/
def SessionAct.returns (d : Nat) : SessionAct Op Res → Bool
  | .take e => e == d
  | .remove e => e == d
  | _ => false

namespace Session
variable {s t : Session Op Res} {d : Nat}

theorem outcome_setDispatch {x : Dispatch Op Res} (hx : s.dispatches[d]? = some x)
    (y : Dispatch Op Res) (e : Nat) :
    (s.setDispatch d y).outcome e = if e = d then y.outcome else s.outcome e := by
  rw [outcome, getElem?_setDispatch hx]
  split <;> rfl

theorem outcome_of_pc {x : Dispatch Op Res} (hx : s.dispatches[d]? = some x)
    (hpc : ∀ out, x.pc ≠ .returned out) : s.outcome d = none := by
  rw [outcome, hx, Option.bind_some, Dispatch.outcome]
  split
  · next out hout => exact absurd hout (hpc out)
  · rfl

/-- A dispatch returns by a step of its own, and what it returned stays. -/
theorem outcome_step (h : Inv s) {a : SessionAct Op Res} (hs : s.step a = some t) (e : Nat) :
    if a.returns e then s.outcome e = none ∧ (t.outcome e).isSome else t.outcome e = s.outcome e := by
  cases a with
  | dispatch op =>
    obtain rfl := Option.some.inj hs
    show (s.dispatch op).outcome e = s.outcome e
    rw [outcome, getElem?_dispatch]
    split
    · next he => simp [outcome, he, Dispatch.outcome]
    · rfl
  | send d ok =>
    obtain ⟨x, hx, hpc, rfl⟩ := step_send hs
    show (s.setDispatch d _).outcome e = s.outcome e
    rw [outcome_setDispatch hx]
    split
    · next he =>
      rw [he, outcome_of_pc hx (by simp [hpc])]
      cases ok <;> rfl
    · rfl
  | take d =>
    obtain ⟨x, hx, hpc, htake⟩ := step_take hs
    have hnone : s.outcome d = none := outcome_of_pc hx (by simp [hpc])
    by_cases he : e = d
    · subst he
      simp only [SessionAct.returns, beq_self_eq_true, if_true, hnone, true_and]
      obtain ⟨v, -, rfl⟩ | ⟨-, -, rfl⟩ := htake <;>
        simp [outcome_setDispatch hx, Dispatch.outcome]
    · have hed : (d == e) = false := by simpa using fun hde => he hde.symm
      simp only [SessionAct.returns, hed]
      obtain ⟨v, -, rfl⟩ | ⟨-, -, rfl⟩ := htake <;> simp [outcome_setDispatch hx, he]
  | expire d =>
    obtain ⟨x, hx, hpc, rfl⟩ := step_expire hs
    show (s.setDispatch d _).outcome e = s.outcome e
    rw [outcome_setDispatch hx]
    split
    · next he =>
      rw [he, outcome_of_pc hx (by simp [hpc])]
      rfl
    · rfl
  | remove d =>
    obtain ⟨x, err, hx, hpc, rfl⟩ := step_remove hs
    have hnone : s.outcome d = none := outcome_of_pc hx (by simp [hpc])
    have hx' : (s.remove x.id).dispatches[d]? = some x := hx
    by_cases he : e = d
    · subst he
      simp [SessionAct.returns, hnone, outcome_setDispatch hx', Dispatch.outcome]
    · have hed : (d == e) = false := by simpa using fun hde => he hde.symm
      simp only [SessionAct.returns, hed]
      rw [outcome_setDispatch hx', if_neg he]
      rfl
  | deliver r =>
    obtain rfl := Option.some.inj hs
    show (s.deliver r).outcome e = s.outcome e
    simp only [deliver]
    split <;> rfl
  | put i =>
    obtain ⟨d, v, x, -, hx, -, -, hget⟩ := put_spec h hs
    show t.outcome e = s.outcome e
    rw [outcome, hget, outcome]
    split
    · next he =>
      rw [he, hx]
      rfl
    · rfl
  | failAll =>
    obtain rfl := Option.some.inj hs
    obtain ⟨xs, hfail, hxs⟩ := failAll_spec h
    show s.failAll.outcome e = s.outcome e
    rw [hfail, outcome, hxs e, outcome]
    cases s.dispatches[e]? with
    | none => rfl
    | some x =>
      simp only [Option.map_some, Option.bind_some]
      split <;> rfl

/-- Returning is final. -/
theorem outcome_stable (h : Inv s) {as : List (SessionAct Op Res)}
    (hrun : (sessionSystem Op Res).run s as = some t) {out : Except DispatchError (Delivery Res)}
    (hout : s.outcome d = some out) : t.outcome d = some out := by
  have hboth : Inv t ∧ t.outcome d = some out := by
    refine (sessionSystem Op Res).run_invariant (I := fun u => Inv u ∧ u.outcome d = some out)
      ?_ ⟨h, hout⟩ hrun
    intro u a v hI ha
    obtain ⟨hu, houtu⟩ := hI
    refine ⟨inv_step hu a ha, ?_⟩
    have hstep := outcome_step hu ha d
    split at hstep
    · rw [hstep.1] at houtu
      cases houtu
    · rw [hstep, houtu]
  exact hboth.2

/-- A dispatch returns at most once, and exactly when it has an outcome. -/
theorem returns_run {as : List (SessionAct Op Res)}
    (hrun : (sessionSystem Op Res).run {} as = some s) (d : Nat) :
    as.countP (SessionAct.returns d) = if (s.outcome d).isSome then 1 else 0 := by
  refine (sessionSystem Op Res).run_history
    (I := fun as s => as.countP (SessionAct.returns d) = if (s.outcome d).isSome then 1 else 0)
    rfl ?_ hrun
  intro as u a t hu hcount ha
  rw [List.countP_append, List.countP_singleton, hcount]
  have hstep := outcome_step (inv_run hu) ha d
  split at hstep
  · next hret => simp [hret, hstep.1, hstep.2]
  · next hret => simp [hret, hstep]

/-! ### After `failAll` -/

end Session

/-- No send succeeds once `failAll` has run: the stream is gone by then. -/
def SessionAct.NotLate (s : Session Op Res) : SessionAct Op Res → Prop
  | .send _ true => s.failed = false
  | _ => True

instance (s : Session Op Res) : (a : SessionAct Op Res) → Decidable (a.NotLate s)
  | .send _ true => inferInstanceAs (Decidable (s.failed = false))
  | .dispatch _ | .send _ false | .take _ | .expire _ | .remove _ | .deliver _ | .put _ | .failAll => isTrue trivial

namespace Session
variable {s t : Session Op Res} {d : Nat}

/-- Waiting with nothing received, nothing on the way and the channel open. -/
def Blocked (s : Session Op Res) (d : Nat) : Prop :=
  ∃ x, s.dispatches[d]? = some x ∧ x.pc = .waiting ∧ x.ch = {} ∧ ∀ v, (d, v) ∉ s.puts

/-- Whoever waits after `failAll` has left the table. -/
def Drained (s : Session Op Res) : Prop :=
  s.failed = true → ∀ d x, s.dispatches[d]? = some x → x.pc = .waiting → s.pending.get (d + 1) = none

theorem drained_setDispatch (h : Drained s) {x y : Dispatch Op Res} (hx : s.dispatches[d]? = some x)
    (hy : s.failed = true → y.pc ≠ .waiting) : Drained (s.setDispatch d y) := by
  intro hf e z hz hpc
  rw [getElem?_setDispatch hx] at hz
  split at hz
  · obtain rfl := Option.some.inj hz
    exact absurd hpc (hy hf)
  · exact h hf e z hz hpc

theorem drained_step (h : Inv s) (hd : Drained s) {a : SessionAct Op Res} (hlate : a.NotLate s)
    (hs : s.step a = some t) : Drained t := by
  cases a with
  | dispatch op =>
    obtain rfl := Option.some.inj hs
    intro hf e x hx hpc
    rw [getElem?_dispatch] at hx
    split at hx
    · obtain rfl := Option.some.inj hx
      cases hpc
    · next he =>
      have hne : e + 1 ≠ s.nextID + 1 := by have := h.next; omega
      simp only [dispatch, Table.get_set, if_neg hne]
      exact hd hf e x hx hpc
  | send d ok =>
    obtain ⟨x, hx, hpc, rfl⟩ := step_send hs
    refine drained_setDispatch hd hx fun hf => ?_
    cases ok with
    | true => exact absurd hf (by simpa [SessionAct.NotLate] using hlate)
    | false => simp
  | take d =>
    obtain ⟨x, hx, -, ⟨v, -, rfl⟩ | ⟨-, -, rfl⟩⟩ := step_take hs
    · exact drained_setDispatch hd hx (by simp)
    · exact drained_setDispatch hd hx (by simp)
  | expire d =>
    obtain ⟨x, hx, -, rfl⟩ := step_expire hs
    exact drained_setDispatch hd hx (by simp)
  | remove d =>
    obtain ⟨x, e, hx, -, rfl⟩ := step_remove hs
    have hremoved : Drained (s.remove x.id) := by
      intro hf e y hy hpc
      simp only [remove, Table.get_del]
      split
      · rfl
      · exact hd hf e y hy hpc
    exact drained_setDispatch hremoved hx (by simp)
  | deliver r =>
    obtain rfl := Option.some.inj hs
    intro hf e x hx hpc
    cases hp : s.pending.get r.requestId with
    | none =>
      simp only [deliver, hp] at hf hx ⊢
      exact hd hf e x hx hpc
    | some f =>
      simp only [deliver, hp, Table.get_del] at hf hx ⊢
      split
      · rfl
      · exact hd hf e x hx hpc
  | put i =>
    obtain ⟨d, v, x, hi, hx, -, rfl, hget⟩ := put_spec h hs
    intro hf e y hy hpc
    rw [hget] at hy
    split at hy
    · next he => exact he ▸ (h.puts d v (List.mem_of_getElem? hi)).1
    · exact hd hf e y hy hpc
  | failAll =>
    obtain rfl := Option.some.inj hs
    intro _ e x _ _
    rfl

theorem drained_run {as : List (SessionAct Op Res)}
    (hrun : (sessionSystem Op Res).run {} as = some s)
    (hlate : (sessionSystem Op Res).Along (fun s a => a.NotLate s) {} as) : Drained s := by
  have hboth : Inv s ∧ Drained s := by
    refine (sessionSystem Op Res).along_invariant (I := fun s => Inv s ∧ Drained s)
      ?_ ⟨inv_init, fun hf => by cases hf⟩ hrun hlate
    intro s a t ha hI hs
    obtain ⟨h, hd⟩ := hI
    exact ⟨inv_step h a hs, drained_step h hd ha hs⟩
  exact hboth.2

/-- Only a dispatch still in the table can be blocked. -/
theorem not_blocked_of_pending (h : Inv s) (hp : s.pending.get (d + 1) = none) : ¬ s.Blocked d := by
  rintro ⟨x, hx, hpc, hch, hputs⟩
  rcases h.covered d x hx (.inr hpc) with hd | ⟨v, hv⟩ | hused
  · rw [hp] at hd
    cases hd
  · exact hputs v hv
  · exact hused hch

theorem not_blocked (h : Inv s) (hd : Drained s) (hf : s.failed = true) (d : Nat) : ¬ s.Blocked d := by
  intro hblocked
  obtain ⟨x, hx, hpc, -⟩ := id hblocked
  exact not_blocked_of_pending h (hd hf d x hx hpc) hblocked

/-- The steps a dispatch needs from no one else: its own, with a send that fails,
and the channel send of a delivery in flight. -/
def Unaided (d : Nat) : SessionAct Op Res → Prop
  | .send e ok => e = d ∧ ok = false
  | .take e | .remove e => e = d
  | .put _ => True
  | _ => False

theorem can_take {x : Dispatch Op Res} (hx : s.dispatches[d]? = some x) (hpc : x.pc = .waiting)
    (hused : x.ch ≠ {}) : ∃ t, s.step (.take d) = some t := by
  obtain ⟨id, op, ⟨buf, closed⟩, pc⟩ := x
  subst hpc
  cases buf with
  | some v => simp [step, hx]
  | none =>
    cases closed with
    | true => simp [step, hx]
    | false => exact absurd rfl hused

theorem can_remove {x : Dispatch Op Res} (hx : s.dispatches[d]? = some x) {e : DispatchError}
    (hpc : x.pc = .removing e) : ∃ t, s.step (.remove d) = some t := by
  simp [step, hx, hpc]

theorem returned_step (h : Inv s) {a : SessionAct Op Res} (ha : a.returns d = true)
    (hs : s.step a = some t) : (t.outcome d).isSome := by
  have hstep := outcome_step h hs d
  rw [if_pos ha] at hstep
  exact hstep.2

/-- After `failAll` a dispatch returns within two steps that wait for nobody. -/
theorem finishes (h : Inv s) (hd : Drained s) (hf : s.failed = true) {x : Dispatch Op Res}
    (hx : s.dispatches[d]? = some x) (hnone : s.outcome d = none) :
    ∃ as t, as.length ≤ 2 ∧ (∀ a ∈ as, Unaided d a) ∧
      (sessionSystem Op Res).run s as = some t ∧ (t.outcome d).isSome := by
  have hone : ∀ a t, Unaided d a → a.returns d = true → s.step a = some t →
      ∃ as t, as.length ≤ 2 ∧ (∀ a ∈ as, Unaided d a) ∧
        (sessionSystem Op Res).run s as = some t ∧ (t.outcome d).isSome := by
    intro a t hown hret hs
    exact ⟨[a], t, by simp, by simpa using hown,
      (sessionSystem Op Res).run_cons.mpr ⟨t, hs, rfl⟩, returned_step h hret hs⟩
  have htwo : ∀ a b u t, Unaided d a → Unaided d b → b.returns d = true → s.step a = some u →
      u.step b = some t → ∃ as t, as.length ≤ 2 ∧ (∀ a ∈ as, Unaided d a) ∧
        (sessionSystem Op Res).run s as = some t ∧ (t.outcome d).isSome := by
    intro a b u t hown hown' hret hs hs'
    exact ⟨[a, b], t, by simp, by simpa using ⟨hown, hown'⟩,
      (sessionSystem Op Res).run_cons.mpr ⟨u, hs, (sessionSystem Op Res).run_cons.mpr ⟨t, hs', rfl⟩⟩,
      returned_step (inv_step h a hs) hret hs'⟩
  have hself : ∀ e, (e == e) = true := fun e : Nat => beq_self_eq_true e
  cases hpc : x.pc with
  | sending =>
    have hsend : s.step (.send d false) = some (s.setDispatch d { x with pc := .removing .send }) := by
      simp [step, hx, hpc]
    obtain ⟨t, ht⟩ := can_remove (x := { x with pc := .removing .send })
      (by rw [getElem?_setDispatch hx, if_pos rfl]) rfl
    exact htwo (.send d false) (.remove d) _ t ⟨rfl, rfl⟩ rfl (hself d) hsend ht
  | waiting =>
    rcases h.covered d x hx (.inr hpc) with hp | ⟨v, hv⟩ | hused
    · rw [hd hf d x hx hpc] at hp
      cases hp
    · obtain ⟨i, hi⟩ := List.getElem?_of_mem hv
      obtain ⟨u, hu⟩ : ∃ u, s.step (.put i) = some u := by simp [step, hi]
      obtain ⟨d', v', y, hi', hy, -, -, hget⟩ := put_spec h hu
      obtain ⟨rfl, rfl⟩ := Prod.mk.inj (Option.some.inj (hi.symm.trans hi'))
      obtain rfl : x = y := Option.some.inj (hx.symm.trans hy)
      obtain ⟨t, ht⟩ := can_take (x := { x with ch := ⟨some v, false⟩ })
        (by rw [hget, if_pos rfl]) hpc (by simp)
      exact htwo (.put i) (.take d) u t trivial rfl (hself d) hu ht
    · obtain ⟨t, ht⟩ := can_take hx hpc hused
      exact hone (.take d) t rfl (hself d) ht
  | removing e =>
    obtain ⟨t, ht⟩ := can_remove hx hpc
    exact hone (.remove d) t rfl (hself d) ht
  | returned out => simp [outcome, hx, Dispatch.outcome, hpc] at hnone

/-! ### What a run of a session keeps -/

/-- A session `s` after the steps `as`: replies are correlated with the dispatches
that asked for them. -/
structure Correlated (as : List (SessionAct Op Res)) (s : Session Op Res) : Prop where
  returnsOnce : ∀ d, as.countP (SessionAct.returns d) ≤ 1
  returnsFinal : ∀ d out bs t, s.outcome d = some out →
    (sessionSystem Op Res).run s bs = some t → t.outcome d = some out
  /-- No two dispatches send the same request id. -/
  idsDistinct : ∀ (d e : Nat) (x y : Dispatch Op Res), s.dispatches[d]? = some x → s.dispatches[e]? = some y → x.id = y.id → d = e
  ownReply : ∀ (d : Nat) (x : Dispatch Op Res) (v : Delivery Res), s.dispatches[d]? = some x → s.outcome d = some (.ok v) →
    s.arrived[v.arrival]? = some ⟨x.id, v.result⟩
  noSharedReply : ∀ (d e : Nat) (v w : Delivery Res), s.outcome d = some (.ok v) → s.outcome e = some (.ok w) →
    v.arrival = w.arrival → d = e
  notBlocked : s.failed = true → ∀ d, ¬ s.Blocked d
  finishes : s.failed = true → ∀ (d : Nat) (x : Dispatch Op Res), s.dispatches[d]? = some x → s.outcome d = none →
    ∃ bs t, bs.length ≤ 2 ∧ (∀ a ∈ bs, Unaided d a) ∧
      (sessionSystem Op Res).run s bs = some t ∧ (t.outcome d).isSome
  noFault : s.fault = false
  pendingExact : ∀ id, (s.pending.get id).isSome ↔ Outstanding as id

theorem held_of_outcome (h : Inv s) {v : Delivery Res} (hout : s.outcome d = some (.ok v)) :
    ∃ x, s.dispatches[d]? = some x ∧ s.arrived[v.arrival]? = some ⟨d + 1, v.result⟩ := by
  obtain ⟨x, hx, hxout⟩ := Option.bind_eq_some_iff.mp hout
  have hpc : x.pc = .returned (.ok v) := by
    unfold Dispatch.outcome at hxout
    split at hxout
    · next out hpc => rw [hpc, Option.some.inj hxout]
    · cases hxout
  exact ⟨x, hx, h.held d x v hx (.inr hpc)⟩

theorem correlated_run {as : List (SessionAct Op Res)}
    (hrun : (sessionSystem Op Res).run {} as = some s)
    (hlate : (sessionSystem Op Res).Along (fun s a => a.NotLate s) {} as) : Correlated as s := by
  have h := inv_run hrun
  have hd := drained_run hrun hlate
  constructor
  case returnsOnce =>
    intro d
    rw [returns_run hrun d]
    split <;> omega
  case returnsFinal => exact fun d out bs t hout hbs => outcome_stable h hbs hout
  case idsDistinct =>
    intro d e x y hx hy hid
    rw [h.id d x hx, h.id e y hy] at hid
    omega
  case ownReply =>
    intro d x v hx hout
    obtain ⟨-, -, harr⟩ := held_of_outcome h hout
    rw [harr, h.id d x hx]
  case noSharedReply =>
    intro d e v w hv hw heq
    obtain ⟨-, -, hd⟩ := held_of_outcome h hv
    obtain ⟨-, -, he⟩ := held_of_outcome h hw
    rw [heq, he] at hd
    have hid := congrArg CommandResult.requestId (Option.some.inj hd)
    simp only at hid
    omega
  case notBlocked => exact fun hf d => not_blocked h hd hf d
  case finishes => exact fun hf d x hx hnone => Session.finishes h hd hf hx hnone
  case noFault => exact h.fault
  case pendingExact => exact pending_run hrun

end Session

end Marshal.Server
