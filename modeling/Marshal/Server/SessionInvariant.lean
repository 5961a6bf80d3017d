import Marshal.Lib.Growing
import Marshal.Server.Session

/-! The invariant of a control session: a request id is in the table, its delivery is
in flight or its channel has been used, and no reply channel is misused. -/
namespace Marshal.Server
open Proto

variable {Op Res : Type}

namespace Session
variable {s t : Session Op Res} {d : Nat}

/-! ### Closing channels -/

def Dispatch.close (x : Dispatch Op Res) : Dispatch Op Res := { x with ch := { x.ch with closed := true } }

/-- Closing distinct open channels closes each of them once. -/
theorem closeAll (ds : List Nat) (hnodup : ds.Nodup) (s : Session Op Res)
    (hopen : ∀ d ∈ ds, ∃ x, s.dispatches[d]? = some x ∧ x.ch.closed = false) :
    ∃ xs, ds.foldl closeCh s = { s with dispatches := xs } ∧
      ∀ d, xs[d]? = (s.dispatches[d]?).map fun x => if d ∈ ds then Dispatch.close x else x := by
  induction ds generalizing s with
  | nil => exact ⟨s.dispatches, rfl, fun d => by simp⟩
  | cons d rest ih =>
    obtain ⟨hd, hrest⟩ := List.nodup_cons.mp hnodup
    obtain ⟨x, hx, hxopen⟩ := hopen d (by simp)
    have hclose : s.closeCh d = s.setDispatch d (Dispatch.close x) := by
      simp [closeCh, hx, hxopen, Dispatch.close]
    have hopen' : ∀ e ∈ rest, ∃ x, (s.closeCh d).dispatches[e]? = some x ∧ x.ch.closed = false := by
      intro e he
      obtain ⟨y, hy, hyopen⟩ := hopen e (by simp [he])
      have hne : e ≠ d := fun h => hd (h ▸ he)
      exact ⟨y, by rw [hclose, getElem?_setDispatch hx, if_neg hne, hy], hyopen⟩
    obtain ⟨xs, hfold, hxs⟩ := ih hrest (s.closeCh d) hopen'
    refine ⟨xs, ?_, ?_⟩
    · rw [List.foldl_cons, hfold, hclose]
      rfl
    · intro e
      rw [hxs e, hclose, getElem?_setDispatch hx]
      by_cases hde : e = d
      · subst hde
        simp [hd, hx]
      · simp [hde]

/-! ### The invariant

A request id is in the table, or its delivery is in flight, or its channel has been
used; each excludes the others, which is why no channel is ever misused. -/

structure Inv (s : Session Op Res) : Prop where
  next : s.nextID = s.dispatches.length
  id : ∀ (d : Nat) (x : Dispatch Op Res), s.dispatches[d]? = some x → x.id = d + 1
  pending : ∀ id d : Nat, s.pending.get id = some d →
    id = d + 1 ∧ ∃ x, s.dispatches[d]? = some x ∧ x.ch = {} ∧ x.outcome = none
  puts : ∀ (d : Nat) (v : Delivery Res), (d, v) ∈ s.puts → s.pending.get (d + 1) = none ∧
    s.arrived[v.arrival]? = some ⟨d + 1, v.result⟩ ∧ ∃ x, s.dispatches[d]? = some x ∧ x.ch = {}
  putsOnce : (s.puts.map Prod.fst).Nodup
  held : ∀ (d : Nat) (x : Dispatch Op Res) (v : Delivery Res), s.dispatches[d]? = some x →
    x.ch.buf = some v ∨ x.pc = .returned (.ok v) → s.arrived[v.arrival]? = some ⟨d + 1, v.result⟩
  /-- A dispatch that has yet to see its reply can still get one. -/
  covered : ∀ (d : Nat) (x : Dispatch Op Res), s.dispatches[d]? = some x →
    x.pc = .sending ∨ x.pc = .waiting →
      s.pending.get (d + 1) = some d ∨ (∃ v, (d, v) ∈ s.puts) ∨ x.ch ≠ {}
  fault : s.fault = false

theorem inv_init : Inv ({} : Session Op Res) := by
  constructor <;> simp

theorem getElem?_dispatch (op : Op) (d : Nat) :
    (s.dispatch op).dispatches[d]? =
      if d = s.dispatches.length then some { id := s.nextID + 1, op := op } else s.dispatches[d]? := by
  by_cases h : d = s.dispatches.length
  · subst h
    simp [dispatch]
  · rw [if_neg h]
    exact Growing.concat_other h

theorem inv_dispatch (h : Inv s) (op : Op) : Inv (s.dispatch op) := by
  have hget : ∀ id, (s.dispatch op).pending.get id =
      if id = s.nextID + 1 then some s.dispatches.length else s.pending.get id :=
    fun id => Table.get_set s.pending _ id _
  have hlt : ∀ d x, s.dispatches[d]? = some x → d ≠ s.dispatches.length := by
    intro d x hx
    exact Nat.ne_of_lt (List.getElem?_eq_some_iff.mp hx).1
  constructor
  case next => simp [dispatch, h.next]
  case id =>
    intro d x hx
    rw [getElem?_dispatch] at hx
    split at hx
    · next hd =>
      obtain rfl := Option.some.inj hx
      simp [hd, h.next]
    · exact h.id d x hx
  case pending =>
    intro id d hid
    rw [hget] at hid
    split at hid
    · next heq =>
      obtain rfl := Option.some.inj hid
      exact ⟨by rw [heq, h.next], _, by rw [getElem?_dispatch, if_pos rfl], rfl, rfl⟩
    · obtain ⟨heq, x, hx, hrest⟩ := h.pending id d hid
      exact ⟨heq, x, by rw [getElem?_dispatch, if_neg (hlt d x hx), hx], hrest⟩
  case puts =>
    intro d v hd
    obtain ⟨hnone, harr, x, hx, hch⟩ := h.puts d v hd
    refine ⟨?_, harr, x, by rw [getElem?_dispatch, if_neg (hlt d x hx), hx], hch⟩
    rw [hget, if_neg, hnone]
    have := hlt d x hx
    have := h.next
    omega
  case putsOnce => exact h.putsOnce
  case held =>
    intro d x v hx hv
    rw [getElem?_dispatch] at hx
    split at hx
    · obtain rfl := Option.some.inj hx
      simp at hv
    · exact h.held d x v hx hv
  case covered =>
    intro d x hx hpc
    rw [getElem?_dispatch] at hx
    split at hx
    · next hd => exact .inl (by rw [hget, if_pos (by rw [hd, h.next]), hd])
    · next hd =>
      refine (h.covered d x hx hpc).imp_left fun hp => ?_
      rw [hget, if_neg (by have := h.next; omega), hp]
  case fault => exact h.fault

theorem Inv.of_pending (h : Inv s) {x : Dispatch Op Res} (hx : s.dispatches[d]? = some x)
    (hp : s.pending.get (d + 1) = some d) : x.ch = {} ∧ x.outcome = none := by
  obtain ⟨-, y, hy, hrest⟩ := h.pending _ _ hp
  obtain rfl : x = y := Option.some.inj (hx.symm.trans hy)
  exact hrest

theorem Inv.of_put (h : Inv s) {x : Dispatch Op Res} (hx : s.dispatches[d]? = some x)
    (hv : ∃ v, (d, v) ∈ s.puts) : x.ch = {} := by
  obtain ⟨v, hv⟩ := hv
  obtain ⟨-, -, y, hy, hch⟩ := h.puts d v hv
  obtain rfl : x = y := Option.some.inj (hx.symm.trans hy)
  exact hch

/-- Dispatch `d` moves on; the table and the deliveries stay. -/
theorem inv_setDispatch (h : Inv s) {x y : Dispatch Op Res} (hx : s.dispatches[d]? = some x)
    (hid : y.id = x.id) (hpending : s.pending.get (d + 1) = some d → y.ch = {} ∧ y.outcome = none)
    (hputs : (∃ v, (d, v) ∈ s.puts) → y.ch = {})
    (hheld : ∀ v, y.ch.buf = some v ∨ y.pc = .returned (.ok v) →
      s.arrived[v.arrival]? = some ⟨d + 1, v.result⟩)
    (hcovered : y.pc = .sending ∨ y.pc = .waiting →
      s.pending.get (d + 1) = some d ∨ (∃ v, (d, v) ∈ s.puts) ∨ y.ch ≠ {}) :
    Inv (s.setDispatch d y) := by
  constructor
  case next => simpa [setDispatch] using h.next
  case id =>
    intro e z hz
    rw [getElem?_setDispatch hx] at hz
    split at hz
    · next he =>
      obtain rfl := Option.some.inj hz
      rw [hid, he, h.id d x hx]
    · exact h.id e z hz
  case pending =>
    intro id e hide
    obtain ⟨heq, z, hz, hrest⟩ := h.pending id e hide
    refine ⟨heq, ?_⟩
    rw [getElem?_setDispatch hx]
    by_cases he : e = d
    · subst he
      exact ⟨y, by simp, hpending (heq ▸ hide)⟩
    · exact ⟨z, by rw [if_neg he, hz], hrest⟩
  case puts =>
    intro e v he
    obtain ⟨hnone, harr, z, hz, hch⟩ := h.puts e v he
    refine ⟨hnone, harr, ?_⟩
    rw [getElem?_setDispatch hx]
    by_cases hed : e = d
    · subst hed
      exact ⟨y, by simp, hputs ⟨v, he⟩⟩
    · exact ⟨z, by rw [if_neg hed, hz], hch⟩
  case putsOnce => exact h.putsOnce
  case held =>
    intro e z v hz hv
    rw [getElem?_setDispatch hx] at hz
    split at hz
    · next he =>
      obtain rfl := Option.some.inj hz
      exact he ▸ hheld v hv
    · exact h.held e z v hz hv
  case covered =>
    intro e z hz hpc
    rw [getElem?_setDispatch hx] at hz
    split at hz
    · next he =>
      obtain rfl := Option.some.inj hz
      exact he ▸ hcovered hpc
    · exact h.covered e z hz hpc
  case fault => exact h.fault

theorem inv_send (h : Inv s) {ok : Bool} (hs : s.step (.send d ok) = some t) : Inv t := by
  obtain ⟨x, hx, hpc, rfl⟩ := step_send hs
  refine inv_setDispatch h hx rfl ?_ (h.of_put (x := x) hx) ?_ fun _ => h.covered d x hx (.inl hpc)
  · intro hp
    cases ok <;> exact ⟨(h.of_pending hx hp).1, rfl⟩
  · intro v hv
    refine h.held d x v hx (hv.imp_right fun hret => ?_)
    cases ok <;> simp at hret

theorem inv_take (h : Inv s) (hs : s.step (.take d) = some t) : Inv t := by
  obtain ⟨x, hx, hpc, htake⟩ := step_take hs
  have hused : x.ch ≠ {} := by
    rintro hch
    rcases htake with ⟨v, hbuf, -⟩ | ⟨-, hclosed, -⟩
    · simp [hch] at hbuf
    · simp [hch] at hclosed
  have hpending : s.pending.get (d + 1) ≠ some d := fun hp => hused (h.of_pending hx hp).1
  have hputs : ¬ ∃ v, (d, v) ∈ s.puts := fun hv => hused (h.of_put hx hv)
  obtain ⟨v, hbuf, rfl⟩ | ⟨hbuf, hclosed, rfl⟩ := htake
  · refine inv_setDispatch h hx rfl (fun hp => absurd hp hpending) (fun hp => absurd hp hputs) ?_ (by simp)
    intro w hw
    have hwv : v = w := by simpa using hw
    exact hwv ▸ h.held d x v hx (.inl hbuf)
  · refine inv_setDispatch h hx rfl (fun hp => absurd hp hpending) (fun hp => absurd hp hputs) ?_ (by simp)
    intro w hw
    simp [hbuf] at hw

theorem inv_expire (h : Inv s) (hs : s.step (.expire d) = some t) : Inv t := by
  obtain ⟨x, hx, hpc, rfl⟩ := step_expire hs
  refine inv_setDispatch h hx rfl (fun hp => ⟨(h.of_pending hx hp).1, rfl⟩)
    (h.of_put (x := x) hx) ?_ (by simp)
  intro v hv
  exact h.held d x v hx (hv.imp_right fun hret => by simp at hret)

theorem inv_remove (h : Inv s) (hs : s.step (.remove d) = some t) : Inv t := by
  obtain ⟨x, e, hx, hpc, rfl⟩ := step_remove hs
  have hget : ∀ id, (s.remove x.id).pending.get id = if id = d + 1 then none else s.pending.get id := by
    intro id
    rw [← h.id d x hx]
    exact Table.get_del s.pending _ id
  have hremoved : Inv (s.remove x.id) := by
    constructor
    case next => exact h.next
    case id => exact h.id
    case pending =>
      intro id f hid
      rw [hget] at hid
      split at hid
      · cases hid
      · exact h.pending id f hid
    case puts =>
      intro f v hv
      obtain ⟨hnone, hrest⟩ := h.puts f v hv
      exact ⟨by rw [hget, hnone, ite_self], hrest⟩
    case putsOnce => exact h.putsOnce
    case held => exact h.held
    case covered =>
      intro f y hy hypc
      rw [hget]
      split
      · next hf =>
        obtain rfl : f = d := by omega
        obtain rfl : x = y := Option.some.inj (hx.symm.trans hy)
        simp [hpc] at hypc
      · exact h.covered f y hy hypc
    case fault => exact h.fault
  refine inv_setDispatch hremoved hx rfl ?_ (h.of_put (x := x) hx) ?_ (by simp)
  · intro hp
    rw [hget, if_pos rfl] at hp
    cases hp
  · intro v hv
    exact h.held d x v hx (hv.imp_right fun hret => by simp at hret)

theorem inv_deliver (h : Inv s) (r : CommandResult Res) : Inv (s.deliver r) := by
  have harr : ∀ (k : Nat) (c : CommandResult Res), s.arrived[k]? = some c →
      (s.arrived ++ [r])[k]? = some c := by
    intro k c hk
    exact Growing.keep hk
  have hlogged : Inv { s with arrived := s.arrived ++ [r] } :=
    ⟨h.next, h.id, h.pending, fun d v hv => (h.puts d v hv).imp_right fun hp => hp.imp_left (harr _ _),
      h.putsOnce, fun d x v hx hv => harr _ _ (h.held d x v hx hv), h.covered, h.fault⟩
  cases hp : s.pending.get r.requestId with
  | none => simpa only [deliver, hp] using hlogged
  | some d =>
    obtain ⟨hid, x, hx, hch, hret⟩ := h.pending _ _ hp
    have hdeliver : s.deliver r = { s with
        arrived := s.arrived ++ [r]
        pending := s.pending.del r.requestId
        puts := s.puts ++ [(d, ⟨s.arrived.length, r.result⟩)] } := by
      simp [deliver, hp]
    have hget : ∀ id, (s.pending.del r.requestId).get id =
        if id = d + 1 then none else s.pending.get id := by
      intro id
      rw [Table.get_del, hid]
    rw [hdeliver]
    constructor
    case next => exact h.next
    case id => exact h.id
    case pending =>
      intro id f hid
      simp only [hget] at hid
      split at hid
      · cases hid
      · exact h.pending id f hid
    case puts =>
      intro f v hv
      simp only [List.mem_append, List.mem_singleton, Prod.mk.injEq] at hv
      rcases hv with hv | ⟨rfl, rfl⟩
      · obtain ⟨hnone, hrest⟩ := hlogged.puts f v hv
        exact ⟨by simp only [hget]; split <;> first | rfl | exact hnone, hrest⟩
      · exact ⟨by simp only [hget, if_true], by simp [← hid], x, hx, hch⟩
    case putsOnce =>
      rw [List.map_append, List.nodup_append]
      refine ⟨h.putsOnce, by simp, ?_⟩
      intro f hf g hg
      obtain ⟨⟨_, v⟩, hv, rfl⟩ := List.mem_map.mp hf
      obtain rfl : g = d := by simpa using hg
      rintro rfl
      have := (h.puts _ v hv).1
      rw [← hid, hp] at this
      cases this
    case held => exact hlogged.held
    case covered =>
      intro f y hy hypc
      simp only [hget, List.mem_append, List.mem_singleton, Prod.mk.injEq]
      by_cases hf : f = d
      · exact .inr (.inl ⟨⟨s.arrived.length, r.result⟩, .inr ⟨hf, rfl⟩⟩)
      · rw [if_neg (by omega)]
        exact (h.covered f y hy hypc).imp_right fun hc => hc.imp_left fun hput => hput.imp fun v hv => .inl hv
    case fault => exact h.fault

/-- A delivery in flight finds its channel open and empty. -/
theorem put_spec (h : Inv s) {i : Nat} (hs : s.step (.put i) = some t) :
    ∃ d v x, s.puts[i]? = some (d, v) ∧ s.dispatches[d]? = some x ∧ x.ch = {} ∧
      t = { s with
        puts := s.puts.eraseIdx i
        dispatches := s.dispatches.set d { x with ch := ⟨some v, false⟩ } } ∧
      ∀ e, t.dispatches[e]? = if e = d then some { x with ch := ⟨some v, false⟩ } else s.dispatches[e]? := by
  obtain ⟨d, v, hi, rfl⟩ := step_put hs
  obtain ⟨-, -, x, hx, hch⟩ := h.puts d v (List.mem_of_getElem? hi)
  have hput : ({ s with puts := s.puts.eraseIdx i } : Session Op Res).put d v =
      { s with
        puts := s.puts.eraseIdx i
        dispatches := s.dispatches.set d { x with ch := ⟨some v, false⟩ } } := by
    simp [put, hx, hch, setDispatch]
  exact ⟨d, v, x, hi, hx, hch, hput, fun e => hput ▸ getElem?_setDispatch hx _ e⟩

theorem inv_put (h : Inv s) {i : Nat} (hs : s.step (.put i) = some t) : Inv t := by
  obtain ⟨d, v, x, hi, hx, hch, rfl, hget⟩ := put_spec h hs
  obtain ⟨hnone, harr, -⟩ := h.puts d v (List.mem_of_getElem? hi)
  -- the other deliveries in flight go to other channels
  have hother : ∀ e w, (e, w) ∈ s.puts.eraseIdx i → e ≠ d := by
    rintro e w he rfl
    obtain ⟨j, hji, hj⟩ := List.mem_eraseIdx_iff_getElem?.mp he
    have hlt : j < (s.puts.map Prod.fst).length := by
      simpa using (List.getElem?_eq_some_iff.mp hj).1
    exact hji ((List.getElem?_inj hlt h.putsOnce).mp (by simp [hi, hj]))
  constructor
  case next => simpa using h.next
  case id =>
    intro e z hz
    simp only [hget] at hz
    split at hz
    · next he =>
      obtain rfl := Option.some.inj hz
      exact he ▸ h.id d x hx
    · exact h.id e z hz
  case pending =>
    intro id e hide
    obtain ⟨heq, z, hz, hrest⟩ := h.pending id e hide
    have hed : e ≠ d := by
      rintro rfl
      rw [← heq, hide] at hnone
      cases hnone
    exact ⟨heq, z, by simp only [hget, if_neg hed, hz], hrest⟩
  case puts =>
    intro e w he
    obtain ⟨hnone', harr', z, hz, hch'⟩ := h.puts e w (List.eraseIdx_subset he)
    exact ⟨hnone', harr', z, by simp only [hget, if_neg (hother e w he), hz], hch'⟩
  case putsOnce => exact h.putsOnce.sublist ((List.eraseIdx_sublist _ _).map _)
  case held =>
    intro e z w hz hw
    simp only [hget] at hz
    split at hz
    · next he =>
      subst he
      obtain rfl := Option.some.inj hz
      rcases hw with hw | hret
      · obtain rfl : v = w := by simpa using hw
        exact harr
      · exact h.held e x w hx (.inr hret)
    · exact h.held e z w hz hw
  case covered =>
    intro e z hz hpc
    simp only [hget] at hz
    split at hz
    · obtain rfl := Option.some.inj hz
      exact .inr (.inr (by simp))
    · next he =>
      refine (h.covered e z hz hpc).imp_right fun hc => hc.imp_left fun hput => hput.imp fun w hw => ?_
      obtain ⟨j, hj⟩ := List.getElem?_of_mem hw
      refine List.mem_eraseIdx_iff_getElem?.mpr ⟨j, ?_, hj⟩
      rintro rfl
      rw [hi] at hj
      exact he (congrArg Prod.fst (Option.some.inj hj)).symm
  case fault => exact h.fault

/-- What `failAll` does to a session whose channels are in order. -/
theorem failAll_spec (h : Inv s) :
    ∃ xs, s.failAll = { s with dispatches := xs, pending := ∅, failed := true } ∧
      ∀ d, xs[d]? = (s.dispatches[d]?).map fun x =>
        if s.pending.get (d + 1) = some d then Dispatch.close x else x := by
  have hshift : s.pending.toList.map Prod.fst = (s.pending.toList.map Prod.snd).map (· + 1) := by
    rw [List.map_map]
    refine List.map_congr_left fun p hp => ?_
    exact (h.pending p.1 p.2 ((Table.mem_toList _ _ _).mp hp)).1
  have hkeys : (s.pending.toList.map Prod.fst).Nodup := Table.nodup_keys s.pending
  obtain ⟨xs, hfold, hxs⟩ := closeAll (s.pending.toList.map Prod.snd)
    (List.Nodup.of_map _ (hshift ▸ hkeys)) s (by
      intro d hd
      obtain ⟨p, hp, rfl⟩ := List.mem_map.mp hd
      obtain ⟨-, x, hx, hch, -⟩ := h.pending p.1 p.2 ((Table.mem_toList _ _ _).mp hp)
      exact ⟨x, hx, by simp [hch]⟩)
  refine ⟨xs, by rw [failAll, hfold], fun d => ?_⟩
  have hmem : d ∈ s.pending.toList.map Prod.snd ↔ s.pending.get (d + 1) = some d := by
    rw [List.mem_map]
    constructor
    · rintro ⟨p, hp, rfl⟩
      have hget := (Table.mem_toList _ _ _).mp hp
      rw [← (h.pending p.1 p.2 hget).1, hget]
    · intro hget
      exact ⟨(d + 1, d), (Table.mem_toList _ _ _).mpr hget, rfl⟩
  simp only [hxs d, hmem]

theorem inv_failAll (h : Inv s) : Inv s.failAll := by
  obtain ⟨xs, hfail, hxs⟩ := failAll_spec h
  have hget : ∀ d x, xs[d]? = some x → ∃ y, s.dispatches[d]? = some y ∧
      x = if s.pending.get (d + 1) = some d then Dispatch.close y else y := by
    intro d x hx
    rw [hxs d, Option.map_eq_some_iff] at hx
    obtain ⟨y, hy, rfl⟩ := hx
    exact ⟨y, hy, rfl⟩
  rw [hfail]
  constructor
  case next =>
    have hlen : xs.length = s.dispatches.length := by
      apply Nat.le_antisymm
      · by_contra hlt
        have := hxs s.dispatches.length
        simp at this
        omega
      · by_contra hlt
        have := hxs xs.length
        rw [List.getElem?_eq_none (Nat.le_refl _), eq_comm, Option.map_eq_none_iff] at this
        have := List.getElem?_eq_none_iff.mp this
        omega
    simpa [hlen] using h.next
  case id =>
    intro d x hx
    obtain ⟨y, hy, rfl⟩ := hget d x hx
    split <;> exact h.id d y hy
  case pending => simp
  case puts =>
    intro d v hv
    obtain ⟨hnone, harr, x, hx, hch⟩ := h.puts d v hv
    exact ⟨rfl, harr, x, by simp [hxs d, hx, hnone], hch⟩
  case putsOnce => exact h.putsOnce
  case held =>
    intro d x v hx hv
    obtain ⟨y, hy, rfl⟩ := hget d x hx
    split at hv <;> exact h.held d y v hy hv
  case covered =>
    intro d x hx hpc
    obtain ⟨y, hy, rfl⟩ := hget d x hx
    by_cases hp : s.pending.get (d + 1) = some d
    · exact .inr (.inr (by simp [hp, Dispatch.close]))
    · rw [if_neg hp] at hpc ⊢
      exact .inr ((h.covered d y hy hpc).resolve_left hp)
  case fault => exact h.fault

theorem inv_step (h : Inv s) (a : SessionAct Op Res) (hs : s.step a = some t) : Inv t := by
  cases a with
  | dispatch op => exact Option.some.inj hs ▸ inv_dispatch h op
  | send d ok => exact inv_send h hs
  | take d => exact inv_take h hs
  | expire d => exact inv_expire h hs
  | remove d => exact inv_remove h hs
  | deliver r => exact Option.some.inj hs ▸ inv_deliver h r
  | put i => exact inv_put h hs
  | failAll => exact Option.some.inj hs ▸ inv_failAll h

theorem inv_run {as : List (SessionAct Op Res)} (hrun : (sessionSystem Op Res).run {} as = some s) :
    Inv s :=
  (sessionSystem Op Res).run_invariant (fun _ a _ h hs => inv_step h a hs) inv_init hrun

end Session

end Marshal.Server
