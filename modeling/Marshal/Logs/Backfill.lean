import Mathlib.Data.List.Nodup
import Marshal.Logs.Followers

/-! Subscribing with backfill.

The snapshot of the ring and the registration are one step, so what a subscriber is
given and what is sent to it meet without a gap and without a repeat. What each step
does to one subscriber is said once (`Hears`); the channels that lines are sent to are
open, each of them under one id (`Wired`). -/
namespace Marshal.Logs
open Transition

/-! ### All channels at once -/

/-- The channel after a line is sent to it. -/
def Chan.push (ch : Chan) (ln : Line) : Chan :=
  if ch.buf.length < subBuffer then { ch with buf := ch.buf ++ [ln] } else ch

theorem mem_map_cons {α : Type} {f : α → Nat} {e : α} {rest : List α} {n : Nat} (h : n ≠ f e) :
    n ∈ (e :: rest).map f ↔ n ∈ rest.map f := by
  rw [List.map_cons, List.mem_cons]
  exact or_iff_right h

namespace LiveSink

/-- The channels of these entries are there and open. -/
def Opens (s : LiveSink) (l : List (Nat × Nat)) : Prop :=
  ∀ e ∈ l, ∃ ch, s.chans[e.2]? = some ch ∧ ch.closed = false

theorem send_open {s : LiveSink} {c : Nat} {ch : Chan} (hch : s.chans[c]? = some ch)
    (hopen : ch.closed = false) (ln : Line) :
    s.send c ln = { s with chans := s.chans.set c (ch.push ln) } := by
  unfold send Chan.push
  rw [hch]
  simp only [hopen, Bool.false_eq_true, if_false]
  split
  · rfl
  · obtain ⟨hlt, rfl⟩ := List.getElem?_eq_some_iff.mp hch
    rw [List.set_getElem_self]

theorem sends_eq {s : LiveSink} {l : List (Nat × Nat)} (hopens : s.Opens l)
    (hnodup : (l.map Prod.snd).Nodup) (ln : Line) :
    ∃ chans, l.foldl (fun s e => s.send e.2 ln) s = { s with chans := chans } ∧
      chans.length = s.chans.length ∧ ∀ c, chans[c]? = if c ∈ l.map Prod.snd then (s.chans[c]?).map (·.push ln) else s.chans[c]? := by
  induction l generalizing s with
  | nil => exact ⟨s.chans, rfl, rfl, fun c => by simp⟩
  | cons e rest ih =>
    obtain ⟨ch, hch, hopen⟩ := hopens e List.mem_cons_self
    obtain ⟨hfirst, hrest⟩ := List.nodup_cons.mp hnodup
    have hopens' : LiveSink.Opens { s with chans := s.chans.set e.2 (ch.push ln) } rest := by
      intro e' he'
      obtain ⟨ch', hch', hopen'⟩ := hopens e' (List.mem_cons_of_mem e he')
      have hne : e.2 ≠ e'.2 := fun heq => hfirst (heq ▸ List.mem_map_of_mem he')
      exact ⟨ch', by rw [← hch']; exact List.getElem?_set_ne hne, hopen'⟩
    obtain ⟨chans, hfold, hlength, hchans⟩ := ih hopens' hrest
    refine ⟨chans, ?_, hlength.trans List.length_set, fun c => ?_⟩
    · rw [List.foldl_cons, send_open hch hopen, hfold]
    · rw [hchans c]
      by_cases hc : c = e.2
      · subst hc
        have hlt : e.2 < s.chans.length := (List.getElem?_eq_some_iff.mp hch).1
        rw [if_neg hfirst, if_pos (by simp), hch]
        exact List.getElem?_set_self hlt
      · rw [List.getElem?_set_ne (Ne.symm hc)]
        simp only [mem_map_cons hc]

theorem closeChan_open {s : LiveSink} {c : Nat} {ch : Chan} (hch : s.chans[c]? = some ch)
    (hopen : ch.closed = false) :
    s.closeChan c = { s with chans := s.chans.set c { ch with closed := true } } := by
  unfold closeChan
  rw [hch]
  simp [hopen]

theorem closes_eq {s : LiveSink} {l : List (Nat × Nat)} (hopens : s.Opens l)
    (hnodup : (l.map Prod.snd).Nodup) :
    ∃ chans subs,
      l.foldl (fun s e => { s with subs := s.subs.del e.1 }.closeChan e.2) s =
        { s with chans := chans, subs := subs } ∧
      chans.length = s.chans.length ∧ (∀ c, chans[c]? =
        if c ∈ l.map Prod.snd then (s.chans[c]?).map ({ · with closed := true }) else s.chans[c]?) ∧
      ∀ id, subs.get id = if id ∈ l.map Prod.fst then none else s.subs.get id := by
  induction l generalizing s with
  | nil => exact ⟨s.chans, s.subs, rfl, rfl, fun c => by simp, fun id => by simp⟩
  | cons e rest ih =>
    obtain ⟨ch, hch, hopen⟩ := hopens e List.mem_cons_self
    obtain ⟨hfirst, hrest⟩ := List.nodup_cons.mp hnodup
    have hclose : LiveSink.closeChan { s with subs := s.subs.del e.1 } e.2 =
        { s with subs := s.subs.del e.1, chans := s.chans.set e.2 { ch with closed := true } } :=
      @closeChan_open { s with subs := s.subs.del e.1 } e.2 ch hch hopen
    have hopens' : LiveSink.Opens
        { s with subs := s.subs.del e.1, chans := s.chans.set e.2 { ch with closed := true } } rest := by
      intro e' he'
      obtain ⟨ch', hch', hopen'⟩ := hopens e' (List.mem_cons_of_mem e he')
      have hne : e.2 ≠ e'.2 := fun heq => hfirst (heq ▸ List.mem_map_of_mem he')
      exact ⟨ch', by rw [← hch']; exact List.getElem?_set_ne hne, hopen'⟩
    obtain ⟨chans, subs, hfold, hlength, hchans, hsubs⟩ := ih hopens' hrest
    refine ⟨chans, subs, ?_, hlength.trans List.length_set, fun c => ?_, fun id => ?_⟩
    · rw [List.foldl_cons, hclose, hfold]
    · rw [hchans c]
      by_cases hc : c = e.2
      · subst hc
        have hlt : e.2 < s.chans.length := (List.getElem?_eq_some_iff.mp hch).1
        rw [if_neg hfirst, if_pos (by simp), hch]
        exact List.getElem?_set_self hlt
      · rw [List.getElem?_set_ne (Ne.symm hc)]
        simp only [mem_map_cons hc]
    · rw [hsubs id]
      show (if _ then none else (s.subs.del e.1).get id) = _
      rw [Table.get_del]
      by_cases hid : id = e.1
      · simp [hid]
      · simp only [mem_map_cons hid, hid, if_false]

theorem setPart_eq (s : LiveSink) (stderr : Bool) (p : List UInt8) :
    ∃ out err, s.setPart stderr p = { s with outPart := out, errPart := err } := by
  cases stderr with
  | false => exact ⟨p, s.errPart, rfl⟩
  | true => exact ⟨s.outPart, p, rfl⟩

theorem write_eq (s : LiveSink) (stderr : Bool) (p : List UInt8) :
    ∃ out err writing, s.write stderr p =
      { s with outPart := out, errPart := err, writing := writing } := by
  unfold write
  split
  · exact ⟨s.outPart, s.errPart, s.writing, rfl⟩
  · obtain ⟨out, err, hpart⟩ := s.setPart_eq stderr (s.part stderr ++ p)
    exact ⟨out, err, some stderr, by rw [hpart]⟩

end LiveSink

/-! ### One step -/

open LiveSink

/-- The channels that lines are sent to are open, each under the id of its subscriber. -/
structure Wired (w : World) : Prop where
  length : w.sink.chans.length = w.followers.length
  own : ∀ id c, w.sink.subs.get id = some c →
    ∃ f ch, w.followers[c]? = some f ∧ f.id = some id ∧ w.sink.chans[c]? = some ch ∧ ch.closed = false
  ids : ∀ (c : Nat) f id, w.followers[c]? = some f → f.id = some id → id < w.sink.nextID
  calm : w.sink.panicked = false
  shows : RingBuffer.Shows w.sink.ring w.emitted

/-- What a step does to one subscriber and its channel. -/
inductive Hears (w w' : World) (c : Nat) (f : Follower) (ch : Chan) : Follower → Chan → Prop where
  | nothing {closed : Bool} (he : w'.emitted = w.emitted) : Hears w w' c f ch f { ch with closed := closed }
  | recv {ln : Line} {buf : List Line} (he : w'.emitted = w.emitted) (hbuf : ch.buf = ln :: buf) :
      Hears w w' c f ch { f with received := f.received ++ [ln] } { ch with buf := buf }
  | sent {ln : Line} (he : w'.emitted = w.emitted ++ [ln]) (hfollowing : w.Following c) :
      Hears w w' c f ch f (ch.push ln)
  | missed {ln : Line} (he : w'.emitted = w.emitted ++ [ln]) (hgone : ¬ w.Following c) :
      Hears w w' c f ch f ch

/-- A subscriber from before the step. -/
def Hearing (w w' : World) (c : Nat) (f' : Follower) (ch' : Chan) : Prop :=
  ∃ f ch, w.followers[c]? = some f ∧ w.sink.chans[c]? = some ch ∧ Hears w w' c f ch f' ch' ∧
    (w'.Following c → w.Following c)

/-- A subscriber that the step adds: what it is given ends with the last line emitted. -/
structure Born (w w' : World) (f' : Follower) (ch' : Chan) : Prop where
  emitted : w'.emitted = w.emitted
  start : f'.start = w.emitted.length
  backfill : f'.backfill = w.emitted.drop (w.emitted.length - f'.back)
  received : f'.received = []
  buf : ch'.buf = []

variable {w w' : World} {c : Nat}

theorem Wired.opens (h : Wired w) : w.sink.Opens w.sink.subs.toList := by
  rintro ⟨id, c⟩ he
  obtain ⟨f, ch, -, -, hch, hopen⟩ := h.own id c ((Table.mem_toList _ _ _).mp he)
  exact ⟨ch, hch, hopen⟩

theorem Wired.nodup (h : Wired w) : (w.sink.subs.toList.map Prod.snd).Nodup := by
  refine List.Nodup.map_on ?_ (List.Nodup.of_map _ w.sink.subs.nodup_keys)
  rintro ⟨id, c⟩ he ⟨id', c'⟩ he' (rfl : c = c')
  obtain ⟨f, -, hf, hid, -⟩ := h.own id c ((Table.mem_toList _ _ _).mp he)
  obtain ⟨f', -, hf', hid', -⟩ := h.own id' c ((Table.mem_toList _ _ _).mp he')
  obtain rfl := Option.some.inj (hf.symm.trans hf')
  obtain rfl := Option.some.inj (hid.symm.trans hid')
  rfl

theorem mem_subs_iff (w : World) (c : Nat) :
    c ∈ w.sink.subs.toList.map Prod.snd ↔ w.Following c := by
  constructor
  · intro h
    obtain ⟨e, he, rfl⟩ := List.mem_map.mp h
    exact ⟨e.1, (Table.mem_toList _ _ _).mp he⟩
  · rintro ⟨id, hid⟩
    exact List.mem_map.mpr ⟨(id, c), (Table.mem_toList _ _ _).mpr hid, rfl⟩

/-- A step on the partial lines and the lock alone. -/
theorem quiet_step (h : Wired w) {out err : List UInt8} {writing : Option Bool}
    (hw : w' = { w with sink := { w.sink with outPart := out, errPart := err, writing := writing } }) :
    Wired w' ∧ ∀ c f' ch', w'.followers[c]? = some f' → w'.sink.chans[c]? = some ch' →
      Hearing w w' c f' ch' := by
  subst hw
  refine ⟨⟨h.length, h.own, h.ids, h.calm, h.shows⟩, fun c f' ch' hf hch => ?_⟩
  exact ⟨f', ch', hf, hch, .nothing rfl, id⟩

theorem emit_step (h : Wired w) {out err : List UInt8} {ln : Line}
    (hw : w' = { w with
      sink := LiveSink.emit { w.sink with outPart := out, errPart := err } ln
      emitted := w.emitted ++ [ln] }) :
    Wired w' ∧ ∀ c f' ch', w'.followers[c]? = some f' → w'.sink.chans[c]? = some ch' →
      Hearing w w' c f' ch' := by
  obtain ⟨chans, hfold, hlength, hchans⟩ := @sends_eq
    { w.sink with outPart := out, errPart := err, ring := w.sink.ring.emit ln } _ h.opens h.nodup ln
  have hsink : LiveSink.emit { w.sink with outPart := out, errPart := err } ln =
      { w.sink with outPart := out, errPart := err, ring := w.sink.ring.emit ln, chans := chans } := hfold
  rw [hsink] at hw
  subst hw
  have hpush : ∀ c, w.Following c → chans[c]? = (w.sink.chans[c]?).map (·.push ln) := by
    intro c hc
    rw [hchans c, if_pos ((mem_subs_iff w c).mpr hc)]
  have hsame : ∀ c, ¬ w.Following c → chans[c]? = w.sink.chans[c]? := by
    intro c hc
    rw [hchans c, if_neg (mt (mem_subs_iff w c).mp hc)]
  refine ⟨⟨hlength.trans h.length, ?_, h.ids, h.calm, h.shows.add ln⟩, fun c f' ch' hf hch => ?_⟩
  · intro id c hid
    obtain ⟨f, ch, hf, hown, hch, hopen⟩ := h.own id c hid
    refine ⟨f, ch.push ln, hf, hown, ?_, ?_⟩
    · show chans[c]? = _
      rw [hpush c ⟨id, hid⟩, hch]
      rfl
    · unfold Chan.push
      split <;> exact hopen
  · have hch : chans[c]? = some ch' := hch
    by_cases hc : w.Following c
    · rw [hpush c hc, Option.map_eq_some_iff] at hch
      obtain ⟨ch, hold, rfl⟩ := hch
      exact ⟨f', ch, hf, hold, .sent rfl hc, id⟩
    · rw [hsame c hc] at hch
      exact ⟨f', ch', hf, hch, .missed rfl hc, id⟩

/-- What a subscriber is given by the ring. -/
theorem backfill_eq (h : Wired w) (f : Follower) (hstart : f.start = w.emitted.length) :
    (match f.asked with
      | none => []
      | some n => w.sink.ring.backfill n.toNat) = w.emitted.drop (w.emitted.length - f.back) := by
  unfold Follower.back
  cases f.asked with
  | none => simp
  | some n =>
    show RingBuffer.last w.sink.ring n.toNat = _
    rw [h.shows.last, hstart]
    congr 2
    show RingBuffer.count ringCap n.toNat w.emitted.length = if n ≤ 0 then _ else _
    unfold RingBuffer.count
    by_cases hn : n ≤ 0
    · rw [if_pos (by omega), if_pos hn]
    · rw [if_neg (by omega), if_neg hn]

theorem getElem?_concat_some {α : Type} {l : List α} {x a : α} {c : Nat} (h : l[c]? = some a) :
    (l ++ [x])[c]? = some a := by
  rw [List.getElem?_append_left (List.getElem?_eq_some_iff.mp h).1]
  exact h

/-- One subscriber more, with its channel, at the end of both lists. -/
theorem append_cases {α β : Type} {l : List α} {m : List β} (hlength : m.length = l.length) {x a : α}
    {y b : β} {c : Nat} (ha : (l ++ [x])[c]? = some a) (hb : (m ++ [y])[c]? = some b) :
    (l[c]? = some a ∧ m[c]? = some b) ∨ (c = l.length ∧ a = x ∧ b = y) := by
  rcases Nat.lt_trichotomy c l.length with hlt | rfl | hgt
  · rw [List.getElem?_append_left hlt] at ha
    rw [List.getElem?_append_left (by omega)] at hb
    exact .inl ⟨ha, hb⟩
  · rw [List.getElem?_concat_length, Option.some.injEq] at ha
    rw [← hlength, List.getElem?_concat_length, Option.some.injEq] at hb
    exact .inr ⟨rfl, ha.symm, hb.symm⟩
  · rw [List.getElem?_eq_none (by rw [List.length_append, List.length_singleton]; omega)] at ha
    cases ha

theorem subscribe_step (h : Wired w) {f : Follower} (hstart : f.start = w.emitted.length)
    (hbackfill : f.backfill = match f.asked with
      | none => []
      | some n => w.sink.ring.backfill n.toNat)
    (hid : f.id = w.sink.subscribe.2) (hreceived : f.received = [])
    (hw : w' = { w with sink := w.sink.subscribe.1, followers := w.followers ++ [f] }) :
    Wired w' ∧ ∀ c f' ch', w'.followers[c]? = some f' → w'.sink.chans[c]? = some ch' →
      Hearing w w' c f' ch' ∨ Born w w' f' ch' := by
  have hborn : ∀ w' ch', w'.emitted = w.emitted → ch'.buf = [] → Born w w' f ch' := fun w' ch' he hbuf =>
    ⟨he, hstart, hbackfill.trans (backfill_eq h f hstart), hreceived, hbuf⟩
  unfold LiveSink.subscribe at hw hid
  split at hw
  · rename_i hclosed
    rw [if_pos hclosed] at hid
    subst hw
    refine ⟨⟨?_, ?_, ?_, h.calm, h.shows⟩, fun c f' ch' hf hch => ?_⟩
    · show (w.sink.chans ++ [_]).length = (w.followers ++ [f]).length
      simp [h.length]
    · intro id c hget
      obtain ⟨f₀, ch₀, hf₀, hown, hch₀, hopen⟩ := h.own id c hget
      exact ⟨f₀, ch₀, getElem?_concat_some hf₀, hown, getElem?_concat_some hch₀, hopen⟩
    · intro c f₀ id hf₀ hown
      rcases append_cases rfl hf₀ hf₀ with ⟨hf₀, -⟩ | ⟨-, rfl, -⟩
      · exact h.ids c f₀ id hf₀ hown
      · rw [hid] at hown
        cases hown
    · rcases append_cases h.length hf hch with ⟨hf, hch⟩ | ⟨-, rfl, rfl⟩
      · exact .inl ⟨f', ch', hf, hch, .nothing rfl, fun h => h⟩
      · exact .inr (hborn _ _ rfl rfl)
  · rename_i hclosed
    rw [if_neg hclosed] at hid
    subst hw
    refine ⟨⟨?_, ?_, ?_, h.calm, h.shows⟩, fun c f' ch' hf hch => ?_⟩
    · show (w.sink.chans ++ [_]).length = (w.followers ++ [f]).length
      simp [h.length]
    · intro id c hget
      have hget : (w.sink.subs.set w.sink.nextID w.sink.chans.length).get id = some c := hget
      rw [Table.get_set] at hget
      split at hget
      · rename_i hnew
        obtain rfl := Option.some.inj hget
        refine ⟨f, {}, ?_, by rw [hid, hnew], List.getElem?_concat_length, rfl⟩
        rw [h.length]
        exact List.getElem?_concat_length
      · obtain ⟨f₀, ch₀, hf₀, hown, hch₀, hopen⟩ := h.own id c hget
        exact ⟨f₀, ch₀, getElem?_concat_some hf₀, hown, getElem?_concat_some hch₀, hopen⟩
    · intro c f₀ id hf₀ hown
      show id < w.sink.nextID + 1
      rcases append_cases rfl hf₀ hf₀ with ⟨hf₀, -⟩ | ⟨-, rfl, -⟩
      · exact Nat.lt_succ_of_lt (h.ids c f₀ id hf₀ hown)
      · rw [hid, Option.some.injEq] at hown
        omega
    · rcases append_cases h.length hf hch with ⟨hf, hch⟩ | ⟨-, rfl, rfl⟩
      · refine .inl ⟨f', ch', hf, hch, .nothing rfl, ?_⟩
        rintro ⟨id, hget⟩
        have hget : (w.sink.subs.set w.sink.nextID w.sink.chans.length).get id = some c := hget
        rw [Table.get_set] at hget
        split at hget
        · have hlt := (List.getElem?_eq_some_iff.mp hch).1
          have := Option.some.inj hget
          omega
        · exact ⟨id, hget⟩
      · exact .inr (hborn _ _ rfl rfl)

theorem cancel_step (h : Wired w) {id : Nat} {d : Nat} (hid : w.sink.subs.get id = some d)
    (hw : w' = { w with sink := LiveSink.closeChan { w.sink with subs := w.sink.subs.del id } d }) :
    Wired w' ∧ ∀ c f' ch', w'.followers[c]? = some f' → w'.sink.chans[c]? = some ch' →
      Hearing w w' c f' ch' := by
  obtain ⟨f₀, ch₀, hf₀, hown₀, hch₀, hopen₀⟩ := h.own id d hid
  have hclose : LiveSink.closeChan { w.sink with subs := w.sink.subs.del id } d =
      { w.sink with subs := w.sink.subs.del id, chans := w.sink.chans.set d { ch₀ with closed := true } } :=
    @closeChan_open { w.sink with subs := w.sink.subs.del id } d ch₀ hch₀ hopen₀
  rw [hclose] at hw
  subst hw
  have hsubs : ∀ id' c, (w.sink.subs.del id).get id' = some c → w.sink.subs.get id' = some c ∧ c ≠ d := by
    intro id' c hid'
    rw [Table.get_del] at hid'
    split at hid'
    · cases hid'
    · rename_i hne
      refine ⟨hid', fun hcd => hne ?_⟩
      subst hcd
      obtain ⟨f, -, hf, hown, -⟩ := h.own id' c hid'
      obtain rfl := Option.some.inj (hf.symm.trans hf₀)
      exact Option.some.inj (hown.symm.trans hown₀)
  refine ⟨⟨List.length_set.trans h.length, ?_, h.ids, h.calm, h.shows⟩, fun c f' ch' hf hch => ?_⟩
  · intro id' c hid'
    obtain ⟨hget, hne⟩ := hsubs id' c hid'
    obtain ⟨f, ch, hf, hown, hch, hopen⟩ := h.own id' c hget
    exact ⟨f, ch, hf, hown, by rw [← hch]; exact List.getElem?_set_ne (Ne.symm hne), hopen⟩
  · have hstill : ∀ c, (∃ id', (w.sink.subs.del id).get id' = some c) → w.Following c :=
      fun c ⟨id', hid'⟩ => ⟨id', (hsubs id' c hid').1⟩
    have hch : (w.sink.chans.set d { ch₀ with closed := true })[c]? = some ch' := hch
    by_cases hc : c = d
    · subst hc
      rw [List.getElem?_set_self (List.getElem?_eq_some_iff.mp hch₀).1, Option.some.injEq] at hch
      subst hch
      exact ⟨f', ch₀, hf, hch₀, .nothing rfl, hstill c⟩
    · rw [List.getElem?_set_ne (Ne.symm hc)] at hch
      exact ⟨f', ch', hf, hch, .nothing rfl, hstill c⟩

theorem close_step (h : Wired w) (hw : w' = { w with sink := w.sink.Close }) :
    Wired w' ∧ ∀ c f' ch', w'.followers[c]? = some f' → w'.sink.chans[c]? = some ch' →
      Hearing w w' c f' ch' := by
  unfold LiveSink.Close at hw
  split at hw
  · subst hw
    exact ⟨h, fun c f' ch' hf hch => ⟨f', ch', hf, hch, .nothing rfl, id⟩⟩
  · obtain ⟨chans, subs, hfold, hlength, hchans, hsubs⟩ :=
      @closes_eq { w.sink with closed := true } _ h.opens h.nodup
    rw [hfold] at hw
    subst hw
    have hnone : ∀ id, subs.get id = none := by
      intro id
      rw [hsubs id]
      split
      · rfl
      · rename_i hmem
        cases hget : w.sink.subs.get id with
        | none => rfl
        | some c =>
          exact absurd (List.mem_map.mpr ⟨(id, c), (Table.mem_toList _ _ _).mpr hget, rfl⟩) hmem
    refine ⟨⟨hlength.trans h.length, ?_, h.ids, h.calm, h.shows⟩, fun c f' ch' hf hch => ?_⟩
    · intro id c hid
      rw [hnone id] at hid
      cases hid
    · have hstill : (∃ id, subs.get id = some c) → w.Following c := by
        rintro ⟨id, hid⟩
        rw [hnone id] at hid
        cases hid
      have hch : chans[c]? = some ch' := hch
      rw [hchans c] at hch
      split at hch
      · obtain ⟨ch, hold, rfl⟩ := Option.map_eq_some_iff.mp hch
        exact ⟨f', ch, hf, hold, .nothing rfl, hstill⟩
      · exact ⟨f', ch', hf, hch, .nothing rfl, hstill⟩

theorem recv_step (h : Wired w) {d : Nat} {f₀ : Follower} {ch₀ : Chan} {ln : Line} {buf : List Line}
    (hch₀ : w.sink.chans[d]? = some ch₀) (hf₀ : w.followers[d]? = some f₀) (hbuf : ch₀.buf = ln :: buf)
    (hw : w' = { w with
      sink := { w.sink with chans := w.sink.chans.set d { ch₀ with buf := buf } }
      followers := w.followers.set d { f₀ with received := f₀.received ++ [ln] } }) :
    Wired w' ∧ ∀ c f' ch', w'.followers[c]? = some f' → w'.sink.chans[c]? = some ch' →
      Hearing w w' c f' ch' := by
  subst hw
  have hdchans := (List.getElem?_eq_some_iff.mp hch₀).1
  have hdfollowers := (List.getElem?_eq_some_iff.mp hf₀).1
  refine ⟨⟨?_, ?_, ?_, h.calm, h.shows⟩, fun c f' ch' hf hch => ?_⟩
  · show (w.sink.chans.set d _).length = (w.followers.set d _).length
    rw [List.length_set, List.length_set, h.length]
  · intro id c hid
    obtain ⟨f, ch, hf, hown, hch, hopen⟩ := h.own id c hid
    by_cases hc : c = d
    · subst hc
      obtain rfl := Option.some.inj (hf.symm.trans hf₀)
      obtain rfl := Option.some.inj (hch.symm.trans hch₀)
      exact ⟨_, _, List.getElem?_set_self hdfollowers, hown, List.getElem?_set_self hdchans, hopen⟩
    · refine ⟨f, ch, ?_, hown, ?_, hopen⟩
      · rw [← hf]
        exact List.getElem?_set_ne (Ne.symm hc)
      · rw [← hch]
        exact List.getElem?_set_ne (Ne.symm hc)
  · intro c f id hf hid
    have hf : (w.followers.set d _)[c]? = some f := hf
    by_cases hc : c = d
    · subst hc
      rw [List.getElem?_set_self hdfollowers, Option.some.injEq] at hf
      subst hf
      exact h.ids c f₀ id hf₀ hid
    · rw [List.getElem?_set_ne (Ne.symm hc)] at hf
      exact h.ids c f id hf hid
  · have hf : (w.followers.set d _)[c]? = some f' := hf
    have hch : (w.sink.chans.set d _)[c]? = some ch' := hch
    by_cases hc : c = d
    · subst hc
      rw [List.getElem?_set_self hdfollowers, Option.some.injEq] at hf
      rw [List.getElem?_set_self hdchans, Option.some.injEq] at hch
      subst hf hch
      exact ⟨f₀, ch₀, hf₀, hch₀, .recv rfl hbuf, id⟩
    · rw [List.getElem?_set_ne (Ne.symm hc)] at hf hch
      exact ⟨f', ch', hf, hch, .nothing rfl, id⟩

theorem world_step {a : Act} (h : Wired w) (hstep : World.machine.step w a = some w') :
    Wired w' ∧ ∀ c f' ch', w'.followers[c]? = some f' → w'.sink.chans[c]? = some ch' →
      Hearing w w' c f' ch' ∨ Born w w' f' ch' := by
  have hold (hw : Wired w' ∧ ∀ c f' ch', w'.followers[c]? = some f' → w'.sink.chans[c]? = some ch' →
      Hearing w w' c f' ch') :
      Wired w' ∧ ∀ c f' ch', w'.followers[c]? = some f' → w'.sink.chans[c]? = some ch' →
        Hearing w w' c f' ch' ∨ Born w w' f' ch' :=
    ⟨hw.1, fun c f' ch' hf hch => .inl (hw.2 c f' ch' hf hch)⟩
  cases a with
  | write stderr p =>
    simp only [World.machine, World.step, Option.ite_none_left_eq_some, Option.some.injEq] at hstep
    obtain ⟨out, err, writing, hwrite⟩ := w.sink.write_eq stderr p
    exact hold (quiet_step h (by rw [← hstep.2, hwrite]))
  | turn now =>
    simp only [World.machine, World.step] at hstep
    split at hstep
    · cases hstep
    · rename_i stderr hwriting
      split at hstep
      · cases hstep
        exact hold (@quiet_step w _ h w.sink.outPart w.sink.errPart none rfl)
      · rename_i text rest hcut
        obtain ⟨out, err, hpart⟩ := w.sink.setPart_eq stderr rest
        rw [Option.some.injEq, hpart] at hstep
        exact hold (emit_step h hstep.symm)
  | subscribe n =>
    simp only [World.machine, World.step, Option.ite_none_left_eq_some, Option.some.injEq] at hstep
    exact subscribe_step h rfl rfl rfl rfl hstep.2.symm
  | cancel c =>
    simp only [World.machine, World.step] at hstep
    split at hstep
    · cases hstep
    · rename_i f hf
      rw [Option.ite_none_left_eq_some, Option.some.injEq] at hstep
      obtain ⟨-, rfl⟩ := hstep
      refine hold ?_
      unfold LiveSink.cancel
      split
      · exact quiet_step h rfl
      · split
        · exact quiet_step h rfl
        · rename_i hget
          exact cancel_step h hget rfl
  | close =>
    simp only [World.machine, World.step, Option.ite_none_left_eq_some, Option.some.injEq] at hstep
    exact hold (close_step h hstep.2.symm)
  | recv c =>
    simp only [World.machine, World.step] at hstep
    split at hstep
    · rename_i ch f hch hf
      split at hstep
      · cases hstep
      · rename_i ln buf hbuf
        exact hold (recv_step h hch hf hbuf (Option.some.inj hstep).symm)
    · cases hstep

/-- Lines are emitted by the turns of a write only. -/
theorem emitted_step {a : Act} (hstep : World.machine.step w a = some w')
    (hne : w'.emitted ≠ w.emitted) : ∃ now, a = .turn now := by
  cases a with
  | turn now => exact ⟨now, rfl⟩
  | write | subscribe | close =>
    simp only [World.machine, World.step, Option.ite_none_left_eq_some, Option.some.injEq] at hstep
    exact absurd (by rw [← hstep.2]) hne
  | cancel c =>
    simp only [World.machine, World.step] at hstep
    split at hstep
    · cases hstep
    · rw [Option.ite_none_left_eq_some, Option.some.injEq] at hstep
      exact absurd (by rw [← hstep.2]) hne
  | recv c =>
    simp only [World.machine, World.step] at hstep
    split at hstep
    · split at hstep
      · cases hstep
      · cases hstep
        exact absurd rfl hne
    · cases hstep

/-! ### What a subscriber has got -/

/-- The backfill ends where the subscription was made, and of what came after it the subscriber has
some lines, in order, or has them waiting. -/
structure Told (w : World) (f : Follower) (ch : Chan) : Prop where
  start : f.start ≤ w.emitted.length
  backfill : f.backfill = (w.emitted.take f.start).drop (f.start - f.back)
  got : (f.received ++ ch.buf).Sublist (w.emitted.drop f.start)

/-- It has all that came after it, as long as it is subscribed. -/
structure Whole (w : World) (c : Nat) (f : Follower) (ch : Chan) : Prop where
  got : f.received ++ ch.buf <+: w.emitted.drop f.start
  all : w.Following c → f.received ++ ch.buf = w.emitted.drop f.start

variable {f f' : Follower} {ch ch' : Chan}

theorem Hears.told (h : Hears w w' c f ch f' ch') (ht : Told w f ch) : Told w' f' ch' := by
  have hmore : ∀ ln : Line, (w.emitted ++ [ln]).drop f.start = w.emitted.drop f.start ++ [ln] :=
    fun ln => List.drop_append_of_le_length ht.start
  have htake : ∀ ln : Line, (w.emitted ++ [ln]).take f.start = w.emitted.take f.start :=
    fun ln => List.take_append_of_le_length ht.start
  cases h with
  | nothing he => exact ⟨he ▸ ht.start, he ▸ ht.backfill, he ▸ ht.got⟩
  | recv he hbuf =>
    have hgot := ht.got
    rw [hbuf] at hgot
    exact ⟨he ▸ ht.start, he ▸ ht.backfill, by rw [he, List.append_assoc]; exact hgot⟩
  | @sent ln he hfollowing =>
    refine ⟨?_, ?_, ?_⟩
    · rw [he, List.length_append]
      exact Nat.le_add_right_of_le ht.start
    · rw [he, htake ln]
      exact ht.backfill
    · rw [he, hmore ln]
      unfold Chan.push
      split
      · rw [← List.append_assoc]
        exact ht.got.append (List.Sublist.refl _)
      · exact ht.got.trans (List.sublist_append_left _ _)
  | @missed ln he hgone =>
    refine ⟨?_, ?_, ?_⟩
    · rw [he, List.length_append]
      exact Nat.le_add_right_of_le ht.start
    · rw [he, htake ln]
      exact ht.backfill
    · rw [he, hmore ln]
      exact ht.got.trans (List.sublist_append_left _ _)

theorem Born.told (h : Born w w' f' ch') : Told w' f' ch' := by
  refine ⟨?_, ?_, ?_⟩
  · rw [h.start, h.emitted]
  · rw [h.backfill, h.start, h.emitted, List.take_length]
  · simp [h.received, h.buf]

theorem Hears.whole (h : Hears w w' c f ch f' ch') (hstart : f.start ≤ w.emitted.length)
    (hroom : w'.emitted ≠ w.emitted → ch.buf.length < subBuffer)
    (hstill : w'.Following c → w.Following c) (hw : Whole w c f ch) : Whole w' c f' ch' := by
  cases h with
  | nothing he => exact ⟨he ▸ hw.got, fun hf => he ▸ hw.all (hstill hf)⟩
  | recv he hbuf =>
    have hgot := hw.got
    have hall := hw.all
    rw [hbuf] at hgot hall
    refine ⟨?_, fun hf => ?_⟩
    · rw [he, List.append_assoc]
      exact hgot
    · rw [he, List.append_assoc]
      exact hall (hstill hf)
  | @sent ln he hfollowing =>
    have hne : w'.emitted ≠ w.emitted := by
      intro heq
      have hlen := congrArg List.length (heq.symm.trans he)
      rw [List.length_append, List.length_singleton] at hlen
      omega
    have hgot : f.received ++ (ch.push ln).buf = w'.emitted.drop f.start := by
      unfold Chan.push
      rw [if_pos (hroom hne), he, List.drop_append_of_le_length hstart, ← hw.all hfollowing,
        List.append_assoc]
    exact ⟨hgot ▸ List.prefix_refl _, fun _ => hgot⟩
  | @missed ln he hgone =>
    refine ⟨?_, fun hf => absurd (hstill hf) hgone⟩
    rw [he, List.drop_append_of_le_length hstart]
    exact hw.got.trans (List.prefix_append _ _)

theorem Born.whole (h : Born w w' f' ch') : Whole w' c f' ch' := by
  have hgot : f'.received ++ ch'.buf = w'.emitted.drop f'.start := by
    rw [h.received, h.buf, h.start, h.emitted, List.drop_length]
    rfl
  exact ⟨hgot ▸ List.prefix_refl _, fun _ => hgot⟩

/-! ### Runs -/

theorem wired_init (h : World.machine.init w) : Wired w := by
  obtain rfl : w = {} := h
  refine ⟨rfl, ?_, ?_, rfl, RingBuffer.shows_new _⟩
  · intro id c hget
    cases hget
  · intro c f id hf
    simp at hf

theorem told_run {as : List Act} {w₀ : World} (hinit : World.machine.init w₀)
    (hrun : World.machine.run w₀ as = some w) :
    Wired w ∧ ∀ (c : Nat) f ch, w.followers[c]? = some f → w.sink.chans[c]? = some ch → Told w f ch := by
  refine World.machine.run_invariant (I := fun w => Wired w ∧ ∀ (c : Nat) f ch,
    w.followers[c]? = some f → w.sink.chans[c]? = some ch → Told w f ch) ?_ ⟨wired_init hinit, ?_⟩ hrun
  · rintro w a w' ⟨hw, ht⟩ hstep
    obtain ⟨hw', hsteps⟩ := world_step hw hstep
    refine ⟨hw', fun c f' ch' hf hch => ?_⟩
    rcases hsteps c f' ch' hf hch with ⟨f, ch, hf, hch, hears, -⟩ | hborn
    · exact hears.told (ht c f ch hf hch)
    · exact hborn.told
  · obtain rfl : w₀ = {} := hinit
    intro c f ch hf
    simp at hf

/-- When a line may be emitted, the subscriber's channel is not full. -/
def Room (c : Nat) (w : World) : Act → Prop
  | .turn _ => ∀ ch ∈ w.sink.chans[c]?, ch.buf.length < subBuffer
  | _ => True

instance decidableRoom (c : Nat) (w : World) : (a : Act) → Decidable (Room c w a)
  | .turn _ => inferInstanceAs (Decidable (∀ ch ∈ w.sink.chans[c]?, ch.buf.length < subBuffer))
  | .write .. | .subscribe _ | .cancel _ | .close | .recv _ => isTrue trivial

theorem whole_run {as : List Act} {w₀ : World} (hinit : World.machine.init w₀)
    (hrun : World.machine.run w₀ as = some w) (hroom : World.machine.Along (Room c) w₀ as) :
    ∀ f ch, w.followers[c]? = some f → w.sink.chans[c]? = some ch → Whole w c f ch := by
  let Inv (w : World) : Prop := Wired w ∧ (∀ (c : Nat) f ch, w.followers[c]? = some f →
    w.sink.chans[c]? = some ch → Told w f ch) ∧
    ∀ f ch, w.followers[c]? = some f → w.sink.chans[c]? = some ch → Whole w c f ch
  have hend : Inv w := by
    refine World.machine.along_invariant (I := Inv) ?_ ⟨wired_init hinit, ?_, ?_⟩ hrun hroom
    · rintro w a w' hC ⟨hw, ht, hwhole⟩ hstep
      obtain ⟨hw', hsteps⟩ := world_step hw hstep
      refine ⟨hw', fun c f' ch' hf hch => ?_, fun f' ch' hf hch => ?_⟩
      · rcases hsteps c f' ch' hf hch with ⟨f, ch, hf, hch, hears, -⟩ | hborn
        · exact hears.told (ht c f ch hf hch)
        · exact hborn.told
      · rcases hsteps c f' ch' hf hch with ⟨f, ch, hf, hch, hears, hstill⟩ | hborn
        · refine hears.whole (ht c f ch hf hch).start (fun hne => ?_) hstill (hwhole f ch hf hch)
          obtain ⟨now, rfl⟩ := emitted_step hstep hne
          exact hC ch hch
        · exact hborn.whole
    all_goals
      obtain rfl : w₀ = {} := hinit
      intros
      simp_all
  exact hend.2.2

/-- What was emitted from the backfill on. -/
theorem Told.drop_back (h : Told w f ch) :
    w.emitted.drop (f.start - f.back) = f.backfill ++ w.emitted.drop f.start := by
  have hlen : f.start - f.back ≤ (w.emitted.take f.start).length := by
    rw [List.length_take, Nat.min_eq_left h.start]
    exact Nat.sub_le _ _
  rw [h.backfill, ← List.drop_append_of_le_length hlen, List.take_append_drop]

/-- **A subscription has no gap and no repeat, whatever writes, subscriptions, cancellations and the
sink's closing come in between: what is received is what was emitted after it, in order and perhaps
with lines left out; and as long as the channel has room whenever a line may come, the backfill and
what is received are a contiguous run of the emitted lines, from as many lines before the subscription
as were asked for and the ring had, and none is missing while it lasts. No closed channel is sent to
or closed again.** -/
theorem follow_without_gap (w₀ w : World) (as : List Act) (hinit : World.machine.init w₀)
    (hrun : World.machine.run w₀ as = some w) :
    w.sink.panicked = false ∧ ∀ (c : Nat) f, w.followers[c]? = some f →
      f.backfill = (w.emitted.take f.start).drop (f.start - f.back) ∧
      f.received.Sublist (w.emitted.drop f.start) ∧
      (World.machine.Along (Room c) w₀ as →
        f.backfill ++ f.received <+: w.emitted.drop (f.start - f.back) ∧
        (w.Following c → ∃ ch, w.sink.chans[c]? = some ch ∧
          f.backfill ++ f.received ++ ch.buf = w.emitted.drop (f.start - f.back))) := by
  obtain ⟨hw, htold⟩ := told_run hinit hrun
  refine ⟨hw.calm, fun c f hf => ?_⟩
  obtain ⟨ch, hch⟩ : ∃ ch, w.sink.chans[c]? = some ch := by
    have hlt := (List.getElem?_eq_some_iff.mp hf).1
    exact ⟨_, List.getElem?_eq_getElem (hw.length ▸ hlt)⟩
  have ht := htold c f ch hf hch
  refine ⟨ht.backfill, (List.sublist_append_left _ _).trans ht.got, fun hroom => ?_⟩
  have hwhole := whole_run hinit hrun hroom f ch hf hch
  rw [ht.drop_back]
  refine ⟨?_, fun hfollowing => ⟨ch, hch, ?_⟩⟩
  · exact (List.prefix_append_right_inj _).mpr ((List.prefix_append _ _).trans hwhole.got)
  · rw [List.append_assoc, hwhole.all hfollowing]

/-- Two lines are written, a subscriber asks for one, and a third line is written and received. -/
def thirdLine : List Act :=
  [.write false [97, 10, 98, 10], .turn 1, .turn 2, .turn 3, .subscribe (some 1),
    .write false [99, 10], .turn 4, .recv 0]

theorem follow_thirdLine :
    ∃ w, World.machine.run {} thirdLine = some w ∧ w.emitted.map Line.text = ["a", "b", "c"] ∧
      ∃ f, w.followers[0]? = some f ∧ f.back = 1 ∧
        f.backfill ++ f.received <+: w.emitted.drop (f.start - f.back) :=
  ⟨_, rfl, by decide, _, rfl, rfl,
    (((follow_without_gap {} _ thirdLine rfl rfl).2 0 _ rfl).2.2 (by decide)).1⟩

end Marshal.Logs
