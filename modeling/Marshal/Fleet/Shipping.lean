import Marshal.Fleet.Client
import Marshal.Lib.Growing
import Marshal.Lib.System
import Marshal.Lib.Watermark
import Marshal.Server.Ingest

/-! Metric shipping, from the agent's local rows to the server's.

A `Link` is one connection: the watermark the server acknowledged, the one the agent
keeps, the batches sent and how many of them the server has worked off. An agent has
one connection at a time, but the server may still be working off an older one. What
the disks and the network do is part of an action. -/
namespace Marshal.Fleet
open Proto Server

/-! ### State -/

/-- A local row as `metricsSince` puts it on the wire. -/
def wireOf (r : MetricStore.TimestampedSample) : MetricSample := ⟨r.tsMs, r.label, r.cpu, r.mem.toInt64⟩

structure Link where
  /-- The watermark read on `Hello`. -/
  ack : Option Int := none
  /-- The agent's, once it received its first message. -/
  watermark : Option Int := none
  /-- The batches sent, oldest first. -/
  sent : List (List MetricSample) := []
  /-- How many of them the server has received. -/
  delivered : Nat := 0
  /-- The server's end still receives. -/
  up : Bool := true
deriving DecidableEq

/-- The rows of each batch sent. -/
def Link.rows (l : Link) : List (List MetricStore.Row) := l.sent.map (List.map rowOf)

structure Shipping where
  agent : String
  loc : MetricStore.Store := {}
  data : DataDir := {}
  links : List Link := []
  /-- The connection of the running `connectOnce`. -/
  current : Option Nat := none

namespace Shipping

/-- The server's rows for the agent. -/
def stored (s : Shipping) : List MetricStore.Row := s.data.metricRows s.agent

def setLink (s : Shipping) (k : Nat) (l : Link) : Shipping := { s with links := s.links.set k l }

end Shipping

/-- The watermark `connectOnce` takes from its first message. -/
def seed (m : ServerMessage Unit) : Int := (Client.recvAll { name := "" } true [m]).2.watermark

@[simp] theorem seed_helloAck (ack : HelloAck) : seed (.helloAck ack) = ack.lastMetricTsMs := by
  simp only [seed, Client.recvAll, List.foldl_cons, List.foldl_nil, Client.recv, Client.recvAck,
    ServerMessage.helloAck?]
  split <;> rfl

@[simp] theorem seed_command (c : Command Unit) : seed (.command c) = 0 := rfl

/-! ### Steps -/

inductive ShipAct where
  /-- The agent samples its processes, later than ever before. -/
  | append (tsMs : Int) (samples : List MetricStore.Sample)
  | connect
  /-- The server handles the `Hello` of connection `k`. -/
  | hello (k : Nat) (o : Opening) (reads : Bool)
  /-- The agent's first message arrives: the acknowledgement, or a command ahead of it. -/
  | first (displaced : Bool)
  /-- `pushMetrics`, where the local query answers `out`. -/
  | tick (out : List MetricStore.TimestampedSample) (sent : Bool)
  /-- The server receives the next batch of connection `k`. -/
  | deliver (k : Nat) (o : Opening) (appended : Nat)
  /-- What is in flight on connection `k` is lost. -/
  | lose (k : Nat)
  /-- `connectOnce` returns. -/
  | disconnect

def Shipping.step (s : Shipping) : ShipAct → Option Shipping
  | .append tsMs samples =>
    if ∀ r ∈ s.loc.rows, r.ts < tsMs then some { s with loc := MetricStore.append s.loc tsMs samples }
    else none
  | .connect => some { s with links := s.links ++ [{}], current := some s.links.length }
  | .hello k o reads => match s.links[k]? with
    | none => none
    | some l =>
      if l.up && l.ack.isNone then
        let r := s.data.lastMetricTs s.agent o reads
        some ({ s with data := r.1 }.setLink k { l with ack := some r.2 })
      else none
  | .first displaced => match s.current with
    | none => none
    | some k => match s.links[k]? with
      | none => none
      | some l =>
        let msg := if displaced then some (.command ⟨1, ()⟩)
          else l.ack.map fun v => .helloAck { lastMetricTsMs := v }
        match l.watermark, msg with
        | none, some m => some (s.setLink k { l with watermark := some (seed m) })
        | _, _ => none
  | .tick out sent => match s.current with
    | none => none
    | some k => match s.links[k]? with
      | none => none
      | some l => match l.watermark with
        | none => none
        | some w =>
          if MetricStore.SamplesSince s.loc w out then match pushMetrics (out.map wireOf) sent w with
            | none => some { s with current := none }
            | some (batches, w') =>
              some (s.setLink k { l with watermark := some w', sent := l.sent ++ batches })
          else none
  | .deliver k o appended => match s.links[k]? with
    | none => none
    | some l => match l.sent[l.delivered]? with
      | none => none
      | some batch =>
        if l.up && l.ack.isSome then
          some ({ s with data := s.data.storeBatch s.agent batch o appended }.setLink k
            { l with delivered := l.delivered + 1 })
        else none
  | .lose k => match s.links[k]? with
    | none => none
    | some l => some (s.setLink k { l with up := false })
  | .disconnect => some { s with current := none }

/-- An agent and a server with nothing sampled, sent or stored. -/
def shippingSystem : Transition.System Shipping ShipAct where
  init s := s.loc = {} ∧ s.stored = [] ∧ s.links = [] ∧ s.current = none
  step := Shipping.step

/-! ### What a step does -/

namespace Shipping
variable {s t : Shipping} {k : Nat} {l : Link}

theorem getElem?_setLink (hl : s.links[k]? = some l) (x : Link) (j : Nat) :
    (s.setLink k x).links[j]? = if j = k then some x else s.links[j]? := by
  have hlt := (List.getElem?_eq_some_iff.mp hl).1
  by_cases h : j = k
  · subst h
    simp [setLink, hlt]
  · rw [if_neg h]
    exact List.getElem?_set_ne fun hkj => h hkj.symm

theorem setLink_same (hl : s.links[k]? = some l) : s.setLink k l = s := by
  obtain ⟨hlt, rfl⟩ := List.getElem?_eq_some_iff.mp hl
  rw [setLink, List.set_getElem_self]

@[simp] theorem setLink_loc (x : Link) : (s.setLink k x).loc = s.loc := rfl
@[simp] theorem setLink_stored (x : Link) : (s.setLink k x).stored = s.stored := rfl
@[simp] theorem setLink_current (x : Link) : (s.setLink k x).current = s.current := rfl

theorem step_append {tsMs : Int} {samples : List MetricStore.Sample} (h : s.step (.append tsMs samples) = some t) :
    ∃ new, t = { s with loc := ⟨s.loc.rows ++ new⟩ } ∧ Watermark.Newer MetricStore.Row.ts s.loc.rows new ∧
      (∀ r ∈ new, r.ts = tsMs) ∧ new.map MetricStore.Row.label = samples.map MetricStore.Sample.label := by
  simp only [step] at h
  split at h
  · next hnewer =>
    obtain rfl := Option.some.inj h
    refine ⟨samples.map fun sm => ⟨tsMs, sm.label, sm.cpu, sm.mem.toInt64⟩, rfl, ?_, ?_, by simp⟩
    · intro q hq r hr
      obtain ⟨sm, -, rfl⟩ := List.mem_map.mp hq
      exact hnewer r hr
    · intro r hr
      obtain ⟨sm, -, rfl⟩ := List.mem_map.mp hr
      rfl
  · cases h

theorem step_hello {o : Opening} {reads : Bool} (h : s.step (.hello k o reads) = some t) :
    ∃ l, s.links[k]? = some l ∧ l.up = true ∧ l.ack = none ∧
      t = { s with data := (s.data.lastMetricTs s.agent o reads).1 }.setLink k
        { l with ack := some (s.data.lastMetricTs s.agent o reads).2 } := by
  simp only [step] at h
  split at h
  · cases h
  · next l hl =>
    split at h
    · next hcond =>
      simp only [Bool.and_eq_true, Option.isNone_iff_eq_none] at hcond
      exact ⟨l, hl, hcond.1, hcond.2, (Option.some.inj h).symm⟩
    · cases h

theorem step_first {displaced : Bool} (h : s.step (.first displaced) = some t) :
    ∃ k l v, s.current = some k ∧ s.links[k]? = some l ∧ l.watermark = none ∧
      (displaced = true ∧ v = 0 ∨ displaced = false ∧ l.ack = some v) ∧
      t = s.setLink k { l with watermark := some v } := by
  simp only [step] at h
  split at h
  · cases h
  · next k hk =>
    split at h
    · cases h
    · next l hl =>
      split at h
      · next hnone hm =>
        cases displaced with
        | true =>
          obtain rfl := Option.some.inj hm
          exact ⟨k, l, 0, hk, hl, hnone, .inl ⟨rfl, rfl⟩, (Option.some.inj h).symm⟩
        | false =>
          obtain ⟨v, hv, rfl⟩ := Option.map_eq_some_iff.mp hm
          refine ⟨k, l, v, hk, hl, hnone, .inr ⟨rfl, hv⟩, ?_⟩
          simpa using h.symm
      · cases h

theorem step_deliver {o : Opening} {appended : Nat} (h : s.step (.deliver k o appended) = some t) :
    ∃ l batch, s.links[k]? = some l ∧ l.sent[l.delivered]? = some batch ∧ l.up = true ∧ l.ack.isSome = true ∧
      t = { s with data := s.data.storeBatch s.agent batch o appended }.setLink k
        { l with delivered := l.delivered + 1 } := by
  simp only [step] at h
  split at h
  · cases h
  · next l hl =>
    split at h
    · cases h
    · next batch hbatch =>
      split at h
      · next hcond =>
        rw [Bool.and_eq_true] at hcond
        exact ⟨l, batch, hl, hbatch, hcond.1, hcond.2, (Option.some.inj h).symm⟩
      · cases h

theorem step_lose (h : s.step (.lose k) = some t) :
    ∃ l, s.links[k]? = some l ∧ t = s.setLink k { l with up := false } := by
  simp only [step] at h
  split at h
  · cases h
  · next l hl => exact ⟨l, hl, (Option.some.inj h).symm⟩

end Shipping

/-! ### What a tick ships -/

theorem rowOf_wireOf (r : MetricStore.Row) : rowOf (wireOf r.read) = r := by
  simp [rowOf, wireOf, MetricStore.Row.read]

theorem maxOf_le {tss : List Int} {t : Int} (h : t ∈ tss) : t ≤ maxOf tss := by
  have hfold : ∀ (tss : List Int) (mx : Int),
      mx ≤ tss.foldl (fun mx ts => if mx < ts then ts else mx) mx ∧
        ∀ t ∈ tss, t ≤ tss.foldl (fun mx ts => if mx < ts then ts else mx) mx := by
    intro tss
    induction tss with
    | nil => simp
    | cons x rest ih =>
      intro mx
      rw [List.foldl_cons]
      obtain ⟨hmx, hrest⟩ := ih (if mx < x then x else mx)
      refine ⟨?_, ?_⟩
      · split at hmx <;> split <;> omega
      · intro t ht
        rcases List.mem_cons.mp ht with rfl | ht
        · split at hmx <;> split <;> omega
        · exact hrest t ht
  exact (hfold tss 0).2 t h

theorem maxOf_cases (tss : List Int) : maxOf tss = 0 ∨ maxOf tss ∈ tss := by
  have hfold : ∀ (tss : List Int) (mx : Int),
      tss.foldl (fun mx ts => if mx < ts then ts else mx) mx = mx ∨
        tss.foldl (fun mx ts => if mx < ts then ts else mx) mx ∈ tss := by
    intro tss
    induction tss with
    | nil => simp
    | cons x rest ih =>
      intro mx
      rw [List.foldl_cons]
      rcases ih (if mx < x then x else mx) with heq | hmem
      · rw [heq]
        split
        · exact .inr (List.mem_cons_self ..)
        · exact .inl rfl
      · exact .inr (List.mem_cons_of_mem _ hmem)
  exact hfold tss 0

/-- A push that is sent ships every item and leaves none past the watermark. -/
theorem push_sent {α : Type} (ts : α → Int) (items : List α) (w : Int) :
    ∃ batches w', push ts items true w = some (batches, w') ∧ batches.flatten = items ∧ w ≤ w' ∧
      ∀ x ∈ items, ts x ≤ w' := by
  unfold push
  split
  · next hnil =>
    rw [List.isEmpty_iff.mp hnil]
    exact ⟨[], w, rfl, rfl, le_rfl, by simp⟩
  · refine ⟨[items], _, rfl, by simp, ?_, fun x hx => ?_⟩
    · split <;> omega
    · have hle := maxOf_le (List.mem_map_of_mem (f := ts) hx)
      split <;> omega

/-- What goes out is the segment past the watermark, up to the watermark it moves to. -/
theorem push_segment {loc : MetricStore.Store} {w w' : Int} {out : List MetricStore.TimestampedSample}
    {sent : Bool} {batches : List (List MetricSample)} (hw : 0 ≤ w) (hout : MetricStore.SamplesSince loc w out)
    (hpush : pushMetrics (out.map wireOf) sent w = some (batches, w')) :
    batches = [] ∧ w' = w ∨ ∃ batch, batches = [batch] ∧ batch ≠ [] ∧ w < w' ∧
      (∃ r ∈ loc.rows, r.ts = w') ∧
      (batch.map rowOf).Perm (Watermark.segment MetricStore.Row.ts loc.rows w w') := by
  have hperm : ((out.map wireOf).map rowOf).Perm (loc.rows.filter fun r => decide (w < r.ts)) := by
    have hrows := (hout.1.map wireOf).map rowOf
    rw [List.map_map, List.map_map] at hrows
    simpa [Function.comp_def, rowOf_wireOf] using hrows
  unfold pushMetrics push at hpush
  split at hpush
  · cases hpush
    exact .inl ⟨rfl, rfl⟩
  · next hne =>
    split at hpush
    · obtain ⟨rfl, rfl⟩ := Prod.mk.inj (Option.some.inj hpush)
      have hnewer : ∀ sm ∈ out.map wireOf, rowOf sm ∈ loc.rows ∧ w < sm.tsMs := by
        intro sm hsm
        simpa [rowOf] using hperm.mem_iff.mp (List.mem_map_of_mem hsm)
      have hnil : out.map wireOf ≠ [] := by simpa using hne
      -- the largest timestamp shipped is one of them, as all are past the watermark
      have hmax : ∃ sm ∈ out.map wireOf, sm.tsMs = maxOf ((out.map wireOf).map MetricSample.tsMs) := by
        rcases maxOf_cases ((out.map wireOf).map MetricSample.tsMs) with hzero | hmem
        · obtain ⟨sm, hsm⟩ := List.exists_mem_of_ne_nil _ hnil
          have hle := maxOf_le (List.mem_map_of_mem (f := MetricSample.tsMs) hsm)
          have hlt := (hnewer sm hsm).2
          omega
        · obtain ⟨sm, hsm, hts⟩ := List.mem_map.mp hmem
          exact ⟨sm, hsm, hts⟩
      obtain ⟨sm, hsm, hts⟩ := hmax
      have hlt := (hnewer sm hsm).2
      rw [hts] at hlt
      refine .inr ⟨_, rfl, hnil, by rwa [if_pos hlt], ?_, ?_⟩
      · rw [if_pos hlt]
        exact ⟨rowOf sm, (hnewer sm hsm).1, hts⟩
      · rw [if_pos hlt]
        refine hperm.trans (.of_eq (List.filter_congr fun r hr => ?_))
        simp only [decide_eq_decide]
        refine ⟨fun hwr => ⟨hwr, ?_⟩, fun h => h.1⟩
        obtain ⟨x, hx, rfl⟩ := List.mem_map.mp (hperm.mem_iff.mpr
          (List.mem_filter.mpr ⟨hr, decide_eq_true hwr⟩))
        exact maxOf_le (List.mem_map_of_mem (f := MetricSample.tsMs) hx)
    · cases hpush

namespace Shipping
variable {s t : Shipping}

/-- A tick ends the connection, ships nothing, or ships the next segment. -/
theorem step_tick {out : List MetricStore.TimestampedSample} {sent : Bool} (h : s.step (.tick out sent) = some t)
    (hpos : ∀ (k : Nat) (l : Link) (w : Int), s.links[k]? = some l → l.watermark = some w → 0 ≤ w) :
    (t = { s with current := none } ∨ t = s) ∨ ∃ (k : Nat) (l : Link) (w w' : Int) (batch : List MetricSample),
      s.links[k]? = some l ∧ l.watermark = some w ∧ batch ≠ [] ∧ w < w' ∧ (∃ r ∈ s.loc.rows, r.ts = w') ∧
      (batch.map rowOf).Perm (Watermark.segment MetricStore.Row.ts s.loc.rows w w') ∧
      t = s.setLink k { l with watermark := some w', sent := l.sent ++ [batch] } := by
  simp only [step] at h
  split at h
  · cases h
  · next k hk =>
    split at h
    · cases h
    · next l hl =>
      split at h
      · cases h
      · next w hw =>
        split at h
        · next hout =>
          split at h
          · exact .inl (.inl (Option.some.inj h).symm)
          · next batches w' hpush =>
            rcases push_segment (hpos k l w hl hw) hout hpush with ⟨rfl, rfl⟩ | ⟨batch, rfl, hne, hlt, hmark, hperm⟩
            · refine .inl (.inr ?_)
              rw [List.append_nil, ← hw] at h
              exact (Option.some.inj h).symm.trans (setLink_same hl)
            · exact .inr ⟨k, l, w, w', batch, hl, hw, hne, hlt, hmark, hperm, (Option.some.inj h).symm⟩
        · cases h

end Shipping

end Marshal.Fleet
