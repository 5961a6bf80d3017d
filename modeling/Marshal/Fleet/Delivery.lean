import Marshal.Fleet.Shipping

/-! Exactly once, while nothing fails.

Where the server's disk works, connections follow one another and no command gets ahead
of an acknowledgement, the server's rows are the agent's rows up to some time, and what
is in flight on the one connection being served is what follows. -/
namespace Marshal.Fleet
open Proto Server Watermark

/-- Nothing fails on the server's side, and connections follow one another. -/
def Faultless (s : Shipping) : ShipAct → Prop
  | .append tsMs samples => 0 < tsMs ∧ (samples.map MetricStore.Sample.label).Nodup
  | .hello k o reads => o = .ok ∧ reads = true ∧ ∀ l ∈ s.links.take k, l.up = false
  | .first displaced => displaced = false
  | .deliver k o appended => o = .ok ∧ ∀ l ∈ s.links[k]?, ∀ batch ∈ l.sent[l.delivered]?,
      (groupByTs batch).length ≤ appended
  | _ => True

instance (s : Shipping) : (a : ShipAct) → Decidable (Faultless s a)
  | .append tsMs samples =>
    inferInstanceAs (Decidable (0 < tsMs ∧ (samples.map MetricStore.Sample.label).Nodup))
  | .hello k o reads => inferInstanceAs (Decidable (o = .ok ∧ reads = true ∧ ∀ l ∈ s.links.take k, l.up = false))
  | .first displaced => inferInstanceAs (Decidable (displaced = false))
  | .deliver k o appended => inferInstanceAs (Decidable (o = .ok ∧ ∀ l ∈ s.links[k]?,
      ∀ batch ∈ l.sent[l.delivered]?, (groupByTs batch).length ≤ appended))
  | .connect | .tick .. | .lose .. | .disconnect => isTrue trivial

/-- The server's rows are the agent's first ones in timestamp order, all of them up to a
time, each timestamp and label once. -/
structure Delivered (s : Shipping) : Prop where
  first : ∃ rows, rows <+: s.loc.rows ∧ s.stored.Perm rows
  ordered : s.stored.Pairwise fun r q => r.ts ≤ q.ts
  complete : ∀ q ∈ s.stored, ∀ r ∈ s.loc.rows, r.ts ≤ q.ts → r ∈ s.stored
  once : (s.stored.map fun r => (r.ts, r.label)).Nodup

section
variable {s t : Shipping} {k : Nat} {l : Link} {m : Int}

/-! ### The invariant -/

/-- The agent's rows: positive times in order, each label once at a time. -/
structure Sampled (rows : List MetricStore.Row) : Prop where
  pos : ∀ r ∈ rows, 0 < r.ts
  sorted : rows.Pairwise fun r q => r.ts ≤ q.ts
  once : (rows.map fun r => (r.ts, r.label)).Nodup

/-- What is in flight on a connection follows `m`, once it is acknowledged. -/
structure Link.Follows (rows : List MetricStore.Row) (m : Int) (l : Link) : Prop where
  silent : l.ack = none → l.watermark = none
  idle : l.watermark = none → l.sent = []
  acked : ∀ v, l.ack = some v → 0 ≤ v
  nonneg : ∀ w, l.watermark = some w → 0 ≤ w
  received : l.delivered ≤ l.sent.length
  greeted : l.up = true → ∀ v, l.ack = some v → l.watermark = none → v = m
  pending : l.up = true → l.ack.isSome = true → ∀ w, l.watermark = some w →
    Chain MetricStore.Row.ts rows m ((l.sent.drop l.delivered).map (List.map rowOf)) w

/-- Once a connection is served, those before it are not. -/
def ServedAlone (s : Shipping) : Prop :=
  ∀ (j k : Nat) (x l : Link), j < k → s.links[j]? = some x → s.links[k]? = some l →
    l.ack.isSome = true → x.up = false

structure Exact (s : Shipping) : Prop where
  sampled : Sampled s.loc.rows
  ordered : s.stored.Pairwise fun r q => r.ts ≤ q.ts
  served : ServedAlone s
  follows : ∃ m, 0 ≤ m ∧ Mark MetricStore.Row.ts 0 s.loc.rows m ∧
    s.stored.Perm (segment MetricStore.Row.ts s.loc.rows 0 m) ∧
    ∀ (k : Nat) (l : Link), s.links[k]? = some l → l.Follows s.loc.rows m

theorem Exact.delivered (h : Exact s) : Delivered s := by
  obtain ⟨m, -, -, hperm, -⟩ := h.follows
  refine ⟨⟨_, segment_prefix h.sampled.sorted h.sampled.pos, hperm⟩, h.ordered, fun q hq r hr hle => ?_, ?_⟩
  · obtain ⟨-, -, hqm⟩ := mem_segment.mp (hperm.mem_iff.mp hq)
    exact hperm.mem_iff.mpr (mem_segment.mpr ⟨hr, h.sampled.pos r hr, hle.trans hqm⟩)
  · refine ((hperm.map _).nodup_iff).mpr (h.sampled.once.sublist ?_)
    exact (List.filter_sublist).map _

theorem Sampled.grow {rows new : List MetricStore.Row} {tsMs : Int} (h : Sampled rows)
    (hnew : Newer MetricStore.Row.ts rows new) (hts : ∀ r ∈ new, r.ts = tsMs) (hpos : 0 < tsMs)
    (honce : (new.map MetricStore.Row.label).Nodup) : Sampled (rows ++ new) := by
  refine ⟨fun r hr => ?_, List.pairwise_append.mpr ⟨h.sorted, ?_, fun r hr q hq => (hnew q hq r hr).le⟩, ?_⟩
  · rcases List.mem_append.mp hr with hr | hr
    · exact h.pos r hr
    · exact hts r hr ▸ hpos
  · exact List.pairwise_of_forall_mem_list fun r hr q hq => (hts r hr).trans_le (hts q hq).ge
  · rw [List.map_append]
    refine List.nodup_append.mpr ⟨h.once, ?_, ?_⟩
    · have hlabels : (new.map fun r => (r.ts, r.label)).map Prod.snd = new.map MetricStore.Row.label := by
        simp [Function.comp_def]
      exact List.Nodup.of_map Prod.snd (hlabels ▸ honce)
    · rintro ⟨ts, label⟩ hold ⟨ts', label'⟩ hnew' heq
      obtain ⟨r, hr, hreq⟩ := List.mem_map.mp hold
      obtain ⟨q, hq, hqeq⟩ := List.mem_map.mp hnew'
      have hlt := hnew q hq r hr
      rw [heq, ← hqeq] at hreq
      exact absurd (congrArg Prod.fst hreq) (ne_of_lt hlt)

/-- The watermark read on `Hello` is where the stored rows end. -/
theorem maxTs_segment {rows stored : List MetricStore.Row} (hm : 0 ≤ m)
    (hmark : Mark MetricStore.Row.ts 0 rows m) (hperm : stored.Perm (segment MetricStore.Row.ts rows 0 m)) :
    MetricStore.maxTs ⟨stored⟩ = m := by
  have hupper : MetricStore.maxTs ⟨stored⟩ ≤ m := by
    rcases MetricStore.maxTs_cases ⟨stored⟩ with hzero | ⟨r, hr, hts⟩
    · exact hzero.trans_le hm
    · rw [← hts]
      exact (mem_segment.mp (hperm.mem_iff.mp hr)).2.2
  have hlower : 0 ≤ MetricStore.maxTs ⟨stored⟩ := by
    rcases MetricStore.maxTs_cases ⟨stored⟩ with hzero | ⟨r, hr, hts⟩
    · exact hzero.ge
    · rw [← hts]
      exact (mem_segment.mp (hperm.mem_iff.mp hr)).2.1.le
  refine le_antisymm hupper ?_
  rcases hmark with rfl | ⟨r, hr, rfl⟩
  · exact hlower
  · rcases hm.lt_or_eq with hpos | hzero
    · exact MetricStore.le_maxTs ⟨stored⟩ r (hperm.mem_iff.mpr (mem_segment.mpr ⟨hr, hpos, le_rfl⟩))
    · exact hzero ▸ hlower

theorem Link.Follows.grow {rows new : List MetricStore.Row} (hnew : Newer MetricStore.Row.ts rows new)
    (h : l.Follows rows m) : l.Follows (rows ++ new) m :=
  ⟨h.silent, h.idle, h.acked, h.nonneg, h.received, h.greeted, fun hup hack w hw => (h.pending hup hack w hw).grow hnew⟩

/-- A connection that is not served has nothing to follow. -/
theorem Link.Follows.unserved {rows : List MetricStore.Row} {n : Int} (h : l.Follows rows m)
    (hnot : l.up = true → l.ack.isSome = true → False) : l.Follows rows n :=
  ⟨h.silent, h.idle, h.acked, h.nonneg, h.received,
    fun hup v hv => (hnot hup (by rw [hv]; rfl)).elim, fun hup hack => (hnot hup hack).elim⟩

theorem ServedAlone.set {x : Link} (h : ServedAlone s) (hl : s.links[k]? = some l)
    (hup : x.up = true → l.up = true)
    (hserved : x.ack.isSome = true → ∀ (j : Nat) (y : Link), j < k → s.links[j]? = some y → y.up = false) :
    ServedAlone (s.setLink k x) := by
  intro i j y z hij hi hj hack
  rw [Shipping.getElem?_setLink hl] at hi hj
  by_cases hjk : j = k
  · rw [if_pos hjk] at hj
    obtain rfl := Option.some.inj hj
    rw [if_neg (by omega)] at hi
    exact hserved hack i y (by omega) hi
  · rw [if_neg hjk] at hj
    split at hi
    · next hik =>
      obtain rfl := Option.some.inj hi
      have hdown := h k j l z (by omega) hl hj hack
      by_contra hy
      rw [hup (by simpa using hy)] at hdown
      cases hdown
    · exact h i j y z hij hi hj hack

/-- One connection moves on; the rows stay. -/
theorem Exact.set {x : Link} (h : Exact s) (hl : s.links[k]? = some l) (hserved : ServedAlone (s.setLink k x))
    (hx : ∀ m, 0 ≤ m → l.Follows s.loc.rows m → s.stored.Perm (segment MetricStore.Row.ts s.loc.rows 0 m) →
      Mark MetricStore.Row.ts 0 s.loc.rows m → x.Follows s.loc.rows m) : Exact (s.setLink k x) := by
  obtain ⟨m, hm, hmark, hperm, hfollows⟩ := h.follows
  refine ⟨h.sampled, h.ordered, hserved, m, hm, hmark, hperm, fun j y hj => ?_⟩
  rw [Shipping.getElem?_setLink hl] at hj
  split at hj
  · obtain rfl := Option.some.inj hj
    exact hx m hm (hfollows k l hl) hperm hmark
  · exact hfollows j y hj

theorem Exact.append {tsMs : Int} {samples : List MetricStore.Sample} (h : Exact s)
    (hrule : Faultless s (.append tsMs samples)) (hstep : s.step (.append tsMs samples) = some t) : Exact t := by
  obtain ⟨new, rfl, hnew, hts, hlabels⟩ := Shipping.step_append hstep
  obtain ⟨m, hm, hmark, hperm, hfollows⟩ := h.follows
  refine ⟨h.sampled.grow hnew hts hrule.1 (hlabels ▸ hrule.2), h.ordered, h.served, m, hm, hmark.grow, ?_,
    fun k l hl => (hfollows k l hl).grow hnew⟩
  show s.stored.Perm (segment MetricStore.Row.ts (s.loc.rows ++ new) 0 m)
  rwa [segment_mark_grow hnew hmark]

theorem Exact.hello {o : Opening} {reads : Bool} (h : Exact s) (hrule : Faultless s (.hello k o reads))
    (hstep : s.step (.hello k o reads) = some t) : Exact t := by
  obtain ⟨rfl, rfl, hbefore⟩ := hrule
  obtain ⟨l, hl, -, hack, rfl⟩ := Shipping.step_hello hstep
  obtain ⟨hrows, hread⟩ := s.data.lastMetricTs_spec s.agent .ok true
  have hopens : s.data.opensMetrics s.agent .ok = true := by simp [DataDir.opensMetrics]
  rw [hopens, Bool.and_self, if_pos rfl] at hread
  have hstored : Shipping.stored { s with data := (s.data.lastMetricTs s.agent .ok true).1 } = s.stored := hrows
  have hmoved : Exact { s with data := (s.data.lastMetricTs s.agent .ok true).1 } :=
    ⟨h.sampled, hstored ▸ h.ordered, h.served, hstored ▸ h.follows⟩
  refine hmoved.set hl (hmoved.served.set hl id fun _ j y hj hy => ?_) fun m hm hold hperm hmark => ?_
  · refine hbefore y (List.mem_of_getElem? (i := j) ?_)
    rw [List.getElem?_take_of_lt hj]
    exact hy
  · rw [hstored] at hperm
    have hv : (s.data.lastMetricTs s.agent .ok true).2 = m := hread.trans (maxTs_segment hm hmark hperm)
    refine ⟨fun hnone => (by cases hnone), hold.idle, fun v hv' => ?_, hold.nonneg, hold.received,
      fun _ v hv' _ => ?_, fun _ _ w hw => ?_⟩
    · obtain rfl := Option.some.inj hv'
      exact hv ▸ hm
    · obtain rfl := Option.some.inj hv'
      exact hv
    · rw [hold.silent hack] at hw
      cases hw

theorem Exact.deliver {o : Opening} {appended : Nat} (h : Exact s) (hrule : Faultless s (.deliver k o appended))
    (hstep : s.step (.deliver k o appended) = some t) : Exact t := by
  obtain ⟨l, batch, hl, hbatch, hup, hack, rfl⟩ := Shipping.step_deliver hstep
  obtain ⟨rfl, hall⟩ := hrule
  obtain ⟨m, hm, hmark, hperm, hfollows⟩ := h.follows
  have hold := hfollows k l hl
  obtain ⟨hlt, hget⟩ := List.getElem?_eq_some_iff.mp hbatch
  obtain ⟨w, hw⟩ : ∃ w, l.watermark = some w := by
    rw [← Option.ne_none_iff_exists']
    intro hnone
    rw [hold.idle hnone] at hlt
    cases hlt
  have hpending := hold.pending hup hack w hw
  rw [List.drop_eq_getElem_cons hlt, hget, List.map_cons] at hpending
  obtain ⟨b, hmb, hb, hseg, hrest⟩ := hpending
  have hstored : ({ s with data := s.data.storeBatch s.agent batch .ok appended } : Shipping).stored =
      s.stored ++ ingested batch appended := by
    rw [Shipping.stored, DataDir.storeBatch_rows, if_pos (by simp [DataDir.opensMetrics])]
    rfl
  have hnew := (ingested_all (hall l hl batch hbatch)).trans hseg
  constructor
  case sampled => exact h.sampled
  case ordered =>
    rw [Shipping.setLink_stored, hstored]
    refine List.pairwise_append.mpr ⟨h.ordered, ingested_sorted _ _, fun r hr q hq => ?_⟩
    have hrm := (mem_segment.mp (hperm.mem_iff.mp hr)).2.2
    have hmq := (mem_segment.mp (hnew.mem_iff.mp hq)).2.1
    exact hrm.trans hmq.le
  case served =>
    have hmoved : ServedAlone { s with data := s.data.storeBatch s.agent batch .ok appended } := h.served
    exact hmoved.set hl id fun _ j y hjk hj => h.served j k y l hjk hj hl hack
  case follows =>
    refine ⟨b, hm.trans hmb.le, .inr hb, ?_, fun j y hj => ?_⟩
    · rw [Shipping.setLink_stored, hstored]
      exact (hperm.append hnew).trans (segment_append hm hmb.le)
    · rw [Shipping.getElem?_setLink (s := { s with data := s.data.storeBatch s.agent batch .ok appended }) hl] at hj
      split at hj
      · obtain rfl := Option.some.inj hj
        refine ⟨hold.silent, hold.idle, hold.acked, hold.nonneg, hlt, fun _ v _ hnone => ?_, fun _ _ w' hw' => ?_⟩
        · have hnone : l.watermark = none := hnone
          rw [hw] at hnone
          cases hnone
        · obtain rfl : w = w' := Option.some.inj (hw.symm.trans hw')
          exact hrest
      · next hjk =>
        -- no other connection is served
        refine (hfollows j y hj).unserved fun hyup hyack => ?_
        rcases Nat.lt_or_gt_of_ne hjk with hlt' | hgt
        · have hdown := h.served j k y l hlt' hj hl hack
          rw [hyup] at hdown
          cases hdown
        · have hdown := h.served k j l y hgt hl hj hyack
          rw [hup] at hdown
          cases hdown

theorem exact_step {a : ShipAct} (h : Exact s) (hrule : Faultless s a) (hstep : s.step a = some t) : Exact t := by
  cases a with
  | append tsMs samples => exact h.append hrule hstep
  | hello k o reads => exact h.hello hrule hstep
  | deliver k o appended => exact h.deliver hrule hstep
  | connect =>
    obtain rfl := Option.some.inj hstep
    obtain ⟨m, hm, hmark, hperm, hfollows⟩ := h.follows
    refine ⟨h.sampled, h.ordered, fun i j y z hij hi hj hack => ?_, m, hm, hmark, hperm, fun k l hl => ?_⟩
    · rcases Growing.old_or_new hj with hold | ⟨-, rfl⟩
      · have hlt := (List.getElem?_eq_some_iff.mp hold).1
        exact h.served i j y z hij (by rwa [List.getElem?_append_left (by omega)] at hi) hold hack
      · cases hack
    · rcases Growing.old_or_new hl with hold | ⟨-, rfl⟩
      · exact hfollows k l hold
      · exact ⟨fun _ => rfl, fun _ => rfl, fun v hv => (by cases hv), fun w hw => (by cases hw), le_rfl,
          fun _ v hv => (by cases hv), fun _ hack => (by cases hack)⟩
  | first displaced =>
    obtain ⟨k, l, v, -, hl, hnone, hv, rfl⟩ := Shipping.step_first hstep
    obtain rfl : displaced = false := hrule
    obtain ⟨-, hack⟩ := hv.resolve_left (by simp)
    refine h.set hl (h.served.set hl id fun hsome j y hj hy => h.served j k y l hj hy hl hsome) ?_
    intro m hm hold _ _
    have hidle := hold.idle hnone
    refine ⟨fun hnone => ?_, fun hnone => (by cases hnone), hold.acked, fun w hw => ?_, hold.received,
      fun _ _ _ hnone => (by cases hnone), fun hup _ w hw => ?_⟩
    · rw [hack] at hnone
      cases hnone
    · obtain rfl := Option.some.inj hw
      exact hold.acked v hack
    · obtain rfl := Option.some.inj hw
      obtain rfl := hold.greeted hup v hack hnone
      show Chain _ _ v ((l.sent.drop l.delivered).map _) v
      rw [hidle, List.drop_nil]
      rfl
  | tick out sent =>
    obtain ⟨m₀, -, -, -, hfollows⟩ := h.follows
    rcases Shipping.step_tick hstep (fun k l w hl hw => (hfollows k l hl).nonneg w hw) with
      (rfl | rfl) | ⟨k, l, w, w', batch, hl, hw, -, hlt, hmark, hperm, rfl⟩
    · exact ⟨h.sampled, h.ordered, h.served, h.follows⟩
    · exact h
    · refine h.set hl (h.served.set hl id fun hsome j y hj hy => h.served j k y l hj hy hl hsome) ?_
      intro m hm hold _ _
      refine ⟨fun hnone => ?_, fun hnone => (by cases hnone), hold.acked, fun v hv => ?_, ?_,
        fun _ _ _ hnone => (by cases hnone), fun hup hack v hv => ?_⟩
      · have := hold.silent hnone
        rw [hw] at this
        cases this
      · obtain rfl := Option.some.inj hv
        exact (hold.nonneg w hw).trans hlt.le
      · rw [List.length_append]
        exact hold.received.trans (Nat.le_add_right _ _)
      · obtain rfl := Option.some.inj hv
        rw [List.drop_append_of_le_length hold.received, List.map_append, chain_append]
        exact ⟨w, hold.pending hup hack w hw, w', hlt, hmark, hperm, rfl⟩
  | lose k =>
    obtain ⟨l, hl, rfl⟩ := Shipping.step_lose hstep
    refine h.set hl (h.served.set hl (fun hup => by cases hup)
      fun hsome j y hj hy => h.served j k y l hj hy hl hsome) fun m _ hold _ _ => ?_
    exact ⟨hold.silent, hold.idle, hold.acked, hold.nonneg, hold.received, fun hup => (by cases hup),
      fun hup => (by cases hup)⟩
  | disconnect =>
    obtain rfl := Option.some.inj hstep
    exact ⟨h.sampled, h.ordered, h.served, h.follows⟩

/-! ### Along a run -/

/-- **Delivery.** In every run of samplings, ticks, deliveries, losses and reconnects in which
nothing fails on the server's side, the server's rows are the agent's first ones in timestamp
order, complete for each timestamp, and each of them once. -/
theorem delivered_exactly_once {s₀ : Shipping} {as : List ShipAct} (h₀ : shippingSystem.init s₀)
    (hrun : shippingSystem.run s₀ as = some s) (hrule : shippingSystem.Along Faultless s₀ as) : Delivered s := by
  obtain ⟨hloc, hstored, hlinks, -⟩ := h₀
  have hinit : Exact s₀ := by
    refine ⟨⟨?_, ?_, ?_⟩, ?_, fun i j y z _ hi => ?_, 0, le_rfl, .inl rfl, ?_, fun k l hl => ?_⟩
    · simp [hloc]
    · simp [hloc]
    · simp [hloc]
    · simp [hstored]
    · simp [hlinks] at hi
    · simp [hstored]
    · simp [hlinks] at hl
  exact (shippingSystem.along_invariant (fun s a t hC h hstep => exact_step h hC hstep) hinit hrun hrule).delivered

end

/-- Two processes are sampled, shipped and stored; the connection is lost with a batch in flight,
and the next one ships that batch again. -/
def reconnectRun : List ShipAct :=
  [.connect, .hello 0 .ok true, .first false, .append 1 [⟨"web#0", 0, 0⟩, ⟨"api#0", 0, 0⟩],
    .tick [⟨1, "web#0", 0, 0⟩, ⟨1, "api#0", 0, 0⟩] true, .append 2 [⟨"web#0", 0, 0⟩],
    .tick [⟨2, "web#0", 0, 0⟩] true, .deliver 0 .ok 1, .lose 0, .disconnect, .connect, .hello 1 .ok true,
    .first false, .tick [⟨2, "web#0", 0, 0⟩] true, .deliver 1 .ok 1]

theorem delivered_reconnectRun :
    ∃ s, shippingSystem.run { agent := "db" } reconnectRun = some s ∧ s.stored.length = 3 ∧ Delivered s := by
  have hinit : shippingSystem.init { agent := "db" } := ⟨rfl, rfl, rfl, rfl⟩
  have hends : (shippingSystem.run { agent := "db" } reconnectRun).map (fun s => s.stored.length) = some 3 := by
    decide +kernel
  have hrule : shippingSystem.Along Faultless { agent := "db" } reconnectRun := by decide +kernel
  obtain ⟨s, hs, hlength⟩ := Option.map_eq_some_iff.mp hends
  exact ⟨s, hs, hlength, delivered_exactly_once hinit hs hrule⟩

end Marshal.Fleet
