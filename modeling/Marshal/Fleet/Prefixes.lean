import Marshal.Fleet.Shipping

/-! Whether what is stored is a prefix of what was sent.

The agent moves its watermark when a batch is sent, and the next `Hello` is answered by
the largest timestamp stored. `Unbroken` is the rule that a batch is stored only on top of
those its connection delivered before; it is exactly what keeps the stored rows a prefix. -/
namespace Marshal.Fleet
open Proto Server Watermark

/-- With a stored row, every row no newer that was ever sent is stored. -/
def PrefixesOnly (s : Shipping) : Prop :=
  ∀ r ∈ s.stored, ∀ l ∈ s.links, ∀ batch ∈ l.sent, ∀ sm ∈ batch, sm.tsMs ≤ r.ts → rowOf sm ∈ s.stored

instance (s : Shipping) : Decidable (PrefixesOnly s) :=
  inferInstanceAs (Decidable (∀ r ∈ s.stored, ∀ l ∈ s.links, ∀ batch ∈ l.sent, ∀ sm ∈ batch,
    sm.tsMs ≤ r.ts → rowOf sm ∈ s.stored))

/-- A batch of which anything is stored comes on a connection whose earlier batches are
all stored. -/
def Unbroken (s : Shipping) : ShipAct → Prop
  | .deliver k o appended => s.data.opensMetrics s.agent o = true → 0 < appended →
      ∀ l ∈ s.links[k]?, ∀ batch ∈ l.sent.take l.delivered, ∀ sm ∈ batch, rowOf sm ∈ s.stored
  | _ => True

instance (s : Shipping) : (a : ShipAct) → Decidable (Unbroken s a)
  | .deliver k o appended => inferInstanceAs (Decidable (s.data.opensMetrics s.agent o = true → 0 < appended →
      ∀ l ∈ s.links[k]?, ∀ batch ∈ l.sent.take l.delivered, ∀ sm ∈ batch, rowOf sm ∈ s.stored))
  | .append .. | .connect | .hello .. | .first .. | .tick .. | .lose .. | .disconnect => isTrue trivial

section
variable {s t : Shipping} {k : Nat} {l : Link}

/-! ### The invariant -/

/-- A connection ships consecutive segments from where the stored rows once ended. -/
structure Link.Sound (rows stored : List MetricStore.Row) (l : Link) : Prop where
  ack : ∀ v, l.ack = some v → 0 ≤ v ∧ Mark MetricStore.Row.ts 0 rows v ∧ Covered MetricStore.Row.ts 0 rows stored v
  idle : l.watermark = none → l.sent = []
  shipped : ∃ start, 0 ≤ start ∧ Mark MetricStore.Row.ts 0 rows start ∧
    Covered MetricStore.Row.ts 0 rows stored start ∧
    Chain MetricStore.Row.ts rows start l.rows (l.watermark.getD start)

theorem Link.Sound.grow {rows stored new : List MetricStore.Row} (hnew : Newer MetricStore.Row.ts rows new)
    (h : l.Sound rows stored) : l.Sound (rows ++ new) stored := by
  obtain ⟨start, hpos, hmark, hcovered, hchain⟩ := h.shipped
  refine ⟨fun v hv => ?_, h.idle, start, hpos, hmark.grow, hcovered.grow hnew hmark, hchain.grow hnew⟩
  obtain ⟨hv0, hvmark, hvcovered⟩ := h.ack v hv
  exact ⟨hv0, hvmark.grow, hvcovered.grow hnew hvmark⟩

theorem Link.Sound.mono {rows stored more : List MetricStore.Row} (hsub : ∀ q ∈ stored, q ∈ more)
    (h : l.Sound rows stored) : l.Sound rows more := by
  obtain ⟨start, hpos, hmark, hcovered, hchain⟩ := h.shipped
  refine ⟨fun v hv => ?_, h.idle, start, hpos, hmark, hcovered.mono hsub, hchain⟩
  obtain ⟨hv0, hvmark, hvcovered⟩ := h.ack v hv
  exact ⟨hv0, hvmark, hvcovered.mono hsub⟩

theorem Link.Sound.nonneg {rows stored : List MetricStore.Row} {w : Int} (h : l.Sound rows stored)
    (hw : l.watermark = some w) : 0 ≤ w := by
  obtain ⟨start, hpos, -, -, hchain⟩ := h.shipped
  rw [hw] at hchain
  exact hpos.trans hchain.le

structure Sound (s : Shipping) : Prop where
  stored : Prefix MetricStore.Row.ts 0 s.loc.rows s.stored
  links : ∀ (k : Nat) (l : Link), s.links[k]? = some l → l.Sound s.loc.rows s.stored

/-- Every sample sent is a local row past 0. -/
theorem Sound.sent (h : Sound s) (hl : s.links[k]? = some l) {batch : List MetricSample}
    (hbatch : batch ∈ l.sent) {sm : MetricSample} (hsm : sm ∈ batch) :
    rowOf sm ∈ s.loc.rows ∧ 0 < sm.tsMs := by
  obtain ⟨start, hpos, -, -, hchain⟩ := (h.links k l hl).shipped
  obtain ⟨hloc, hlt, -⟩ := hchain.mem_iff.mp
    ⟨batch.map rowOf, List.mem_map_of_mem hbatch, List.mem_map_of_mem hsm⟩
  exact ⟨hloc, hpos.trans_lt hlt⟩

theorem Sound.prefixesOnly (h : Sound s) : PrefixesOnly s := by
  intro r hr l hl batch hbatch sm hsm hle
  obtain ⟨k, hk⟩ := List.mem_iff_getElem?.mp hl
  obtain ⟨hloc, hpos⟩ := h.sent hk hbatch hsm
  exact h.stored.closed r hr (rowOf sm) hloc hpos hle

/-- One connection moves on; the rows stay. -/
theorem Sound.set {x : Link} (h : Sound s) (hl : s.links[k]? = some l) (hx : x.Sound s.loc.rows s.stored) :
    Sound (s.setLink k x) := by
  refine ⟨h.stored, fun j y hj => ?_⟩
  rw [Shipping.getElem?_setLink hl] at hj
  split at hj
  · obtain rfl := Option.some.inj hj
    exact hx
  · exact h.links j y hj

/-- The watermark read on `Hello` is covered. -/
theorem Sound.watermark (h : Sound s) (o : Opening) (reads : Bool) :
    0 ≤ (s.data.lastMetricTs s.agent o reads).2 ∧
      Mark MetricStore.Row.ts 0 s.loc.rows (s.data.lastMetricTs s.agent o reads).2 ∧
      Covered MetricStore.Row.ts 0 s.loc.rows s.stored (s.data.lastMetricTs s.agent o reads).2 := by
  have hzero : 0 ≤ (0 : Int) ∧ Mark MetricStore.Row.ts 0 s.loc.rows 0 ∧
      Covered MetricStore.Row.ts 0 s.loc.rows s.stored 0 :=
    ⟨le_rfl, .inl rfl, fun q _ hpos hle => absurd hpos (by omega)⟩
  rw [(s.data.lastMetricTs_spec s.agent o reads).2]
  split
  · rcases MetricStore.maxTs_cases ⟨s.data.metricRows s.agent⟩ with heq | ⟨r, hr, hts⟩
    · rw [heq]
      exact hzero
    · rw [← hts]
      have hmem := h.stored.mem r hr
      exact ⟨hmem.2.le, .inr ⟨r, hmem.1, rfl⟩, h.stored.closed r hr⟩
  · exact hzero

/-- A batch on its way: it follows what its connection delivered before. -/
theorem Sound.next (h : Sound s) (hl : s.links[k]? = some l) {batch : List MetricSample}
    (hbatch : l.sent[l.delivered]? = some batch) :
    ∃ start a b, 0 ≤ start ∧ start ≤ a ∧ Covered MetricStore.Row.ts 0 s.loc.rows s.stored start ∧
      Chain MetricStore.Row.ts s.loc.rows start ((l.sent.take l.delivered).map (List.map rowOf)) a ∧
      batch ≠ [] ∧ (batch.map rowOf).Perm (segment MetricStore.Row.ts s.loc.rows a b) := by
  obtain ⟨start, hpos, -, hcovered, hchain⟩ := (h.links k l hl).shipped
  obtain ⟨hlt, hget⟩ := List.getElem?_eq_some_iff.mp hbatch
  have hsplit : l.rows = (l.sent.take l.delivered).map (List.map rowOf) ++
      batch.map rowOf :: (l.sent.drop (l.delivered + 1)).map (List.map rowOf) := by
    rw [Link.rows, ← List.map_cons, ← List.map_append, ← hget, ← List.drop_eq_getElem_cons hlt,
      List.take_append_drop]
  rw [hsplit, chain_append] at hchain
  obtain ⟨a, hbefore, b, hab, ⟨r, hr, hts⟩, hperm, -⟩ := hchain
  refine ⟨start, a, b, hpos, hbefore.le, hcovered, hbefore, ?_, hperm⟩
  rintro rfl
  have hmem : r ∈ segment MetricStore.Row.ts s.loc.rows a b := mem_segment.mpr ⟨hr, hts ▸ hab, hts.le⟩
  rw [← hperm.mem_iff] at hmem
  cases hmem

/-- A delivered batch, stored as far as it goes, extends the prefix. -/
theorem Sound.deliver {o : Opening} {appended : Nat} (h : Sound s) (hl : s.links[k]? = some l)
    {batch : List MetricSample} (hbatch : l.sent[l.delivered]? = some batch)
    (hrule : Unbroken s (.deliver k o appended)) :
    Prefix MetricStore.Row.ts 0 s.loc.rows
      ((s.data.storeBatch s.agent batch o appended).metricRows s.agent) := by
  rw [DataDir.storeBatch_rows]
  by_cases hstores : s.data.opensMetrics s.agent o = true ∧ 0 < appended
  · obtain ⟨start, a, b, hpos, hle, hcovered, hchain, -, hperm⟩ := h.next hl hbatch
    rw [if_pos hstores.1]
    refine h.stored.extend (hpos.trans hle) (hcovered.chain hchain ?_) ?_ ?_
    · intro rows hrows q hq
      obtain ⟨earlier, hearlier, rfl⟩ := List.mem_map.mp hrows
      obtain ⟨sm, hsm, rfl⟩ := List.mem_map.mp hq
      exact hrule hstores.1 hstores.2 l hl earlier hearlier sm hsm
    · intro q hq
      obtain ⟨hloc, hlt, -⟩ := mem_segment.mp (hperm.mem_iff.mp (ingested_sub hq))
      exact ⟨hloc, hlt⟩
    · intro r hr q hq haq hqr
      obtain ⟨-, -, hrb⟩ := mem_segment.mp (hperm.mem_iff.mp (ingested_sub hr))
      refine ingested_oldest hr (hperm.mem_iff.mpr (mem_segment.mpr ⟨hq, haq, hqr.trans hrb⟩)) hqr
  · -- nothing is stored
    have hnone : (if s.data.opensMetrics s.agent o = true then ingested batch appended else []) = [] := by
      split
      · next hopens =>
        obtain rfl : appended = 0 := by
          by_contra hne
          exact hstores ⟨hopens, Nat.pos_of_ne_zero hne⟩
        rfl
      · rfl
    rw [hnone, List.append_nil]
    exact h.stored

theorem sound_step {a : ShipAct} (h : Sound s) (hrule : Unbroken s a) (hstep : s.step a = some t) : Sound t := by
  cases a with
  | append tsMs samples =>
    obtain ⟨new, rfl, hnew, -, -⟩ := Shipping.step_append hstep
    exact ⟨h.stored.grow hnew, fun k l hl => (h.links k l hl).grow hnew⟩
  | connect =>
    obtain rfl := Option.some.inj hstep
    refine ⟨h.stored, fun k l hl => ?_⟩
    rcases Growing.old_or_new hl with hold | ⟨-, rfl⟩
    · exact h.links k l hold
    · exact ⟨fun v hv => (by cases hv), fun _ => rfl, 0, le_rfl, .inl rfl,
        fun q _ hpos hle => absurd hpos (by omega), rfl⟩
  | hello k o reads =>
    obtain ⟨l, hl, -, -, rfl⟩ := Shipping.step_hello hstep
    have hrows := (s.data.lastMetricTs_spec s.agent o reads).1
    have hmoved : Sound { s with data := (s.data.lastMetricTs s.agent o reads).1 } := by
      have hstored : Shipping.stored { s with data := (s.data.lastMetricTs s.agent o reads).1 } = s.stored := hrows
      exact ⟨hstored ▸ h.stored, fun j x hj => hstored ▸ h.links j x hj⟩
    refine hmoved.set hl ?_
    have hold := hmoved.links k l hl
    refine ⟨fun v hv => ?_, hold.idle, hold.shipped⟩
    obtain rfl := Option.some.inj hv
    have hw := h.watermark o reads
    rwa [Shipping.stored, ← hrows] at hw
  | first displaced =>
    obtain ⟨k, l, v, -, hl, hnone, hv, rfl⟩ := Shipping.step_first hstep
    have hold := h.links k l hl
    refine h.set hl ⟨hold.ack, fun hw => (by cases hw), ?_⟩
    have hempty : l.rows = [] := by rw [Link.rows, hold.idle hnone, List.map_nil]
    rcases hv with ⟨-, rfl⟩ | ⟨-, hack⟩
    · refine ⟨0, le_rfl, .inl rfl, fun q _ hpos hle => absurd hpos (by omega), ?_⟩
      show Chain _ _ 0 l.rows 0
      rw [hempty]
      rfl
    · obtain ⟨hpos, hmark, hcovered⟩ := hold.ack v hack
      refine ⟨v, hpos, hmark, hcovered, ?_⟩
      show Chain _ _ v l.rows v
      rw [hempty]
      rfl
  | tick out sent =>
    rcases Shipping.step_tick hstep (fun k l w hl hw => (h.links k l hl).nonneg hw) with
      (rfl | rfl) | ⟨k, l, w, w', batch, hl, hw, -, hlt, hmark, hperm, rfl⟩
    · exact ⟨h.stored, h.links⟩
    · exact h
    · have hold := h.links k l hl
      obtain ⟨start, hpos, hstart, hcovered, hchain⟩ := hold.shipped
      refine h.set hl ⟨hold.ack, fun hnone => (by cases hnone), start, hpos, hstart, hcovered, ?_⟩
      rw [hw] at hchain
      show Chain _ _ start (Link.rows { l with watermark := some w', sent := l.sent ++ [batch] }) w'
      rw [Link.rows, List.map_append, chain_append]
      exact ⟨w, hchain, w', hlt, hmark, hperm, rfl⟩
  | deliver k o appended =>
    obtain ⟨l, batch, hl, hbatch, -, -, rfl⟩ := Shipping.step_deliver hstep
    have hmoved : Sound { s with data := s.data.storeBatch s.agent batch o appended } := by
      refine ⟨h.deliver hl hbatch hrule, fun j x hj => (h.links j x hj).mono fun q hq => ?_⟩
      rw [Shipping.stored, DataDir.storeBatch_rows]
      exact List.mem_append_left _ hq
    have hold := hmoved.links k l hl
    exact hmoved.set hl ⟨hold.ack, hold.idle, hold.shipped⟩
  | lose k =>
    obtain ⟨l, hl, rfl⟩ := Shipping.step_lose hstep
    have hold := h.links k l hl
    exact h.set hl ⟨hold.ack, hold.idle, hold.shipped⟩
  | disconnect =>
    obtain rfl := Option.some.inj hstep
    exact ⟨h.stored, h.links⟩

/-- A batch stored on top of a missing one leaves a gap. -/
theorem gap_breaks {a : ShipAct} (h : Sound s) (hrule : ¬ Unbroken s a) (hstep : s.step a = some t) :
    ¬ PrefixesOnly t := by
  cases a with
  | deliver k o appended =>
    obtain ⟨l, batch, hl, hbatch, -, -, rfl⟩ := Shipping.step_deliver hstep
    simp only [Unbroken, not_forall] at hrule
    obtain ⟨hopens, happended, l', hl', earlier, hearlier, sm, hsm, hmissing⟩ := hrule
    obtain rfl := Option.some.inj (hl.symm.trans hl')
    obtain ⟨start, a, b, -, -, -, hchain, hne, hperm⟩ := h.next hl hbatch
    obtain ⟨r, hr⟩ := List.exists_mem_of_ne_nil _ (ingested_ne_nil hne happended)
    have hnewer : ∀ q ∈ ingested batch appended, a < q.ts := fun q hq =>
      (mem_segment.mp (hperm.mem_iff.mp (ingested_sub hq))).2.1
    have hsent : sm.tsMs ≤ a := (hchain.mem_iff.mp
      ⟨earlier.map rowOf, List.mem_map_of_mem hearlier, List.mem_map_of_mem hsm⟩).2.2
    have hrows : Shipping.stored ({ s with data := s.data.storeBatch s.agent batch o appended }.setLink k
        { l with delivered := l.delivered + 1 }) = s.stored ++ ingested batch appended := by
      rw [Shipping.setLink_stored, Shipping.stored, DataDir.storeBatch_rows, if_pos hopens]
      rfl
    have hlink := Shipping.getElem?_setLink (s := { s with data := s.data.storeBatch s.agent batch o appended })
      hl { l with delivered := l.delivered + 1 } k
    rw [if_pos rfl] at hlink
    intro hbefore
    have hnow := hbefore r (by rw [hrows]; exact List.mem_append_right _ hr) _ (List.mem_of_getElem? hlink)
      earlier (List.mem_of_mem_take hearlier) sm hsm (hsent.trans (hnewer r hr).le)
    rw [hrows] at hnow
    rcases List.mem_append.mp hnow with hold | hnew
    · exact hmissing hold
    · exact absurd (hnewer _ hnew) (not_lt.mpr hsent)
  | _ => exact absurd trivial hrule

/-! ### Along a run -/

/-- **Prefixes only.** In every state of a run the stored rows are a prefix of the rows
sent if and only if every batch stored in the run, even in part, came on a connection
whose earlier batches were all stored by then. -/
theorem prefixes_only_iff {s₀ : Shipping} {as : List ShipAct} (h₀ : shippingSystem.init s₀)
    (hrun : shippingSystem.run s₀ as = some s) :
    (∀ before after u, as = before ++ after → shippingSystem.run s₀ before = some u → PrefixesOnly u) ↔
      shippingSystem.Along Unbroken s₀ as := by
  obtain ⟨hloc, hstored, hlinks, -⟩ := h₀
  have hinit : Sound s₀ := by
    refine ⟨⟨fun r hr => ?_, fun r hr => ?_⟩, fun k l hl => by simp [hlinks] at hl⟩ <;>
      simp [hstored] at hr
  exact shippingSystem.along_iff (fun s h => Sound.prefixesOnly h)
    (fun s a t hC h hstep => sound_step h hC hstep) (fun s a t hC h hstep => gap_breaks h hC hstep) hinit hrun

end

/-- One row is sampled and shipped, then another; of the first batch `appended` groups are stored. -/
def twoTicks (appended : Nat) : List ShipAct :=
  [.connect, .hello 0 .ok true, .first false, .append 1 [⟨"web#0", 0, 0⟩], .tick [⟨1, "web#0", 0, 0⟩] true,
    .append 2 [⟨"web#0", 0, 0⟩], .tick [⟨2, "web#0", 0, 0⟩] true, .deliver 0 .ok appended, .deliver 0 .ok 1]

theorem prefixes_only_twoTicks :
    ∃ s, shippingSystem.run { agent := "db" } (twoTicks 1) = some s ∧ PrefixesOnly s := by
  have hinit : shippingSystem.init { agent := "db" } := ⟨rfl, rfl, rfl, rfl⟩
  have hends : (shippingSystem.run { agent := "db" } (twoTicks 1)).isSome := by decide +kernel
  have hrule : shippingSystem.Along Unbroken { agent := "db" } (twoTicks 1) := by decide +kernel
  obtain ⟨s, hs⟩ := Option.isSome_iff_exists.mp hends
  exact ⟨s, hs, (prefixes_only_iff hinit hs).mpr hrule (twoTicks 1) [] s (by simp) hs⟩

/-- The first `Append` fails and the second succeeds: the older row is sent and not stored,
and the next `Hello` is answered by a watermark past it. -/
theorem failed_append_leaves_gap :
    ∃ s, shippingSystem.run { agent := "db" } (twoTicks 0) = some s ∧ s.stored.map MetricStore.Row.ts = [2] ∧
      (s.data.lastMetricTs "db" .ok true).2 = 2 ∧ ¬ PrefixesOnly s := by
  have hends : (shippingSystem.run { agent := "db" } (twoTicks 0)).map (fun s =>
      (s.stored.map MetricStore.Row.ts, (s.data.lastMetricTs "db" .ok true).2, decide (PrefixesOnly s))) =
        some ([2], 2, false) := by decide +kernel
  obtain ⟨s, hs, hshape⟩ := Option.map_eq_some_iff.mp hends
  simp only [Prod.mk.injEq, decide_eq_false_iff_not] at hshape
  exact ⟨s, hs, hshape.1, hshape.2.1, hshape.2.2⟩

end Marshal.Fleet
