import Marshal.Fleet.LogShipping

/-! Every line once, up to the lines that come too late for the watermark.

Each line past the start is sent, found by the running tick, unread or late, once
(`Accounted`); a ring's unread lines are its newest (`RingKept`); the server has what
it was sent. After a further tick nothing emitted before it is unread. -/
namespace Marshal.Fleet
open Proto Server Logs

/-- No ring evicts an unread line, and the server's store opens and appends. -/
def Kept (s : LogShipping) : LogAct → Prop
  | .emit label _ => (ofSink label s.unread).length < ringCap
  | .deliver o appends => o = .ok ∧ appends = true
  | _ => True

instance (s : LogShipping) : (a : LogAct) → Decidable (Kept s a)
  | .emit label _ => inferInstanceAs (Decidable ((ofSink label s.unread).length < ringCap))
  | .deliver o appends => inferInstanceAs (Decidable (o = .ok ∧ appends = true))
  | .begin _ | .read | .finish => isTrue trivial

/-- The line as it is stored. -/
def storedOf (l : LogShipLine) : LogStore.Line := ⟨l.tsMs, l.label, l.stderr, l.text⟩

/-- From `s₀` to `s` the server's lines grew by every line emitted past the start, once
each, except for `late` and for some emitted after `u`. -/
def ShippedOnce (s₀ u s : LogShipping) (late : List LogShipLine) : Prop :=
  ∃ new rest : List LogShipLine, s.stored = s₀.stored ++ new.map storedOf ∧
    (new ++ late ++ rest).Perm (past s.start s.emitted) ∧
    rest.Sublist (past s.start (s.emitted.drop u.emitted.length))

section
variable {s t : LogShipping} {a b : Int} {label : String} {ls ks : List LogShipLine} {lines : List Line}

/-! ### Lines past a timestamp -/

@[simp] theorem past_append : past a (ls ++ ks) = past a ls ++ past a ks := List.filter_append ..

@[simp] theorem ofSink_append : ofSink label (ls ++ ks) = ofSink label ls ++ ofSink label ks :=
  List.filter_append ..

theorem past_past (h : a ≤ b) : past b (past a ls) = past b ls := by
  rw [past, past, List.filter_filter]
  refine List.filter_congr fun l _ => ?_
  rw [← Bool.decide_and, decide_eq_decide]
  exact ⟨fun hl => hl.1, fun hl => ⟨hl, h.trans_lt hl⟩⟩

theorem past_eq_nil (h : ∀ l ∈ ls, l.tsMs ≤ a) : past a ls = [] :=
  List.filter_eq_nil_iff.mpr fun l hl => by simpa using h l hl

theorem map_newer : (newer a label lines).map shipLine = past a (lines.map (lineOf label)) := by
  rw [newer, List.map_map, past, List.filter_map]
  rfl

theorem lineOf_mono {x y : Line} (h : x.ts ≤ y.ts) : (lineOf label x).tsMs ≤ (lineOf label y).tsMs :=
  Int.ediv_le_ediv (by decide) h

/-! ### The invariant -/

/-- A ring is in clock order, and holds past the start what ticks have read and then what
they have not. -/
structure RingKept (s : LogShipping) (label : String) : Prop where
  sorted : ((s.reg.sinkFor label).backfill 0).Pairwise fun x y => x.ts ≤ y.ts
  recent : ∀ ln ∈ (s.reg.sinkFor label).backfill 0, ln.ts ≤ s.clock
  kept : ∃ old, past s.start (((s.reg.sinkFor label).backfill 0).map (lineOf label)) =
    old ++ ofSink label s.unread ∧ ∀ l ∈ old, l.tsMs ≤ s.logWM ∨ label ∉ s.pending ∧ l ∈ s.collected

structure Accounted (s : LogShipping) : Prop where
  every : (s.sent.flatten ++ s.collected ++ s.unread ++ s.late).Perm (past s.start s.emitted)
  rings : ∀ label, RingKept s label
  once : s.pending.Nodup
  moved : s.start ≤ s.logWM

/-- The server has, past `base`, the batches it has received. -/
structure Served (base : List LogStore.Line) (s : LogShipping) : Prop where
  received : s.delivered ≤ s.sent.length
  holds : ∃ new : List LogShipLine, s.stored = base ++ new.map storedOf ∧ new.Perm (s.sent.take s.delivered).flatten

/-! ### Emitting -/

theorem backfill_emit (r : Logs.Registry) (ln : Line) :
    ((r.emit label ln).sinkFor label).backfill 0 = (r.sinkFor label).backfill 0 ++ [ln] ∨
      ((r.sinkFor label).backfill 0).length = ringCap ∧
        ((r.emit label ln).sinkFor label).backfill 0 = ((r.sinkFor label).backfill 0).tail ++ [ln] := by
  rw [Logs.Registry.sinkFor_emit, if_pos rfl]
  simpa [Sink.backfill, Sink.emit] using (r.sinkFor label).snapshot_add ln

/-- The oldest line of a full ring is not unread. -/
theorem RingKept.tail {x : Line} {rest : List Line} (h : RingKept s label)
    (hring : (s.reg.sinkFor label).backfill 0 = x :: rest) (hfull : (x :: rest).length = ringCap)
    (hunread : (ofSink label s.unread).length < ringCap) :
    ∃ old, past s.start (rest.map (lineOf label)) = old ++ ofSink label s.unread ∧
      ∀ l ∈ old, l.tsMs ≤ s.logWM ∨ label ∉ s.pending ∧ l ∈ s.collected := by
  obtain ⟨old, hold, hread⟩ := h.kept
  have hsorted := h.sorted
  rw [hring] at hold hsorted
  by_cases hx : s.start < (lineOf label x).tsMs
  · -- every line of the ring is past the start, so one of them was read
    have hall : past s.start ((x :: rest).map (lineOf label)) = (x :: rest).map (lineOf label) := by
      refine List.filter_eq_self.mpr fun l hl => ?_
      obtain ⟨y, hy, rfl⟩ := List.mem_map.mp hl
      rcases List.mem_cons.mp hy with rfl | hy
      · simpa using hx
      · simpa using hx.trans_le (lineOf_mono ((List.pairwise_cons.mp hsorted).1 y hy))
    cases old with
    | nil =>
      rw [hall, List.nil_append] at hold
      have hlength := congrArg List.length hold
      rw [List.length_map, hfull] at hlength
      omega
    | cons l old =>
      rw [List.map_cons, past, List.filter_cons_of_pos (by simpa using hx), List.cons_append,
        List.cons.injEq] at hold
      exact ⟨old, hold.2, fun l hl => hread l (List.mem_cons_of_mem _ hl)⟩
  · rw [List.map_cons, past, List.filter_cons_of_neg (by simpa using hx)] at hold
    exact ⟨old, hold, hread⟩

theorem RingKept.emit {ln : Line} (h : RingKept s label) (hclock : s.clock ≤ ln.ts)
    (hunread : (ofSink label s.unread).length < ringCap) : RingKept (s.emitLine label ln) label := by
  -- the ring keeps some of its lines, in order, and everything read and unread past the start
  obtain ⟨lines, hlines, hsub, old, hold, hread⟩ : ∃ lines,
      ((s.emitLine label ln).reg.sinkFor label).backfill 0 = lines ++ [ln] ∧
        lines.Sublist ((s.reg.sinkFor label).backfill 0) ∧
        ∃ old, past s.start (lines.map (lineOf label)) = old ++ ofSink label s.unread ∧
          ∀ l ∈ old, l.tsMs ≤ s.logWM ∨ label ∉ s.pending ∧ l ∈ s.collected := by
    rcases backfill_emit s.reg ln with hgrow | ⟨hfull, hevict⟩
    · exact ⟨_, hgrow, List.Sublist.refl _, h.kept⟩
    · rcases hring : (s.reg.sinkFor label).backfill 0 with _ | ⟨x, rest⟩
      · rw [hring] at hfull
        cases hfull
      · rw [hring] at hfull hevict
        exact ⟨rest, hevict, List.sublist_cons_self .., h.tail hring hfull hunread⟩
  have hlate : ∀ x ∈ lines, x.ts ≤ ln.ts := fun x hx => (h.recent x (hsub.subset hx)).trans hclock
  constructor
  case sorted =>
    rw [hlines]
    refine List.pairwise_append.mpr ⟨h.sorted.sublist hsub, List.pairwise_singleton .., fun x hx y hy => ?_⟩
    exact List.mem_singleton.mp hy ▸ hlate x hx
  case recent =>
    rw [hlines]
    intro x hx
    rcases List.mem_append.mp hx with hx | hx
    · exact hlate x hx
    · exact (congrArg Line.ts (List.mem_singleton.mp hx)).le
  case kept =>
    refine ⟨old, ?_, hread⟩
    have hown : ofSink label (past s.start [lineOf label ln]) = past s.start [lineOf label ln] := by
      refine List.filter_eq_self.mpr fun l hl => ?_
      rw [List.mem_singleton.mp (List.mem_of_mem_filter hl)]
      exact decide_eq_true rfl
    show past s.start (((s.emitLine label ln).reg.sinkFor label).backfill 0 |>.map (lineOf label)) =
      old ++ ofSink label (s.unread ++ past s.start [lineOf label ln])
    rw [hlines, List.map_append, past_append, hold, ofSink_append, hown, List.append_assoc]
    rfl

/-- The other rings are as they were. -/
theorem RingKept.emit_other {label' : String} {ln : Line} (h : RingKept s label') (hne : label' ≠ label)
    (hclock : s.clock ≤ ln.ts) : RingKept (s.emitLine label ln) label' := by
  have hsink : (s.reg.emit label ln).sinkFor label' = s.reg.sinkFor label' := by
    rw [Logs.Registry.sinkFor_emit, if_neg hne]
  have hnone : ofSink label' (past s.start [lineOf label ln]) = [] := by
    refine List.filter_eq_nil_iff.mpr fun l hl => ?_
    rw [List.mem_singleton.mp (List.mem_of_mem_filter hl)]
    exact decide_eq_true_iff.not.mpr hne.symm
  obtain ⟨old, hold, hread⟩ := h.kept
  constructor
  case sorted => exact hsink ▸ h.sorted
  case recent => exact fun x hx => (h.recent x (hsink ▸ hx)).trans hclock
  case kept =>
    refine ⟨old, ?_, hread⟩
    show _ = old ++ ofSink label' (s.unread ++ past s.start [lineOf label ln])
    rw [ofSink_append, hnone, List.append_nil, ← hold]
    exact congrArg (fun sink => past s.start ((Sink.backfill sink 0).map (lineOf label'))) hsink

/-! ### Reading -/

/-- What a tick finds in a ring it has yet to read: the unread lines past the watermark. -/
theorem Accounted.found (h : Accounted s) (hlabel : label ∈ s.pending) :
    (newer s.logWM label ((s.reg.sinkFor label).backfill 0)).map shipLine =
      past s.logWM (ofSink label s.unread) := by
  obtain ⟨old, hold, hread⟩ := (h.rings label).kept
  have hnone : past s.logWM old = [] :=
    past_eq_nil fun l hl => (hread l hl).resolve_right fun hnot => hnot.1 hlabel
  rw [map_newer, ← past_past h.moved, hold, past_append, hnone, List.nil_append]

/-- What was found before is kept, and a read line past the watermark is found. -/
theorem Accounted.collected_readRing {rest : List String} {out : List LabeledLine} (h : Accounted s)
    (hreading : s.reading = some ⟨label :: rest, out⟩) :
    (s.readRing label rest out).collected = s.collected ++ past s.logWM (ofSink label s.unread) := by
  have hlabel : label ∈ s.pending := by
    rw [LogShipping.pending, hreading]
    exact List.mem_cons_self ..
  have hcollected : s.collected = out.map shipLine := by rw [LogShipping.collected, hreading]
  rw [hcollected, ← h.found hlabel, ← List.map_append]
  rfl

theorem Accounted.readRing_every {rest : List String} {out : List LabeledLine} (h : Accounted s)
    (hreading : s.reading = some ⟨label :: rest, out⟩) :
    (s.sent.flatten ++ (s.readRing label rest out).collected ++ (s.readRing label rest out).unread ++
      (s.readRing label rest out).late).Perm (past s.start s.emitted) := by
  rw [h.collected_readRing hreading]
  refine .trans ?_ h.every
  -- the unread lines are those of the ring and the others; the first are past the watermark or late
  have hsinks := List.filter_append_perm (fun l : LogShipLine => decide (l.label = label)) s.unread
  have htimes := List.filter_append_perm (fun l : LogShipLine => decide (s.logWM < l.tsMs)) (ofSink label s.unread)
  rw [List.perm_iff_count] at hsinks htimes ⊢
  intro l
  have hl := hsinks l
  have hl' := htimes l
  simp only [LogShipping.readRing, List.count_append, ofSink, past] at hl hl' ⊢
  omega

/-- The ring that is read has no unread line left. -/
theorem Accounted.readRing_own {rest : List String} {out : List LabeledLine} (h : Accounted s)
    (hreading : s.reading = some ⟨label :: rest, out⟩) : RingKept (s.readRing label rest out) label := by
  have hpending : s.pending = label :: rest := by rw [LogShipping.pending, hreading]
  obtain ⟨hlabel, -⟩ := List.nodup_cons.mp (hpending ▸ h.once)
  obtain ⟨old, hold, hread⟩ := (h.rings label).kept
  refine ⟨(h.rings label).sorted, (h.rings label).recent, old ++ ofSink label s.unread, ?_, fun l hl => ?_⟩
  · have hnone : ofSink label (s.readRing label rest out).unread = [] := by
      simp [ofSink, LogShipping.readRing, List.filter_filter]
    rw [hnone, List.append_nil]
    exact hold
  · rcases List.mem_append.mp hl with hl | hl
    · refine .inl ((hread l hl).resolve_right fun hnot => hnot.1 ?_)
      rw [hpending]
      exact List.mem_cons_self ..
    · rcases le_or_gt l.tsMs s.logWM with hle | hgt
      · exact .inl hle
      · refine .inr ⟨hlabel, ?_⟩
        rw [h.collected_readRing hreading]
        exact List.mem_append_right _ (List.mem_filter.mpr ⟨hl, decide_eq_true hgt⟩)

theorem Accounted.readRing_other {label' : String} {rest : List String} {out : List LabeledLine} (h : Accounted s)
    (hreading : s.reading = some ⟨label :: rest, out⟩) (hne : label' ≠ label) :
    RingKept (s.readRing label rest out) label' := by
  have hpending : s.pending = label :: rest := by rw [LogShipping.pending, hreading]
  obtain ⟨old, hold, hread⟩ := (h.rings label').kept
  refine ⟨(h.rings label').sorted, (h.rings label').recent, old, ?_, fun l hl => ?_⟩
  · have hsame : ofSink label' (s.readRing label rest out).unread = ofSink label' s.unread := by
      rw [ofSink, ofSink, LogShipping.readRing, List.filter_filter]
      refine List.filter_congr fun l _ => ?_
      by_cases hl : l.label = label' <;> simp [hl, hne]
    rw [hsame]
    exact hold
  · have hfewer : label' ∈ rest → label' ∈ s.pending := by
      intro hrest
      rw [hpending]
      exact List.mem_cons_of_mem _ hrest
    refine (hread l hl).imp_right fun hfound => ⟨fun hrest => hfound.1 (hfewer hrest), ?_⟩
    rw [h.collected_readRing hreading]
    exact List.mem_append_left _ hfound.2

/-! ### A step -/

theorem accounted_step {act : LogAct} (h : Accounted s) (hrule : Kept s act) (hstep : s.step act = some t) :
    Accounted t := by
  cases act with
  | emit label ln =>
    obtain ⟨hclock, rfl⟩ := LogShipping.step_emit hstep
    refine ⟨?_, fun label' => ?_, h.once, h.moved⟩
    · show (s.sent.flatten ++ s.collected ++ (s.unread ++ past s.start [lineOf label ln]) ++ s.late).Perm
        (past s.start (s.emitted ++ [lineOf label ln]))
      have hevery := h.every
      rw [List.perm_iff_count] at hevery ⊢
      intro l
      have hl := hevery l
      simp only [past_append, List.count_append] at hl ⊢
      omega
    · by_cases hlabel : label' = label
      · subst hlabel
        exact (h.rings label').emit hclock hrule
      · exact (h.rings label').emit_other hlabel hclock
  | begin order =>
    obtain ⟨hnone, hperm, rfl⟩ := LogShipping.step_begin hstep
    have hcollected : s.collected = [] := by rw [LogShipping.collected, hnone]
    refine ⟨?_, fun label => ?_, hperm.nodup_iff.mpr s.reg.sinks.keys_nodup, h.moved⟩
    · have hevery := h.every
      rw [hcollected] at hevery
      exact hevery
    · obtain ⟨old, hold, hread⟩ := (h.rings label).kept
      refine ⟨(h.rings label).sorted, (h.rings label).recent, old, hold, fun l hl => .inl ?_⟩
      refine (hread l hl).resolve_right fun hnot => ?_
      rw [hcollected] at hnot
      exact absurd hnot.2 List.not_mem_nil
  | read =>
    obtain ⟨label, rest, out, hreading, rfl⟩ := LogShipping.step_read hstep
    have hpending : s.pending = label :: rest := by rw [LogShipping.pending, hreading]
    refine ⟨h.readRing_every hreading, fun label' => ?_, (List.nodup_cons.mp (hpending ▸ h.once)).2, h.moved⟩
    by_cases hlabel : label' = label
    · subst hlabel
      exact h.readRing_own hreading
    · exact h.readRing_other hreading hlabel
  | finish =>
    obtain ⟨out, batches, w, hreading, hflat, hw, hle, rfl⟩ := LogShipping.step_finish hstep
    have hcollected : s.collected = out.map shipLine := by rw [LogShipping.collected, hreading]
    refine ⟨?_, fun label => ?_, List.nodup_nil, h.moved.trans hw⟩
    · show ((s.sent ++ batches).flatten ++ [] ++ s.unread ++ s.late).Perm _
      refine .trans ?_ h.every
      rw [List.append_nil, List.flatten_append, hcollected]
      exact ((hflat.append_left _).append_right _).append_right _
    · obtain ⟨old, hold, hread⟩ := (h.rings label).kept
      refine ⟨(h.rings label).sorted, (h.rings label).recent, old, hold, fun l hl => .inl ?_⟩
      rcases hread l hl with hwm | ⟨-, hmem⟩
      · exact hwm.trans hw
      · exact hle l (hcollected ▸ hmem)
  | deliver o appends =>
    obtain ⟨batch, -, rfl⟩ := LogShipping.step_deliver hstep
    exact ⟨h.every, fun label => ⟨(h.rings label).sorted, (h.rings label).recent, (h.rings label).kept⟩,
      h.once, h.moved⟩

theorem served_step {base : List LogStore.Line} {act : LogAct} (h : Served base s) (hrule : Kept s act)
    (hstep : s.step act = some t) : Served base t := by
  cases act with
  | emit label ln =>
    obtain ⟨-, rfl⟩ := LogShipping.step_emit hstep
    exact ⟨h.received, h.holds⟩
  | begin order =>
    obtain ⟨-, -, rfl⟩ := LogShipping.step_begin hstep
    exact ⟨h.received, h.holds⟩
  | read =>
    obtain ⟨label, rest, out, -, rfl⟩ := LogShipping.step_read hstep
    exact ⟨h.received, h.holds⟩
  | finish =>
    obtain ⟨out, batches, w, -, -, -, -, rfl⟩ := LogShipping.step_finish hstep
    refine ⟨?_, ?_⟩
    · rw [List.length_append]
      exact h.received.trans (Nat.le_add_right ..)
    · show ∃ new : List LogShipLine, s.stored = _ ∧ new.Perm ((s.sent ++ batches).take s.delivered).flatten
      rw [List.take_append_of_le_length h.received]
      exact h.holds
  | deliver o appends =>
    obtain ⟨batch, hbatch, rfl⟩ := LogShipping.step_deliver hstep
    obtain ⟨rfl, rfl⟩ := hrule
    obtain ⟨hlt, hget⟩ := List.getElem?_eq_some_iff.mp hbatch
    obtain ⟨new, hstored, hperm⟩ := h.holds
    let sorted := batch.mergeSort fun x y => decide (x.tsMs ≤ y.tsMs)
    have hsorted : sortLines batch = sorted.map storedOf :=
      (List.map_mergeSort (f := storedOf) fun x _ y _ => rfl).symm
    refine ⟨hlt, new ++ sorted, ?_, ?_⟩
    · show (s.data.storeLogBatch s.agent batch .ok true).logLines s.agent = _
      rw [DataDir.storeLogBatch_lines, hsorted, List.map_append, ← List.append_assoc, ← hstored]
      rfl
    · show (new ++ sorted).Perm (s.sent.take (s.delivered + 1)).flatten
      rw [List.take_succ_eq_append_getElem hlt, hget, List.flatten_append, List.flatten_singleton]
      exact hperm.append (List.mergeSort_perm batch _)

/-! ### A further tick -/

/-- Since some moment with `n` lines emitted, the rings a tick has read got what is unread. -/
def ReadSince (n : Nat) (s : LogShipping) : Prop :=
  n ≤ s.emitted.length ∧
    (s.unread.filter fun l => !decide (l.label ∈ s.pending)).Sublist (past s.start (s.emitted.drop n))

/-- An unread line's sink is in the map. -/
theorem Accounted.known (h : Accounted s) {l : LogShipLine} (hl : l ∈ s.unread) : l.label ∈ s.reg.sinks.keys := by
  by_contra hnot
  obtain ⟨old, hold, -⟩ := (h.rings l.label).kept
  rw [Logs.Registry.sinkFor_of_notMem _ hnot] at hold
  have hnil := (List.append_eq_nil_iff.mp hold.symm).2
  exact absurd (List.mem_filter.mpr ⟨hl, decide_eq_true rfl⟩) (List.eq_nil_iff_forall_not_mem.mp hnil l)

/-- When a tick starts, every sink with unread lines is still to be read. -/
theorem Accounted.begin {order : List String} (h : Accounted s) (hperm : order.Perm s.reg.sinks.keys) {n : Nat}
    (hn : n ≤ s.emitted.length) : ReadSince n { s with reading := some { pending := order } } := by
  refine ⟨hn, ?_⟩
  have hnone : (s.unread.filter fun l => !decide (l.label ∈ order)) = [] := by
    refine List.filter_eq_nil_iff.mpr fun l hl => ?_
    simpa using hperm.mem_iff.mpr (h.known hl)
  show (s.unread.filter fun l => !decide (l.label ∈ order)).Sublist _
  rw [hnone]
  exact List.nil_sublist _

theorem readSince_step {n : Nat} {act : LogAct} (hacc : Accounted s) (h : ReadSince n s)
    (hstep : s.step act = some t) : ReadSince n t := by
  obtain ⟨hn, hsub⟩ := h
  cases act with
  | emit label ln =>
    obtain ⟨-, rfl⟩ := LogShipping.step_emit hstep
    refine ⟨hn.trans (by simp [LogShipping.emitLine]), ?_⟩
    show ((s.unread ++ past s.start [lineOf label ln]).filter fun l => !decide (l.label ∈ s.pending)).Sublist
      (past s.start ((s.emitted ++ [lineOf label ln]).drop n))
    rw [List.drop_append_of_le_length hn, List.filter_append, past_append]
    exact hsub.append List.filter_sublist
  | begin order =>
    obtain ⟨-, hperm, rfl⟩ := LogShipping.step_begin hstep
    exact hacc.begin hperm hn
  | read =>
    obtain ⟨label, rest, out, hreading, rfl⟩ := LogShipping.step_read hstep
    have hpending : s.pending = label :: rest := by rw [LogShipping.pending, hreading]
    have hsame : ((s.readRing label rest out).unread.filter fun l => !decide (l.label ∈ rest)) =
        s.unread.filter fun l => !decide (l.label ∈ s.pending) := by
      rw [LogShipping.readRing, List.filter_filter, hpending]
      refine List.filter_congr fun l _ => ?_
      by_cases hl : l.label = label <;> simp [hl]
    refine ⟨hn, ?_⟩
    show ((s.readRing label rest out).unread.filter fun l => !decide (l.label ∈ rest)).Sublist _
    rw [hsame]
    exact hsub
  | finish =>
    obtain ⟨out, batches, w, hreading, -, -, -, rfl⟩ := LogShipping.step_finish hstep
    have hpending : s.pending = [] := by rw [LogShipping.pending, hreading]
    refine ⟨hn, ?_⟩
    rw [hpending] at hsub
    exact hsub
  | deliver o appends =>
    obtain ⟨batch, -, rfl⟩ := LogShipping.step_deliver hstep
    exact ⟨hn, hsub⟩

/-! ### Along a run -/

/-- **Log delivery.** In every interleaving of emissions, ring reads and deliveries in which
no ring evicts an unread line and every append succeeds, after a further tick the server has
every line emitted before it and past the starting watermark once, except those that were
not past the newest line sent when their ring was first read. -/
theorem shipped_once {s₀ u : LogShipping} {as bs : List LogAct} {order : List String} (h₀ : logSystem.init s₀)
    (hbefore : logSystem.run s₀ as = some u) (hafter : logSystem.run u (.begin order :: bs) = some s)
    (hrule : logSystem.Along Kept s₀ (as ++ .begin order :: bs)) (hidle : s.reading = none)
    (hdelivered : s.delivered = s.sent.length) : ShippedOnce s₀ u s s.late := by
  obtain ⟨hsinks, hwm, hnone, hsent, hzero, hemitted, hunread, hlate⟩ := h₀
  have hacc₀ : Accounted s₀ := by
    refine ⟨?_, fun label => ?_, ?_, hwm.ge⟩
    · simp [hsent, hunread, hlate, hemitted, LogShipping.collected, hnone, past]
    · have hnil : (s₀.reg.sinkFor label).backfill 0 = [] :=
        s₀.reg.sinkFor_of_notMem (by rw [hsinks]; exact AList.notMem_empty _)
      refine ⟨by simp [hnil], by simp [hnil], [], ?_, by simp⟩
      simp [hnil, hunread, past, ofSink]
    · simp [LogShipping.pending, hnone]
  have hserved₀ : Served s₀.stored s₀ := ⟨by simp [hzero], [], by simp, by simp [hzero]⟩
  obtain ⟨hruleAs, hruleBs⟩ := (logSystem.along_append hbefore).mp hrule
  obtain ⟨v, hbegin, hbs⟩ := logSystem.run_cons.mp hafter
  have haccU : Accounted u := logSystem.along_invariant (fun _ _ _ hC h hstep => accounted_step h hC hstep)
    hacc₀ hbefore hruleAs
  have hserved : Served s₀.stored s := logSystem.along_invariant (fun _ _ _ hC h hstep => served_step h hC hstep)
    hserved₀ (logSystem.run_append.mpr ⟨u, hbefore, hafter⟩) hrule
  have hsinceV : Accounted v ∧ ReadSince u.emitted.length v := by
    refine ⟨accounted_step haccU hruleBs.1 hbegin, ?_⟩
    obtain ⟨-, hperm, rfl⟩ := LogShipping.step_begin hbegin
    exact haccU.begin hperm le_rfl
  have hruleV : logSystem.Along Kept v bs := by
    have htail := hruleBs.2
    simp only [hbegin] at htail
    exact htail
  obtain ⟨hacc, -, hsub⟩ := logSystem.along_invariant (I := fun s => Accounted s ∧ ReadSince u.emitted.length s)
    (fun _ _ _ hC h hstep => ⟨accounted_step h.1 hC hstep, readSince_step h.1 h.2 hstep⟩) hsinceV hbs hruleV
  obtain ⟨new, hstored, hnew⟩ := hserved.holds
  have hall : s.sent.take s.delivered = s.sent := List.take_of_length_le hdelivered.ge
  have hcollected : s.collected = [] := by rw [LogShipping.collected, hidle]
  have hpending : s.pending = [] := by rw [LogShipping.pending, hidle]
  refine ⟨new, s.unread, hstored, ?_, ?_⟩
  · have hevery := hacc.every
    rw [hcollected, List.append_nil] at hevery
    rw [hall] at hnew
    refine .trans ?_ hevery
    rw [List.append_assoc, List.append_assoc]
    exact hnew.append List.perm_append_comm
  · simpa [hpending] using hsub

end

/-- Two instances; the second's first line arrives while a tick reads the first's ring. -/
def interleavedBefore : List LogAct :=
  [.emit "web#0" ⟨1000000, false, "a"⟩, .begin ["web#0"], .emit "api#0" ⟨2000000, true, "b"⟩, .read, .finish,
    .deliver .ok true]

def interleavedAfter : List LogAct := [.read, .read, .finish, .deliver .ok true]

theorem shipped_once_interleaved : ∃ u s, logSystem.run { agent := "db" } interleavedBefore = some u ∧
    logSystem.run u (.begin ["api#0", "web#0"] :: interleavedAfter) = some s ∧ s.stored.length = 2 ∧ s.late = [] ∧
    ShippedOnce { agent := "db" } u s s.late := by
  have hinit : logSystem.init { agent := "db" } := ⟨rfl, rfl, rfl, rfl, rfl, rfl, rfl, rfl⟩
  have hends : (logSystem.run { agent := "db" } (interleavedBefore ++ .begin ["api#0", "web#0"] :: interleavedAfter)).map
      (fun s => (s.stored.length, s.late, s.reading, s.delivered, s.sent.length)) = some (2, [], none, 2, 2) := by
    decide +kernel
  have hrule : logSystem.Along Kept { agent := "db" }
      (interleavedBefore ++ .begin ["api#0", "web#0"] :: interleavedAfter) := by decide +kernel
  obtain ⟨s, hs, hends⟩ := Option.map_eq_some_iff.mp hends
  obtain ⟨hlength, hlate, hidle, hdelivered, hsent⟩ : s.stored.length = 2 ∧ s.late = [] ∧ s.reading = none ∧
      s.delivered = 2 ∧ s.sent.length = 2 := by simpa using hends
  obtain ⟨u, hu, hafter⟩ := logSystem.run_append.mp hs
  exact ⟨u, s, hu, hafter, hlength, hlate,
    shipped_once hinit hu hafter hrule hidle (hdelivered.trans hsent.symm)⟩

/-- A line emitted in the millisecond of the newest line sent, after the tick that sent it,
is never sent. -/
theorem same_ms_line_dropped : ∃ (as bs : List LogAct) (order : List String) (u s : LogShipping),
    logSystem.init { agent := "db" } ∧ logSystem.run { agent := "db" } as = some u ∧
    logSystem.run u (.begin order :: bs) = some s ∧
    logSystem.Along Kept { agent := "db" } (as ++ .begin order :: bs) ∧ s.reading = none ∧
    s.delivered = s.sent.length ∧ ¬ ShippedOnce { agent := "db" } u s [] := by
  let as : List LogAct := [.emit "web#0" ⟨1000000, false, "a"⟩, .begin ["web#0"], .read, .finish, .deliver .ok true,
    .emit "web#0" ⟨1500000, false, "b"⟩]
  let bs : List LogAct := [.read, .finish]
  have hmiddle : (logSystem.run { agent := "db" } as).map (fun u => u.emitted.length) = some 2 := by decide +kernel
  have hends : (logSystem.run { agent := "db" } (as ++ .begin ["web#0"] :: bs)).map (fun s => (s.stored.length,
      s.reading, s.delivered, s.sent.length, s.emitted.length, (past s.start s.emitted).length)) =
        some (1, none, 1, 1, 2, 2) := by decide +kernel
  have hrule : logSystem.Along Kept { agent := "db" } (as ++ .begin ["web#0"] :: bs) := by decide +kernel
  obtain ⟨s, hs, hends⟩ := Option.map_eq_some_iff.mp hends
  obtain ⟨hstored, hidle, hdelivered, hsent, hemitted, hpast⟩ : s.stored.length = 1 ∧ s.reading = none ∧
      s.delivered = 1 ∧ s.sent.length = 1 ∧ s.emitted.length = 2 ∧ (past s.start s.emitted).length = 2 := by
    simpa using hends
  obtain ⟨u, hu, hafter⟩ := logSystem.run_append.mp hs
  have hbefore : u.emitted.length = 2 := by simpa [hu] using hmiddle
  refine ⟨as, bs, ["web#0"], u, s, ⟨rfl, rfl, rfl, rfl, rfl, rfl, rfl, rfl⟩, hu, hafter, hrule, hidle,
    hdelivered.trans hsent.symm, ?_⟩
  rintro ⟨new, rest, hnew, hperm, hsub⟩
  -- no line was emitted after the last tick started, one of the two is stored
  have hrest : rest = [] := by
    rw [hbefore, List.drop_of_length_le hemitted.le] at hsub
    exact List.sublist_nil.mp hsub
  have hnone : LogShipping.stored { agent := "db" } = [] := rfl
  rw [hnone, List.nil_append] at hnew
  rw [hnew, List.length_map] at hstored
  have hlength := hperm.length_eq
  rw [hrest, List.append_nil, List.append_nil, hstored, hpast] at hlength
  omega

end Marshal.Fleet
