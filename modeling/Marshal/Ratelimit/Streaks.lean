import Marshal.Lib.System
import Marshal.Ratelimit

/-! When consecutive failures lock a key.

An entry's `fails` counts the failures since its last lock engaged, as long as the entry is
there. A call of any key may drop it: an entry that was never locked once it is idle for
longer than the cap, one that was locked once its lock has ended longer than the cap ago,
however recent its failures are. `Past` is what a history itself says of a key, and
`Counts` how much of that its entry still knows. -/
namespace Marshal.Ratelimit
namespace Clocked

/-! ### The failures of a key in a history -/

/-- `fails`, the times of consecutive failures with the latest first, unless the latest is longer
ago than the cap. -/
def alive (cap : Int) (now : Nat) (fails : List Nat) : List Nat :=
  match fails with
  | [] => []
  | last :: rest => if Sub now last ≤ cap then last :: rest else []

/-- The times of the last `Fail` calls of `k` with no `Reset` between them, none made while `k` is
locked, and each at most the cap after the one before. -/
def consecutive (k : String) (fails : List Nat) (s : Clocked) : Call → List Nat
  | .fail key =>
    if key ≠ k then fails
    else if s.locked k then []
    else s.now :: alive s.limiter.pol.Cap s.now fails
  | .reset key => if key = k then [] else fails
  | .retryAfter _ | .tick _ => fails

structure Past where
  /-- The consecutive failures since the last lock engaged. -/
  fails : List Nat := []
  /-- When that lock ends; 0 if there was none since the last `Reset`. -/
  lockEnd : Nat := 0
  deriving DecidableEq, Repr

def sinceLock (k : String) (p : Past) (s : Clocked) (c : Call) : Past :=
  match c with
  | .fail key =>
    if key = k ∧ (s.step c).locked k then ⟨[], (((s.step c).limiter.m.get k).getD {}).lockUntil⟩
    else { p with fails := consecutive k p.fails s c }
  | .reset key => if key = k then {} else p
  | .retryAfter _ | .tick _ => p

/-- The last lock ended no longer than the cap before all of the failures, or longer than the cap
before all of them. -/
def Spares (cap : Int) (lockEnd : Nat) (fails : List Nat) : Prop :=
  lockEnd = 0 ∨ (∀ t ∈ fails, Sub t lockEnd ≤ cap) ∨ ∀ t ∈ fails, cap < Sub t lockEnd

/-! ### What the entry knows of them -/

/-- The failures an entry counts that was made after the one with the lock was dropped. -/
def late (cap : Int) (lockEnd : Nat) (fails : List Nat) : List Nat :=
  fails.filter fun t => lockEnd = 0 ∨ cap < Sub t lockEnd

structure Counts (k : String) (p : Past) (s : Clocked) : Prop where
  past : ∀ t ∈ p.fails, t ≤ s.now
  seen : ∀ e, s.limiter.m.get k = some e → ∀ t ∈ p.fails, t ≤ e.lastSeen
  lock : ∀ e, s.limiter.m.get k = some e → e.lockUntil ≠ 0 → e.lockUntil = p.lockEnd ∧
    Sub e.lastSeen e.lockUntil ≤ s.limiter.pol.Cap ∧
    (alive s.limiter.pol.Cap s.now p.fails).length ≤ e.fails
  free : (late s.limiter.pol.Cap p.lockEnd (alive s.limiter.pol.Cap s.now p.fails)).length ≤
    ((s.limiter.m.get k).getD {}).fails
  held : p.lockEnd ≠ 0 → Sub s.now p.lockEnd ≤ s.limiter.pol.Cap →
    ∃ e, s.limiter.m.get k = some e ∧ e.lockUntil = p.lockEnd

theorem alive_sublist (cap : Int) (now : Nat) (fails : List Nat) : (alive cap now fails).Sublist fails := by
  cases fails with
  | nil => exact List.Sublist.refl _
  | cons last rest =>
    simp only [alive]
    split
    · exact List.Sublist.refl _
    · exact List.nil_sublist _

/-- Time only ends a streak. -/
theorem alive_later (cap : Int) {now now' : Nat} (h : now ≤ now') (fails : List Nat) :
    (alive cap now' fails).Sublist (alive cap now fails) := by
  cases fails with
  | nil => exact List.Sublist.refl _
  | cons last rest =>
    have hmono : Sub now last ≤ Sub now' last := Sub_mono h (Nat.le_refl _)
    by_cases hcap : Sub now' last ≤ cap
    · simp only [alive, if_pos hcap, if_pos (Int.le_trans hmono hcap), List.Sublist.refl]
    · simp only [alive, if_neg hcap, List.nil_sublist]

/-- A streak is over once its key is idle longer than the cap. -/
theorem alive_idle {cap : Int} {now seen : Nat} {fails : List Nat} (hseen : ∀ t ∈ fails, t ≤ seen)
    (hidle : Sub now seen > cap) : alive cap now fails = [] := by
  cases fails with
  | nil => rfl
  | cons last rest =>
    have hmono : Sub now seen ≤ Sub now last := Sub_mono (Nat.le_refl _) (hseen last (by simp))
    exact if_neg (by omega)

theorem alive_now {cap : Int} (hcap : 0 < cap) (now : Nat) (fails : List Nat) :
    alive cap now (now :: fails) = now :: fails :=
  if_pos (Int.le_trans (Sub_of_le (Nat.le_refl now)) (Int.le_of_lt hcap))

theorem late_nil {cap : Int} {lockEnd : Nat} {fails : List Nat} (hlock : lockEnd ≠ 0)
    (h : ∀ t ∈ fails, Sub t lockEnd ≤ cap) : late cap lockEnd fails = [] := by
  refine List.filter_eq_nil_iff.mpr fun t ht => ?_
  have hle := h t ht
  simp only [decide_eq_true_eq, not_or]
  omega

variable {k : String} {p : Past} {s t : Clocked}

/-! ### Steps -/

/-- Nothing is called on the key but time may pass. -/
theorem counts_later (hs : Counts k p s) (hpol : t.limiter.pol = s.limiter.pol)
    (hget : t.limiter.m.get k = s.limiter.m.get k) (hnow : s.now ≤ t.now) : Counts k p t := by
  have halive := alive_later s.limiter.pol.Cap hnow p.fails
  refine ⟨fun u hu => Nat.le_trans (hs.past u hu) hnow, ?_, ?_, ?_, ?_⟩
  · rw [hget]
    exact hs.seen
  · rw [hget, hpol]
    intro e he hlock
    obtain ⟨hend, hseen, hlen⟩ := hs.lock e he hlock
    exact ⟨hend, hseen, Nat.le_trans halive.length_le hlen⟩
  · rw [hget, hpol]
    exact Nat.le_trans (halive.filter _).length_le hs.free
  · rw [hget, hpol]
    intro hend hcap
    exact hs.held hend (Int.le_trans (Sub_mono hnow (Nat.le_refl _)) hcap)

/-- What is dropped counts no failure that is still of account. -/
theorem counts_prune (hs : Counts k p s) :
    Counts k p { s with limiter := s.limiter.pruneLocked s.now } := by
  have hget : (s.limiter.pruneLocked s.now).m.get k = s.limiter.kept s.now k :=
    Limiter.get_pruneLocked
  cases hold : s.limiter.m.get k with
  | none =>
    refine counts_later hs rfl ?_ (Nat.le_refl _)
    show (s.limiter.pruneLocked s.now).m.get k = _
    rw [hget, Limiter.kept, hold]
    rfl
  | some e =>
    cases hdrops : s.limiter.pol.drops s.now e with
    | false =>
      refine counts_later hs rfl ?_ (Nat.le_refl _)
      show (s.limiter.pruneLocked s.now).m.get k = _
      rw [hget, hold]
      exact Limiter.kept_eq_some.mpr ⟨hold, hdrops⟩
    | true =>
      have hnone : (s.limiter.pruneLocked s.now).m.get k = none := by
        rw [hget, Limiter.kept, hold]
        simp [hdrops]
      refine ⟨hs.past, ?_, ?_, ?_, ?_⟩
      · simp [hnone]
      · simp [hnone]
      · have hlate : late s.limiter.pol.Cap p.lockEnd (alive s.limiter.pol.Cap s.now p.fails) = [] := by
          by_cases hlock : e.lockUntil = 0
          · rw [alive_idle (hs.seen e hold) ((Policy.drops_of_free hlock).mp hdrops)]
            rfl
          · obtain ⟨hend, hseen, -⟩ := hs.lock e hold hlock
            refine late_nil (hend ▸ hlock) fun u hu => ?_
            have hle := hs.seen e hold u ((alive_sublist _ _ _).subset hu)
            rw [← hend]
            exact Int.le_trans (Sub_mono hle (Nat.le_refl _)) hseen
        show (late s.limiter.pol.Cap p.lockEnd (alive s.limiter.pol.Cap s.now p.fails)).length ≤ _
        rw [hlate]
        exact Nat.zero_le _
      · intro hend hcap
        obtain ⟨e', he', hlock⟩ := hs.held hend hcap
        obtain rfl : e = e' := Option.some.inj (hold.symm.trans he')
        have hgone := ((Policy.drops_of_locked (by omega)).mp hdrops).2
        rw [hlock] at hgone
        exact absurd hgone (Int.not_lt.mpr hcap)

theorem counts_other (hs : Counts k p s) {key : String} (hne : k ≠ key) :
    Counts k p (s.step (.fail key)) := by
  refine counts_later (counts_prune hs) rfl ?_ (Nat.le_refl _)
  show (s.limiter.Fail s.now key).m.get k = (s.limiter.pruneLocked s.now).m.get k
  rw [Limiter.get_Fail_other hne, Limiter.get_pruneLocked]

/-- What a failure of the key finds on record. -/
def before (s : Clocked) (k : String) : Entry := (s.limiter.kept s.now k).getD {}

theorem get_fail_self : (s.step (.fail k)).limiter.m.get k = some (s.limiter.pol.fail s.now (s.before k)) :=
  Limiter.get_Fail_self

theorem locked_fail :
    (s.step (.fail k)).locked k = true ↔ s.now < (s.limiter.pol.fail s.now (s.before k)).lockUntil := by
  refine Limiter.locked_iff.trans ?_
  constructor
  · intro h
    obtain ⟨e, hget, hlt⟩ := h
    rw [get_fail_self, Option.some.injEq] at hget
    exact hget ▸ hlt
  · intro hlt
    exact ⟨_, get_fail_self, hlt⟩

/-- The failure that fills the threshold locks its key. -/
theorem locked_of_full (hvalid : s.limiter.pol.Valid)
    (hfull : s.limiter.pol.Threshold ≤ (s.before k).fails + 1) :
    (s.step (.fail k)).locked k = true := by
  rw [locked_fail, Policy.fail_of_le hfull]
  exact hvalid.lt_lockUntil s.now _

/-- A failure does not end a lock. -/
theorem unlocked_before (hvalid : s.limiter.pol.Valid) (h : (s.step (.fail k)).locked k = false) :
    s.locked k = false := by
  rw [← Bool.not_eq_true] at h ⊢
  intro hlocked
  refine h (locked_fail.mpr ?_)
  obtain ⟨e, hget, hlt⟩ := Limiter.locked_iff.mp hlocked
  have hbefore : s.before k = e := by
    rw [before, Limiter.kept_of_locked hlocked, hget]
    rfl
  rw [hbefore]
  by_cases hfull : s.limiter.pol.Threshold ≤ e.fails + 1
  · rw [Policy.fail_of_le hfull]
    exact hvalid.lt_lockUntil s.now _
  · rw [Policy.fail_of_lt (Nat.not_le.mp hfull)]
    exact hlt

/-- The failure leaves its key locked: the history of the key starts anew. -/
theorem counts_locked (hvalid : s.limiter.pol.Valid) (hs : (s.step (.fail k)).locked k = true) :
    Counts k ⟨[], (((s.step (.fail k)).limiter.m.get k).getD {}).lockUntil⟩ (s.step (.fail k)) := by
  have hlt := locked_fail.mp hs
  simp only [get_fail_self, Option.getD_some]
  refine ⟨by simp, by simp, ?_, by simp [alive, late], ?_⟩
  · intro e he _
    rw [get_fail_self, Option.some.injEq] at he
    subst he
    refine ⟨rfl, ?_, Nat.zero_le _⟩
    rw [Policy.fail_lastSeen]
    have hneg := Sub_of_le (Nat.le_of_lt hlt)
    have hcap := hvalid.cap_pos
    show _ ≤ s.limiter.pol.Cap
    omega
  · exact fun _ _ => ⟨_, get_fail_self, rfl⟩

/-- A failure that locks nothing is one more on record. -/
theorem get_unlocked (hvalid : s.limiter.pol.Valid) (h : (s.step (.fail k)).locked k = false) :
    (s.step (.fail k)).limiter.m.get k =
      some { s.before k with lastSeen := s.now, fails := (s.before k).fails + 1 } := by
  have hshort : (s.before k).fails + 1 < s.limiter.pol.Threshold := by
    rw [← Nat.not_le]
    intro hfull
    rw [locked_of_full hvalid hfull] at h
    cases h
  rw [get_fail_self, Policy.fail_of_lt hshort]

theorem before_eq : s.before k = ((s.limiter.pruneLocked s.now).m.get k).getD {} := by
  rw [before, ← Limiter.get_pruneLocked]

/-- Whatever lock is on record is the one kept by the pruning. -/
theorem kept_before (hlock : (s.before k).lockUntil ≠ 0) :
    s.limiter.kept s.now k = some (s.before k) := by
  cases hk : s.limiter.kept s.now k with
  | none => simp [before, hk] at hlock
  | some e => simp [before, hk]

/-- A lock that is kept has not been over for longer than the cap. -/
theorem lock_recent (hvalid : s.limiter.pol.Valid) (hlock : (s.before k).lockUntil ≠ 0) :
    Sub s.now (s.before k).lockUntil ≤ s.limiter.pol.Cap := by
  have hdrops := (Limiter.kept_eq_some.mp (kept_before hlock)).2
  rw [← Bool.not_eq_true, Policy.drops_of_locked hlock] at hdrops
  by_cases hlt : (s.before k).lockUntil < s.now
  · exact Int.not_lt.mp fun hgt => hdrops ⟨hlt, hgt⟩
  · have hneg := Sub_of_le (Nat.not_lt.mp hlt)
    have hcap := hvalid.cap_pos
    omega

/-- The failure leaves its key unlocked: it is one more. -/
theorem counts_unlocked (hvalid : s.limiter.pol.Valid) (hs : Counts k p s)
    (h : (s.step (.fail k)).locked k = false) :
    Counts k { p with fails := consecutive k p.fails s (.fail k) } (s.step (.fail k)) := by
  have hpruned := counts_prune hs
  have hget := get_unlocked hvalid h
  have hfails : consecutive k p.fails s (.fail k) = s.now :: alive s.limiter.pol.Cap s.now p.fails := by
    simp [consecutive, unlocked_before hvalid h]
  have halive : alive s.limiter.pol.Cap s.now (s.now :: alive s.limiter.pol.Cap s.now p.fails) =
      s.now :: alive s.limiter.pol.Cap s.now p.fails := alive_now hvalid.cap_pos _ _
  rw [hfails]
  refine ⟨?_, ?_, ?_, ?_, ?_⟩
  · intro u hu
    rcases List.mem_cons.mp hu with rfl | hu
    · exact Nat.le_refl _
    · exact hs.past u ((alive_sublist _ _ _).subset hu)
  · intro e he u hu
    rw [hget, Option.some.injEq] at he
    subst he
    rcases List.mem_cons.mp hu with rfl | hu
    · exact Nat.le_refl _
    · exact hs.past u ((alive_sublist _ _ _).subset hu)
  · intro e he hlock
    rw [hget, Option.some.injEq] at he
    subst he
    have hlock : (s.before k).lockUntil ≠ 0 := hlock
    obtain ⟨hend, -, hlen⟩ :=
      hpruned.lock _ (Limiter.get_pruneLocked.trans (kept_before hlock)) hlock
    refine ⟨hend, lock_recent hvalid hlock, ?_⟩
    show (alive s.limiter.pol.Cap s.now _).length ≤ (s.before k).fails + 1
    rw [halive, List.length_cons]
    exact Nat.succ_le_succ hlen
  · have hfree : (late s.limiter.pol.Cap p.lockEnd (alive s.limiter.pol.Cap s.now p.fails)).length ≤
        (s.before k).fails := by
      rw [before_eq]
      exact hpruned.free
    rw [hget]
    show (late s.limiter.pol.Cap p.lockEnd (alive s.limiter.pol.Cap s.now _)).length ≤ (s.before k).fails + 1
    rw [halive, late, List.filter_cons]
    split
    · exact Nat.succ_le_succ hfree
    · exact Nat.le_succ_of_le hfree
  · intro hend hle
    obtain ⟨e, he, hlock⟩ := hpruned.held hend hle
    have hbefore : s.before k = e := by
      rw [before_eq, he]
      rfl
    exact ⟨_, hget, by rw [← hlock, ← hbefore]⟩

theorem counts_step (hvalid : s.limiter.pol.Valid) (hs : Counts k p s) (c : Call) :
    Counts k (sinceLock k p s c) (s.step c) := by
  cases c with
  | fail key =>
    by_cases hkey : key = k
    · subst hkey
      cases hlocked : (s.step (.fail key)).locked key with
      | true =>
        simp only [sinceLock, hlocked, and_self, if_true]
        exact counts_locked hvalid hlocked
      | false =>
        simp only [sinceLock, hlocked]
        exact counts_unlocked hvalid hs hlocked
    · simp only [sinceLock, hkey, false_and, if_false, consecutive, ne_eq, not_false_eq_true, if_true]
      exact counts_other hs (Ne.symm hkey)
  | reset key =>
    by_cases hkey : key = k
    · subst hkey
      have hnone : (s.step (.reset key)).limiter.m.get key = none := Table.get_del_self _ _
      simp only [sinceLock, if_true]
      refine ⟨by simp, by simp, ?_, by simp [alive, late], by simp⟩
      rw [hnone]
      simp
    · simp only [sinceLock, hkey, if_false]
      exact counts_later hs rfl (Limiter.get_Reset_other (Ne.symm hkey)) (Nat.le_refl _)
  | retryAfter key => exact hs
  | tick d => exact counts_later hs rfl rfl (Nat.le_add_right _ _)

theorem step_pol (s : Clocked) (c : Call) : (s.step c).limiter.pol = s.limiter.pol := by
  cases c <;> rfl

theorem counts_run {as : List Call} (hvalid : s.limiter.pol.Valid) (hs : machine.init s)
    (hrun : machine.run s as = some t) : Counts k (machine.record (sinceLock k) {} s as) t := by
  have hinit : Counts k {} s := by
    have hnone : ∀ k, s.limiter.m.get k = none := by
      intro k
      rw [show s.limiter.m = ∅ from hs, Table.get_empty]
    refine ⟨by simp, by simp [hnone], by simp [hnone], by simp [alive, late], by simp⟩
  have hboth := machine.record_invariant (sinceLock k)
    (I := fun p u => u.limiter.pol.Valid ∧ Counts k p u) ?_ ⟨hvalid, hinit⟩ hrun
  · exact hboth.2
  · intro p u c v hI hstep
    obtain ⟨hu, hcounts⟩ := hI
    obtain rfl : u.step c = v := Option.some.inj hstep
    rw [step_pol]
    exact ⟨hu, counts_step hu hcounts c⟩

/-! ### The result -/

theorem late_of_spared {cap : Int} {lockEnd : Nat} {fails : List Nat}
    (h : lockEnd = 0 ∨ ∀ t ∈ fails, cap < Sub t lockEnd) : late cap lockEnd fails = fails := by
  refine List.filter_eq_self.mpr fun t ht => ?_
  simp only [decide_eq_true_eq]
  exact h.imp_right fun h => h t ht

/-- A key whose failures fill the threshold and were all spared alike is locked. -/
theorem locked_of_counts (hvalid : s.limiter.pol.Valid) (hs : Counts k p s)
    (hlen : s.limiter.pol.Threshold ≤ (consecutive k p.fails s (.fail k)).length)
    (hspares : Spares s.limiter.pol.Cap p.lockEnd
      ((consecutive k p.fails s (.fail k)).take s.limiter.pol.Threshold)) :
    (s.step (.fail k)).locked k = true := by
  have hone := hvalid.threshold
  cases hlocked : s.locked k with
  | true =>
    simp only [consecutive, ne_eq, not_true_eq_false, if_false, hlocked, if_true, List.length_nil] at hlen
    omega
  | false =>
    apply locked_of_full hvalid
    have hfails : consecutive k p.fails s (.fail k) = s.now :: alive s.limiter.pol.Cap s.now p.fails := by
      simp [consecutive, hlocked]
    obtain ⟨n, hn⟩ : ∃ n, s.limiter.pol.Threshold = n + 1 := ⟨_, (Nat.sub_add_cancel hone).symm⟩
    rw [hfails, hn, List.length_cons] at hlen
    rw [hfails, hn, List.take_succ_cons] at hspares
    have hpruned := counts_prune hs
    have hbefore : s.before k = ((s.limiter.pruneLocked s.now).m.get k).getD {} := by
      rw [before, Limiter.get_pruneLocked]
    rw [hn, hbefore]
    -- The failures that the entry was made for, if the one with the lock is gone.
    have hlate : (p.lockEnd = 0 ∨ ∀ t ∈ (alive s.limiter.pol.Cap s.now p.fails).take n,
        s.limiter.pol.Cap < Sub t p.lockEnd) →
        n ≤ (((s.limiter.pruneLocked s.now).m.get k).getD {}).fails := by
      intro h
      have hsub := ((List.take_sublist n (alive s.limiter.pol.Cap s.now p.fails)).filter
        fun t => decide (p.lockEnd = 0 ∨ s.limiter.pol.Cap < Sub t p.lockEnd)).length_le
      have hall := late_of_spared h
      unfold late at hall
      rw [hall, List.length_take, Nat.min_eq_left (Nat.le_of_succ_le_succ hlen)] at hsub
      exact Nat.le_trans hsub hpruned.free
    rcases hspares with hzero | hrecent | hlong
    · exact Nat.succ_le_succ (hlate (.inl hzero))
    · by_cases hzero : p.lockEnd = 0
      · exact Nat.succ_le_succ (hlate (.inl hzero))
      · obtain ⟨e, he, hlock⟩ := hpruned.held hzero (hrecent s.now (by simp))
        have hknown := (hpruned.lock e he (by omega)).2.2
        rw [he]
        exact Nat.succ_le_succ (Nat.le_trans (Nat.le_of_succ_le_succ hlen) hknown)
    · exact Nat.succ_le_succ (hlate (.inr fun t ht => hlong t (List.mem_cons_of_mem _ ht)))

/-- **Consecutive failures lock, and nothing else unlocks.** In every history of a limiter: when
`Threshold` consecutive failures of a key have come since its last lock engaged, and that lock ended
no longer than the cap before all of them or longer before all of them, the key is locked right after
the last; and no call on another key changes what a locked key is answered. -/
theorem threshold_locks {as : List Call} (hvalid : s.limiter.pol.Valid) (hs : machine.init s)
    (hrun : machine.run s as = some t) (k : String) :
    (t.limiter.pol.Threshold ≤
        (consecutive k (machine.record (sinceLock k) {} s as).fails t (.fail k)).length →
      Spares t.limiter.pol.Cap (machine.record (sinceLock k) {} s as).lockEnd
        ((consecutive k (machine.record (sinceLock k) {} s as).fails t (.fail k)).take
          t.limiter.pol.Threshold) →
      (t.step (.fail k)).locked k = true) ∧
    ∀ key, key ≠ k → ∀ c ∈ [Call.fail key, .reset key, .retryAfter key], t.locked k = true →
      (t.step c).limiter.RetryAfter t.now k = t.limiter.RetryAfter t.now k := by
  have hpol : t.limiter.pol = s.limiter.pol :=
    machine.run_invariant (I := fun u => u.limiter.pol = s.limiter.pol)
      (fun u c v hu hstep => by
        obtain rfl : u.step c = v := Option.some.inj hstep
        rw [step_pol, hu]) rfl hrun
  refine ⟨locked_of_counts (hpol ▸ hvalid) (counts_run hvalid hs hrun), ?_⟩
  intro key hne c hc hlocked
  have hsame : (t.step c).limiter.m.get k = t.limiter.m.get k := by
    simp only [List.mem_cons, List.not_mem_nil, or_false] at hc
    rcases hc with rfl | rfl | rfl
    · exact (Limiter.get_Fail_other (Ne.symm hne)).trans (Limiter.kept_of_locked hlocked)
    · exact Limiter.get_Reset_other (Ne.symm hne)
    · rfl
  simp only [Limiter.RetryAfter, hsame]

/-! ### Failures around an earlier lock -/

def minute : Nat := 60000000000

/-- A limiter as the dashboard makes it. -/
def dashboard : Clocked := ⟨⟨lockoutPolicy, ∅⟩, 1000 * minute⟩

theorem lockoutPolicy_valid : lockoutPolicy.Valid := ⟨by decide, by decide, by decide⟩

def fails (n : Nat) : List Call := List.replicate n (.fail "ip")

/-- Four failures, the lock's minute, and the failure after it. -/
def astride : List Call := fails 5 ++ [.tick minute]

/-- The lock ends and, ten minutes later, four failures come two minutes apart. -/
def forgotten : List Call :=
  fails 5 ++ .tick (11 * minute) :: (List.replicate 4 [.fail "ip", .tick (2 * minute)]).flatten

/-- Neither consecutive failures around a lock nor those around the time when an earlier lock is
forgotten lock the key again. -/
theorem threshold_without_lock :
    (¬ ∀ s as t k, s.limiter.pol.Valid → machine.init s → machine.run s as = some t →
      t.limiter.pol.Threshold ≤ (consecutive k (machine.record (consecutive k) [] s as) t (.fail k)).length →
      (t.step (.fail k)).locked k = true) ∧
    ¬ ∀ s as t k, s.limiter.pol.Valid → machine.init s → machine.run s as = some t →
      t.limiter.pol.Threshold ≤
        (consecutive k (machine.record (sinceLock k) {} s as).fails t (.fail k)).length →
      (t.step (.fail k)).locked k = true := by
  refine ⟨?_, ?_⟩
  · intro h
    exact absurd (h dashboard astride _ "ip" lockoutPolicy_valid rfl rfl (by decide)) (by decide)
  · intro h
    exact absurd (h dashboard forgotten _ "ip" lockoutPolicy_valid rfl rfl (by decide)) (by decide)

theorem threshold_locks_fifth :
    (dashboard.step (.fail "ip")).locked "ip" = false ∧
      ∃ t, machine.run dashboard (fails 4) = some t ∧ (t.step (.fail "ip")).locked "ip" = true := by
  refine ⟨by decide, _, rfl, ?_⟩
  exact (@threshold_locks dashboard _ (fails 4) lockoutPolicy_valid rfl rfl "ip").1 (by decide)
    (.inl (by decide))

end Clocked
end Marshal.Ratelimit
