import Marshal.MetricStore
import Mathlib.Algebra.BigOperators.Group.List.Basic
import Mathlib.Algebra.Order.Ring.Nat
import Mathlib.Data.List.Induction
import Mathlib.Data.List.Nodup
import Mathlib.Order.Bounds.Basic

/-! Merging metric series.

`Totals` says what a bucket is to the buckets it was made from, `Accumulated` what the merged buckets are
to all buckets so far. The second is kept by each bucket added (`Accumulated.addBucket`), and in time
order there is one list of that kind only (`Accumulated.unique`). What order the series come in, and
whether some were merged before, then makes no difference. -/
namespace Marshal.MetricStore

/-- The buckets of one timestamp. -/
def stamped (ts : Int) (bs : List Bucket) : List Bucket := bs.filter fun b => b.tsMs = ts

theorem stamped_append (ts : Int) (bs cs : List Bucket) :
    stamped ts (bs ++ cs) = stamped ts bs ++ stamped ts cs := List.filter_append bs cs

theorem stamped_eq_nil {ts : Int} (bs : List Bucket) (h : ts ∉ bs.map Bucket.tsMs) : stamped ts bs = [] := by
  refine List.filter_eq_nil_iff.mpr fun b hb hts => h ?_
  exact List.mem_map.mpr ⟨b, hb, by simpa using hts⟩

/-! ### One timestamp -/

/-- What the buckets of one timestamp come to: averages add up, memory as a 64-bit number, and the
largest maximum is taken. -/
structure Totals (bs : List Bucket) (b : Bucket) : Prop where
  cpuAvg : b.cpuAvg = (bs.map Bucket.cpuAvg).sum
  memAvg : b.memAvg.toNat = (bs.map fun x => x.memAvg.toNat).sum % 2 ^ 64
  cpuMax : IsGreatest {x | x ∈ bs.map Bucket.cpuMax} b.cpuMax
  memMax : IsGreatest {x | x ∈ bs.map fun b => b.memMax.toNat} b.memMax.toNat

theorem isGreatest_of_cur {α : Type*} [LinearOrder α] {xs : List α} {cur x : α}
    (h : IsGreatest {y | y ∈ xs} cur) : IsGreatest {y | y ∈ xs ++ [x]} (if cur < x then x else cur) := by
  constructor
  · split
    · exact List.mem_append_right _ (List.mem_singleton_self x)
    · exact List.mem_append_left _ h.1
  · intro y hy
    rcases List.mem_append.mp hy with hy | hy
    · have hle := h.2 hy
      split
      · rename_i hlt
        exact hle.trans hlt.le
      · exact hle
    · obtain rfl := List.mem_singleton.mp hy
      split
      · exact le_rfl
      · rename_i hge
        exact not_lt.mp hge

namespace Totals
variable {bs cs : List Bucket} {b b' c cur : Bucket}

theorem singleton (b : Bucket) : Totals [b] b where
  cpuAvg := by simp
  memAvg := by simp [Nat.mod_eq_of_lt b.memAvg.toNat_lt]
  cpuMax := by simp [IsGreatest]
  memMax := by simp [IsGreatest]

theorem concat (h : Totals bs cur) (b : Bucket) : Totals (bs ++ [b]) (cur.merge b) where
  cpuAvg := by simp [Bucket.merge, h.cpuAvg]
  memAvg := by
    have hsum : (cur.merge b).memAvg.toNat = (cur.memAvg.toNat + b.memAvg.toNat) % 2 ^ 64 :=
      UInt64.toNat_add _ _
    rw [hsum, h.memAvg, Nat.mod_add_mod, List.map_append, List.sum_append, List.map_singleton,
      List.sum_singleton]
  cpuMax := by
    rw [List.map_append]
    exact isGreatest_of_cur h.cpuMax
  memMax := by
    have hmax : (cur.merge b).memMax.toNat =
        if cur.memMax.toNat < b.memMax.toNat then b.memMax.toNat else cur.memMax.toNat := by
      simp only [Bucket.merge, UInt64.lt_iff_toNat_lt]
      split <;> rfl
    rw [List.map_append, hmax]
    exact isGreatest_of_cur h.memMax

theorem unique (h : Totals bs b) (h' : Totals bs b') (hts : b.tsMs = b'.tsMs) : b = b' := by
  obtain ⟨ts, cpuAvg, cpuMax, memAvg, memMax⟩ := b
  obtain ⟨ts', cpuAvg', cpuMax', memAvg', memMax'⟩ := b'
  obtain rfl : ts = ts' := hts
  obtain rfl : cpuAvg = cpuAvg' := h.cpuAvg.trans h'.cpuAvg.symm
  obtain rfl : cpuMax = cpuMax' := h.cpuMax.unique h'.cpuMax
  obtain rfl : memAvg = memAvg' := UInt64.toNat_inj.mp (h.memAvg.trans h'.memAvg.symm)
  obtain rfl : memMax = memMax' := UInt64.toNat_inj.mp (h.memMax.unique h'.memMax)
  rfl

theorem perm (h : Totals bs b) (hperm : bs.Perm cs) : Totals cs b where
  cpuAvg := h.cpuAvg.trans (hperm.map _).sum_eq
  memAvg := by rw [h.memAvg, (hperm.map _).sum_eq]
  cpuMax := by simpa only [(hperm.map Bucket.cpuMax).mem_iff] using h.cpuMax
  memMax := by simpa only [(hperm.map fun b => b.memMax.toNat).mem_iff] using h.memMax

theorem isGreatest_absorb {α : Type*} [LinearOrder α] {xs ys : List α} {x y : α}
    (h : IsGreatest {z | z ∈ xs} x) (h' : IsGreatest {z | z ∈ x :: ys} y) : IsGreatest {z | z ∈ xs ++ ys} y := by
  constructor
  · rcases List.mem_cons.mp h'.1 with rfl | hy
    · exact List.mem_append_left _ h.1
    · exact List.mem_append_right _ hy
  · intro z hz
    rcases List.mem_append.mp hz with hz | hz
    · exact (h.2 hz).trans (h'.2 List.mem_cons_self)
    · exact h'.2 (List.mem_cons_of_mem _ hz)

/-- What comes of a total and further buckets comes of all of them. -/
theorem absorb (h : Totals bs b) (h' : Totals (b :: cs) c) : Totals (bs ++ cs) c where
  cpuAvg := by rw [h'.cpuAvg, List.map_cons, List.sum_cons, h.cpuAvg, List.map_append, List.sum_append]
  memAvg := by
    rw [h'.memAvg, List.map_cons, List.sum_cons, h.memAvg, Nat.mod_add_mod, List.map_append, List.sum_append]
  cpuMax := by
    rw [List.map_append]
    exact isGreatest_absorb h.cpuMax h'.cpuMax
  memMax := by
    rw [List.map_append]
    exact isGreatest_absorb h.memMax h'.memMax

end Totals

/-! ### All timestamps -/

/-- One bucket for each timestamp there is, with the totals of all buckets of that timestamp. -/
structure Accumulated (all out : List Bucket) : Prop where
  distinct : (out.map Bucket.tsMs).Nodup
  timestamps : ∀ ts, ts ∈ out.map Bucket.tsMs ↔ ts ∈ all.map Bucket.tsMs
  totals : ∀ b ∈ out, Totals (stamped b.tsMs all) b

namespace Accumulated
variable {all all' more out out' : List Bucket}

theorem nil : Accumulated [] [] := ⟨List.nodup_nil, fun _ => Iff.rfl, fun b hb => by cases hb⟩

theorem addBucket (h : Accumulated all out) (b : Bucket) : Accumulated (all ++ [b]) (addBucket out b) := by
  have hstamped : ∀ ts, ts ≠ b.tsMs → stamped ts (all ++ [b]) = stamped ts all := by
    intro ts hts
    rw [stamped_append, stamped_eq_nil [b] (by simpa using hts), List.append_nil]
  have hself : stamped b.tsMs (all ++ [b]) = stamped b.tsMs all ++ [b] := by
    rw [stamped_append]
    simp [stamped]
  unfold MetricStore.addBucket
  split
  · rename_i hany
    have hmem : b.tsMs ∈ out.map Bucket.tsMs := by simpa using hany
    have hkeep : (out.map fun cur => if cur.tsMs = b.tsMs then cur.merge b else cur).map Bucket.tsMs =
        out.map Bucket.tsMs := by
      rw [List.map_map]
      refine List.map_congr_left fun cur _ => ?_
      simp only [Function.comp_apply]
      split <;> rfl
    refine ⟨hkeep ▸ h.distinct, fun ts => ?_, fun x hx => ?_⟩
    · rw [hkeep, h.timestamps, List.map_append, List.mem_append]
      refine (or_iff_left_of_imp fun hts => ?_).symm
      rw [List.mem_singleton.mp hts]
      exact (h.timestamps _).mp hmem
    · obtain ⟨cur, hcur, rfl⟩ := List.mem_map.mp hx
      split
      · rename_i hts
        have hmerge : (cur.merge b).tsMs = b.tsMs := hts
        rw [hmerge, hself, ← hts]
        exact (h.totals cur hcur).concat b
      · rename_i hts
        rw [hstamped _ hts]
        exact h.totals cur hcur
  · rename_i hany
    have hnew : b.tsMs ∉ out.map Bucket.tsMs := by simpa using hany
    refine ⟨?_, fun ts => ?_, fun x hx => ?_⟩
    · rw [List.map_append, List.nodup_append]
      refine ⟨h.distinct, List.nodup_singleton _, fun ts hts ts' hts' heq => hnew ?_⟩
      rw [← List.mem_singleton.mp hts', ← heq]
      exact hts
    · rw [List.map_append, List.map_append, List.mem_append, List.mem_append, h.timestamps]
    · rcases List.mem_append.mp hx with hx | hx
      · have hts : x.tsMs ≠ b.tsMs := fun heq => hnew (heq ▸ List.mem_map_of_mem hx)
        rw [hstamped _ hts]
        exact h.totals x hx
      · obtain rfl := List.mem_singleton.mp hx
        rw [hself, stamped_eq_nil _ fun hts => hnew ((h.timestamps _).mpr hts)]
        exact Totals.singleton x

theorem foldl (all : List Bucket) : Accumulated all (all.foldl MetricStore.addBucket []) := by
  induction all using List.reverseRecOn with
  | nil => exact nil
  | append_singleton rest b ih =>
    rw [List.foldl_append]
    exact ih.addBucket b

theorem perm_right (h : Accumulated all out) (hperm : out.Perm out') : Accumulated all out' where
  distinct := (hperm.map _).nodup_iff.mp h.distinct
  timestamps ts := by rw [← (hperm.map Bucket.tsMs).mem_iff, h.timestamps]
  totals b hb := h.totals b (hperm.mem_iff.mpr hb)

theorem perm_left (h : Accumulated all out) (hperm : all.Perm all') : Accumulated all' out where
  distinct := h.distinct
  timestamps ts := by rw [h.timestamps, (hperm.map Bucket.tsMs).mem_iff]
  totals b hb := (h.totals b hb).perm (hperm.filter _)

/-- In time order there is one such list only. -/
theorem unique (h : Accumulated all out) (h' : Accumulated all out')
    (hout : out.Pairwise fun a b => a.tsMs < b.tsMs) (hout' : out'.Pairwise fun a b => a.tsMs < b.tsMs) :
    out = out' := by
  have hsub : ∀ {o o' : List Bucket}, Accumulated all o → Accumulated all o' → ∀ b ∈ o, b ∈ o' := by
    intro o o' h h' b hb
    have hts := (h'.timestamps b.tsMs).mpr ((h.timestamps _).mp (List.mem_map_of_mem hb))
    obtain ⟨b', hb', hts⟩ := List.mem_map.mp hts
    have htotals := h'.totals b' hb'
    rw [hts] at htotals
    rwa [(h.totals b hb).unique htotals hts.symm]
  have hperm : out.Perm out' := (List.perm_ext_iff_of_nodup h.distinct.of_map h'.distinct.of_map).mpr
    fun b => ⟨hsub h h' b, hsub h' h b⟩
  exact hperm.eq_of_pairwise (fun a b _ _ hab hba => absurd hba (lt_asymm hab)) hout hout'

/-- Buckets merged before count as those they were merged from. -/
theorem absorb (h : Accumulated all out) (h' : Accumulated (out ++ more) out') :
    Accumulated (all ++ more) out' where
  distinct := h'.distinct
  timestamps ts := by
    rw [h'.timestamps, List.map_append, List.map_append, List.mem_append, List.mem_append, h.timestamps]
  totals c hc := by
    have htotals := h'.totals c hc
    rw [stamped_append] at htotals ⊢
    by_cases hts : c.tsMs ∈ out.map Bucket.tsMs
    · obtain ⟨b, hb, hbts⟩ := List.mem_map.mp hts
      -- the one bucket of this timestamp
      have hsingle : stamped c.tsMs out = [b] := by
        refine List.perm_singleton.mp ((List.perm_ext_iff_of_nodup (h.distinct.of_map.filter _)
          (List.nodup_singleton b)).mpr fun x => ?_)
        rw [List.mem_filter, List.mem_singleton, decide_eq_true_eq]
        constructor
        · intro hx
          exact List.inj_on_of_nodup_map h.distinct hx.1 hb (hx.2.trans hbts.symm)
        · rintro rfl
          exact ⟨hb, hbts⟩
      rw [hsingle] at htotals
      have hall := h.totals b hb
      rw [hbts] at hall
      exact hall.absorb htotals
    · have hall : c.tsMs ∉ all.map Bucket.tsMs := fun hmem => hts ((h.timestamps _).mpr hmem)
      rw [stamped_eq_nil _ hts] at htotals
      rwa [stamped_eq_nil _ hall]

end Accumulated

theorem mergeBuckets_accumulated (series : List (List Bucket)) :
    Accumulated series.flatten (mergeBuckets series) :=
  (Accumulated.foldl series.flatten).perm_right (List.mergeSort_perm _ _).symm

theorem mergeBuckets_ascending (series : List (List Bucket)) :
    (mergeBuckets series).Pairwise fun a b => a.tsMs < b.tsMs := by
  have hle : (mergeBuckets series).Pairwise fun a b => decide (a.tsMs ≤ b.tsMs) = true :=
    List.pairwise_mergeSort (fun a b c hab hbc => by simp only [decide_eq_true_eq] at *; omega)
      (fun a b => by simp only [Bool.or_eq_true, decide_eq_true_eq]; omega) _
  have hne := List.pairwise_map.mp (mergeBuckets_accumulated series).distinct
  exact (hle.and hne).imp fun h => lt_of_le_of_ne (of_decide_eq_true h.1) h.2

/-- **Merging metric buckets is independent of the order**: a merge has one bucket for each timestamp,
in time order and with the totals of that timestamp, and neither the order of the series nor merging
some of them first makes a difference. -/
theorem mergeBuckets_totals (series : List (List Bucket)) :
    (mergeBuckets series).Pairwise (fun a b => a.tsMs < b.tsMs) ∧
    (∀ ts, ts ∈ (mergeBuckets series).map Bucket.tsMs ↔ ∃ bs ∈ series, ts ∈ bs.map Bucket.tsMs) ∧
    (∀ b ∈ mergeBuckets series, Totals (stamped b.tsMs series.flatten) b) ∧
    (∀ series', series'.Perm series → mergeBuckets series' = mergeBuckets series) ∧
    ∀ more, mergeBuckets (mergeBuckets series :: more) = mergeBuckets (series ++ more) := by
  have haccumulated := mergeBuckets_accumulated series
  refine ⟨mergeBuckets_ascending series, fun ts => ?_, haccumulated.totals, fun series' hperm => ?_,
    fun more => ?_⟩
  · rw [haccumulated.timestamps]
    simp only [List.mem_map, List.mem_flatten]
    constructor
    · rintro ⟨b, ⟨bs, hbs, hb⟩, rfl⟩
      exact ⟨bs, hbs, b, hb, rfl⟩
    · rintro ⟨bs, hbs, b, hb, rfl⟩
      exact ⟨b, ⟨bs, hbs, hb⟩, rfl⟩
  · exact ((mergeBuckets_accumulated series').perm_left hperm.flatten).unique haccumulated
      (mergeBuckets_ascending _) (mergeBuckets_ascending _)
  · have hmore := mergeBuckets_accumulated (mergeBuckets series :: more)
    have hall := mergeBuckets_accumulated (series ++ more)
    rw [List.flatten_append] at hall
    exact (haccumulated.absorb hmore).unique hall (mergeBuckets_ascending _) (mergeBuckets_ascending _)

end Marshal.MetricStore
