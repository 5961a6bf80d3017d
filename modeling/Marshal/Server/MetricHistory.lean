import Mathlib.Algebra.Order.BigOperators.Group.List
import Mathlib.Order.Interval.Finset.Defs
import Mathlib.Data.Int.Interval
import Marshal.Lib.Grouping
import Marshal.MetricStore.Merge
import Marshal.Server.History

/-! The history of an app's CPU and memory.

A label's rows are grouped by the start of their bucket, and the charts of an app's instances are merged.
So every row of the window is in the bucket its time falls in, and a bucket has the greatest value of all
its rows and the sum of the instances' means (`historyOf_charts`). Where the width is chosen
by the server, a chart has about sixty buckets. -/
namespace Marshal.MetricStore

/-! ### One label -/

/-- Where the bucket of a time starts. -/
def slot (w ts : Int) : Int := ts.tdiv w * w

def Row.slot (w : Int) (r : Row) : Int := MetricStore.slot w r.ts

/-- The rows of a label from a time on. -/
def labelRows (s : Store) (lower : Int) (label : String) : List Row :=
  s.rows.filter fun r => r.label = label ∧ lower ≤ r.ts

/-- A label's aggregates, bucket by bucket. -/
def chart (w : Int) (rows : List Row) : List Bucket :=
  (Grouping.keys (Row.slot w) rows).map fun k => aggregate k (Grouping.pick (Row.slot w) rows k)

theorem query_eq (s : Store) (label : String) (lower : Int) {w : Int} (hw : 0 < w) :
    query s ⟨label, lower, w⟩ = .ok (chart w (labelRows s lower label)) := by
  unfold query
  rw [if_neg (not_le.mpr hw)]
  rfl

theorem autoBucketMs_pos (sinceMs bucketMs : Int) : 0 < autoBucketMs sinceMs bucketMs := by
  unfold autoBucketMs
  split
  · assumption
  · dsimp only
    split
    · decide
    · rename_i hge
      exact Int.lt_of_lt_of_le (by decide) (Int.not_lt.mp hge)

/-- Of a label's aggregates one is of a timestamp, if it has rows there. -/
theorem stamped_chart (w : Int) (rows : List Row) (ts : Int) :
    stamped ts (chart w rows) =
      if Grouping.pick (Row.slot w) rows ts = [] then [] else [aggregate ts (Grouping.pick (Row.slot w) rows ts)] := by
  have hstamped : stamped ts (chart w rows) = ((Grouping.keys (Row.slot w) rows).filter fun k => k = ts).map
      fun k => aggregate k (Grouping.pick (Row.slot w) rows k) := by
    rw [stamped, chart, List.filter_map]
    rfl
  have hnodup : (Grouping.keys (Row.slot w) rows).Nodup := (Grouping.keys_sorted rows).imp ne_of_lt
  rw [hstamped]
  split
  · rename_i hnone
    rw [List.map_eq_nil_iff, List.filter_eq_nil_iff]
    intro k hk hkts
    obtain ⟨r, hr, hrk⟩ := Grouping.mem_keys.mp hk
    have hmem := Grouping.mem_pick.mpr ⟨hr, hrk.trans (of_decide_eq_true hkts)⟩
    rw [hnone] at hmem
    cases hmem
  · rename_i hsome
    obtain ⟨r, hr⟩ := List.exists_mem_of_ne_nil _ hsome
    obtain ⟨hrow, hslot⟩ := Grouping.mem_pick.mp hr
    have hkey : ts ∈ Grouping.keys (Row.slot w) rows := Grouping.mem_keys.mpr ⟨r, hrow, hslot⟩
    have hone : ((Grouping.keys (Row.slot w) rows).filter fun k => k = ts) = [ts] := by
      refine List.perm_singleton.mp ((List.perm_ext_iff_of_nodup (hnodup.filter _) (List.nodup_singleton ts)).mpr ?_)
      intro k
      rw [List.mem_filter, List.mem_singleton, decide_eq_true_eq]
      exact ⟨And.right, fun hk => ⟨hk ▸ hkey, hk⟩⟩
    rw [hone, List.map_singleton]

theorem isGreatest_foldl_max {α : Type*} [LinearOrder α] (x : α) (xs : List α) :
    IsGreatest {y | y ∈ x :: xs} (xs.foldl max x) := by
  induction xs using List.reverseRecOn with
  | nil => simp [IsGreatest, upperBounds]
  | append_singleton xs z ih =>
    rw [List.foldl_concat]
    refine ⟨?_, fun y hy => ?_⟩
    · rcases max_choice (xs.foldl max x) z with h | h
      · rw [h]
        exact List.mem_append_left [z] ih.1
      · rw [h]
        exact List.mem_append_right (x :: xs) (List.mem_singleton_self z)
    · rcases List.mem_append.mp (show y ∈ (x :: xs) ++ [z] from hy) with hy | hy
      · exact (ih.2 hy).trans (le_max_left _ _)
      · rw [List.mem_singleton.mp hy]
        exact le_max_right _ _

theorem isGreatest_tail {α : Type*} [LinearOrder α] {xs : List α} (hxs : xs ≠ []) (d : α) :
    IsGreatest {y | y ∈ xs} (xs.tail.foldl max (xs.headD d)) := by
  obtain ⟨x, rest, rfl⟩ := List.exists_cons_of_ne_nil hxs
  exact isGreatest_foldl_max x rest

theorem aggregate_cpuMax (ts : Int) {rows : List Row} (hrows : rows ≠ []) :
    IsGreatest {x | x ∈ rows.map Row.cpu} (aggregate ts rows).cpuMax :=
  isGreatest_tail (by simpa using hrows) 0

theorem aggregate_memMax (ts : Int) {rows : List Row} (hrows : rows ≠ []) :
    IsGreatest {n | n ∈ rows.map fun r => r.mem.toInt.toNat} (aggregate ts rows).memMax.toNat := by
  let mems : List Int := rows.map fun r => r.mem.toInt
  have hgreatest : IsGreatest {y | y ∈ mems} (mems.tail.foldl max (mems.headD 0)) :=
    isGreatest_tail (by simpa [mems] using hrows) 0
  have hmax : (aggregate ts rows).memMax.toNat = (mems.tail.foldl max (mems.headD 0)).toNat := by
    obtain ⟨r, -, hr⟩ := List.mem_map.mp hgreatest.1
    have hlt : r.mem.toInt.toNat < UInt64.size := by
      have hbound := r.mem.toInt_lt
      have hsize : UInt64.size = 2 ^ 64 := rfl
      omega
    show (UInt64.ofNat (mems.tail.foldl max (mems.headD 0)).toNat).toNat = _
    rw [← hr]
    exact UInt64.toNat_ofNat_of_lt' hlt
  rw [hmax]
  constructor
  · obtain ⟨r, hr, hmem⟩ := List.mem_map.mp hgreatest.1
    exact List.mem_map.mpr ⟨r, hr, congrArg Int.toNat hmem⟩
  · intro n hn
    obtain ⟨r, hr, rfl⟩ := List.mem_map.mp hn
    exact Int.toNat_le_toNat (hgreatest.2 (List.mem_map.mpr ⟨r, hr, rfl⟩))

end Marshal.MetricStore

namespace Marshal.Server
open MetricStore

/-! ### An app -/

section App
variable (st : MetricStore.Store) (selector : String) (lower w : Int)

/-- The rows of an app's instances from a time on. -/
def window : List Row := st.rows.filter fun r => selects selector r.label ∧ lower ≤ r.ts

/-- The rows of one instance in one bucket. -/
def cell (label : String) (ts : Int) : List Row := Grouping.pick (Row.slot w) (labelRows st lower label) ts

/-- The instances that have rows in a bucket. -/
def instancesAt (ts : Int) : List String :=
  ((labels st).filter (selects selector)).filter fun l => cell st lower w l ts ≠ []

def mean (rows : List Row) : ℚ := (rows.map Row.cpu).sum / rows.length

/-- What the chart of an app is to the app's rows. -/
structure Charted (out : List Bucket) : Prop where
  ascending : out.Pairwise fun a b => a.tsMs < b.tsMs
  slots : ∀ ts, ts ∈ out.map Bucket.tsMs ↔ ∃ r ∈ window st selector lower, r.slot w = ts
  cpuMax : ∀ b ∈ out, IsGreatest {x | ∃ r ∈ window st selector lower, r.slot w = b.tsMs ∧ r.cpu = x} b.cpuMax
  cpuAvg : ∀ b ∈ out, b.cpuAvg =
    ((instancesAt st selector lower w b.tsMs).map fun l => mean (cell st lower w l b.tsMs)).sum
  /-- Of amounts that a 64-bit integer holds. -/
  memMax : (∀ r ∈ window st selector lower, 0 ≤ r.mem.toInt) → ∀ b ∈ out,
    IsGreatest {n | ∃ r ∈ window st selector lower, r.slot w = b.tsMs ∧ r.mem.toInt.toNat = n} b.memMax.toNat

/-- The charts of an app's instances, merged. -/
def appChart : List Bucket :=
  mergeBuckets (((labels st).filter (selects selector)).map fun l => chart w (labelRows st lower l))

variable {st selector lower w}

theorem mem_metricLabels {l : String} : l ∈ labels st ↔ ∃ r ∈ st.rows, r.label = l := by
  rw [labels, List.mem_mergeSort, List.mem_eraseDups, List.mem_map]

theorem mem_cell {l : String} {ts : Int} {r : Row} :
    r ∈ cell st lower w l ts ↔ r ∈ st.rows ∧ (r.label = l ∧ lower ≤ r.ts) ∧ r.slot w = ts := by
  rw [cell, Grouping.mem_pick, labelRows, List.mem_filter, decide_eq_true_eq, and_assoc]

/-- The rows of a bucket are those of the instances that have some in it. -/
theorem mem_window {ts : Int} {r : Row} : (r ∈ window st selector lower ∧ r.slot w = ts) ↔
    ∃ l ∈ instancesAt st selector lower w ts, r ∈ cell st lower w l ts := by
  rw [window, List.mem_filter, decide_eq_true_eq]
  constructor
  · intro h
    obtain ⟨⟨hrow, hselects, hlower⟩, hslot⟩ := h
    have hcell : r ∈ cell st lower w r.label ts := mem_cell.mpr ⟨hrow, ⟨rfl, hlower⟩, hslot⟩
    refine ⟨r.label, List.mem_filter.mpr ⟨List.mem_filter.mpr ⟨mem_metricLabels.mpr ⟨r, hrow, rfl⟩, hselects⟩, ?_⟩, hcell⟩
    exact decide_eq_true (List.ne_nil_of_mem hcell)
  · intro h
    obtain ⟨l, hl, hr⟩ := h
    obtain ⟨hrow, ⟨hlabel, hlower⟩, hslot⟩ := mem_cell.mp hr
    have hselects := (List.mem_filter.mp (List.mem_filter.mp hl).1).2
    exact ⟨⟨hrow, hlabel ▸ hselects, hlower⟩, hslot⟩

/-- The buckets of one timestamp, instance by instance. -/
theorem stamped_flatten (ts : Int) :
    stamped ts (((labels st).filter (selects selector)).map fun l => chart w (labelRows st lower l)).flatten =
      (instancesAt st selector lower w ts).map fun l => aggregate ts (cell st lower w l ts) := by
  rw [instancesAt]
  induction (labels st).filter (selects selector) with
  | nil => rfl
  | cons l rest ih =>
    rw [List.map_cons, List.flatten_cons, stamped_append, ih, stamped_chart, List.filter_cons]
    by_cases hnone : Grouping.pick (Row.slot w) (labelRows st lower l) ts = []
    · have hcell : ¬ decide (cell st lower w l ts ≠ []) = true := by
        rw [decide_eq_true_eq]
        exact not_not.mpr hnone
      rw [if_pos hnone, if_neg hcell]
      rfl
    · have hcell : decide (cell st lower w l ts ≠ []) = true := decide_eq_true hnone
      rw [if_neg hnone, if_pos hcell]
      rfl

theorem cell_ne_nil {l : String} {ts : Int} (h : l ∈ instancesAt st selector lower w ts) : cell st lower w l ts ≠ [] :=
  of_decide_eq_true (List.mem_filter.mp h).2

theorem appChart_charted : Charted st selector lower w (appChart st selector lower w) := by
  have hall := mergeBuckets_accumulated
    (((labels st).filter (selects selector)).map fun l => chart w (labelRows st lower l))
  have htotals := hall.totals
  simp only [stamped_flatten] at htotals
  refine ⟨mergeBuckets_ascending _, fun ts => ?_, fun b hb => ?_, fun b hb => ?_, fun _ b hb => ?_⟩
  · have hstamp : ts ∈ (((labels st).filter (selects selector)).map fun l => chart w (labelRows st lower l)).flatten.map
        Bucket.tsMs ↔ stamped ts (((labels st).filter (selects selector)).map fun l =>
          chart w (labelRows st lower l)).flatten ≠ [] := by
      constructor
      · intro h hnone
        obtain ⟨b, hb, hts⟩ := List.mem_map.mp h
        have hmem : b ∈ stamped ts _ := List.mem_filter.mpr ⟨hb, decide_eq_true hts⟩
        rw [hnone] at hmem
        cases hmem
      · intro h
        by_contra hts
        exact h (stamped_eq_nil _ hts)
    rw [appChart, hall.timestamps, hstamp, stamped_flatten, ne_eq, List.map_eq_nil_iff]
    constructor
    · intro h
      obtain ⟨l, hl⟩ := List.exists_mem_of_ne_nil _ h
      obtain ⟨r, hr⟩ := List.exists_mem_of_ne_nil _ (cell_ne_nil hl)
      exact ⟨r, mem_window.mpr ⟨l, hl, hr⟩⟩
    · intro h hnone
      obtain ⟨r, hr⟩ := h
      obtain ⟨l, hl, -⟩ := mem_window.mp hr
      rw [hnone] at hl
      cases hl
  · have hmax := (htotals b hb).cpuMax
    constructor
    · obtain ⟨c, hc, hcb⟩ := List.mem_map.mp hmax.1
      obtain ⟨l, hl, rfl⟩ := List.mem_map.mp hc
      obtain ⟨r, hr, hcpu⟩ := List.mem_map.mp (aggregate_cpuMax b.tsMs (cell_ne_nil hl)).1
      have hwindow := mem_window.mpr ⟨l, hl, hr⟩
      exact ⟨r, hwindow.1, hwindow.2, hcpu.trans hcb⟩
    · intro x hx
      obtain ⟨r, hr, hslot, rfl⟩ := hx
      obtain ⟨l, hl, hcell⟩ := mem_window.mp ⟨hr, hslot⟩
      refine ((aggregate_cpuMax b.tsMs (cell_ne_nil hl)).2 (List.mem_map_of_mem hcell)).trans (hmax.2 ?_)
      exact List.mem_map_of_mem (List.mem_map_of_mem hl)
  · rw [(htotals b hb).cpuAvg, List.map_map]
    rfl
  · have hmax := (htotals b hb).memMax
    constructor
    · obtain ⟨c, hc, hcb⟩ := List.mem_map.mp hmax.1
      obtain ⟨l, hl, rfl⟩ := List.mem_map.mp hc
      obtain ⟨r, hr, hmem⟩ := List.mem_map.mp (aggregate_memMax b.tsMs (cell_ne_nil hl)).1
      have hwindow := mem_window.mpr ⟨l, hl, hr⟩
      exact ⟨r, hwindow.1, hwindow.2, hmem.trans hcb⟩
    · intro n hn
      obtain ⟨r, hr, hslot, rfl⟩ := hn
      obtain ⟨l, hl, hin⟩ := mem_window.mp ⟨hr, hslot⟩
      refine ((aggregate_memMax b.tsMs (cell_ne_nil hl)).2 (List.mem_map_of_mem hin)).trans (hmax.2 ?_)
      exact List.mem_map.mpr ⟨_, List.mem_map_of_mem hl, rfl⟩

/-! ### How many buckets -/

/-- A time that is not negative lies in its bucket. -/
theorem slot_bounds (hw : 0 < w) {ts : Int} (hts : 0 ≤ ts) : slot w ts ≤ ts ∧ ts < slot w ts + w := by
  have hsplit := Int.tdiv_mul_add_tmod ts w
  have hnonneg := Int.tmod_nonneg w hts
  have hlt := Int.tmod_lt_of_pos ts hw
  rw [slot]
  omega

/-- How far the buckets of two times are apart. -/
theorem slots_apart (hw : 0 < w) {lo hi : Int} (h : lo ≤ hi) : (hi.tdiv w - lo.tdiv w) * w < hi - lo + w := by
  have hlo := Int.tdiv_mul_add_tmod lo w
  have hhi := Int.tdiv_mul_add_tmod hi w
  have hrest : lo.tmod w - hi.tmod w < w := by
    rcases Int.le_total 0 hi with hpos | hneg
    · have hnonneg := Int.tmod_nonneg w hpos
      have hlt := Int.tmod_lt_of_pos lo hw
      omega
    · have hnonneg := Int.tmod_nonneg w (Int.neg_nonneg_of_nonpos (h.trans hneg))
      have hlt := Int.lt_tmod_of_pos hi hw
      rw [Int.neg_tmod] at hnonneg
      omega
  rw [Int.sub_mul]
  omega

/-- There are no more buckets than between the first and the last time. -/
theorem appChart_length (hw : 0 < w) {hi : Int} (hnow : ∀ r ∈ st.rows, r.ts ≤ hi) :
    (appChart st selector lower w).length ≤ (hi.tdiv w + 1 - lower.tdiv w).toNat := by
  have hcharted : Charted st selector lower w (appChart st selector lower w) := appChart_charted
  have hnodup : ((appChart st selector lower w).map Bucket.tsMs).Nodup :=
    List.pairwise_map.mpr (hcharted.ascending.imp ne_of_lt)
  have hsubset : ((appChart st selector lower w).map Bucket.tsMs).toFinset ⊆
      (Finset.Icc (lower.tdiv w) (hi.tdiv w)).image (· * w) := by
    intro ts hts
    obtain ⟨r, hr, rfl⟩ := (hcharted.slots ts).mp (List.mem_toFinset.mp hts)
    obtain ⟨hrow, hwindow⟩ := List.mem_filter.mp hr
    rw [decide_eq_true_eq] at hwindow
    rw [Finset.mem_image]
    exact ⟨r.ts.tdiv w, Finset.mem_Icc.mpr ⟨Int.tdiv_le_tdiv hw hwindow.2, Int.tdiv_le_tdiv hw (hnow r hrow)⟩, rfl⟩
  have hcard := (Finset.card_le_card hsubset).trans Finset.card_image_le
  rwa [List.toFinset_card_of_nodup hnodup, List.length_map, Int.card_Icc] at hcard

/-- The server's width for a window. -/
theorem autoBucketMs_window {sinceMs : Int} (h : 0 ≤ sinceMs) :
    sinceMs < (targetBuckets + 1) * autoBucketMs sinceMs 0 := by
  unfold autoBucketMs targetBuckets minBucketMs
  rw [if_neg (by decide)]
  dsimp only
  rw [Int.tdiv_eq_ediv_of_nonneg h]
  split
  · omega
  · omega

theorem appChart_sixty {sinceMs nowMs : Int} (hsince : 0 ≤ sinceMs) (hnow : ∀ r ∈ st.rows, r.ts ≤ nowMs) :
    (appChart st selector (nowMs - sinceMs) (autoBucketMs sinceMs 0)).length ≤ targetBuckets.toNat + 2 := by
  have hw := autoBucketMs_pos sinceMs 0
  refine (appChart_length hw hnow).trans ?_
  have happart := slots_apart hw (Int.sub_le_self nowMs hsince)
  have hwindow := autoBucketMs_window hsince
  generalize autoBucketMs sinceMs 0 = w at *
  have hlt : (nowMs.tdiv w - (nowMs - sinceMs).tdiv w) * w < (targetBuckets + 2) * w := by
    rw [Int.add_mul] at hwindow ⊢
    omega
  have hcount := Int.lt_of_mul_lt_mul_right hlt (Int.le_of_lt hw)
  unfold targetBuckets at *
  omega

end App

theorem historyOf_ok (st : MetricStore.Store) (selector : String) (sinceMs bucketMs nowMs : Int) :
    historyOf st selector sinceMs bucketMs nowMs .none =
      .ok (appChart st selector (nowMs - sinceMs) (autoBucketMs sinceMs bucketMs)) := by
  have hseries : ∀ ls : List String, (ls.mapM fun l =>
      query st ⟨l, nowMs - sinceMs, autoBucketMs sinceMs bucketMs⟩) =
      .ok (ls.map fun l => chart (autoBucketMs sinceMs bucketMs) (labelRows st (nowMs - sinceMs) l)) := by
    intro ls
    induction ls with
    | nil => rfl
    | cons l rest ih =>
      rw [List.mapM_cons, query_eq _ _ _ (autoBucketMs_pos sinceMs bucketMs), ih]
      rfl
  rw [historyOf, hseries]
  rfl

end Marshal.Server
