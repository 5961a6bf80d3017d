import Mathlib.Algebra.Order.Ring.Rat

/-! The metric store: CPU and memory samples in one SQL table per agent.

A table is its rows in insertion order; a statement is what its SQL says, in the
places where SQL says it. The order of equal timestamps under `ORDER BY ts` is
SQLite's to choose, so `SamplesSince` is a relation: every order it may return. -/
namespace Marshal.MetricStore

/-- One instance reading at the `append` timestamp. -/
structure Sample where
  label : String
  cpu : ℚ
  mem : UInt64
deriving DecidableEq

/-- One stored row with its timestamp. -/
structure TimestampedSample where
  tsMs : Int
  label : String
  cpu : ℚ
  mem : UInt64
deriving DecidableEq

/-- A row of the table `samples`; memory is stored as a signed integer. -/
structure Row where
  ts : Int
  label : String
  cpu : ℚ
  mem : Int64
deriving DecidableEq

/-- One aggregated time bucket for a label. -/
structure Bucket where
  tsMs : Int
  cpuAvg : ℚ
  cpuMax : ℚ
  memAvg : UInt64
  memMax : UInt64
deriving DecidableEq

structure Store where
  rows : List Row := []
deriving DecidableEq

/-! ### Writing -/

/-- One row per sample, all stamped `tsMs`, in a single transaction. -/
def append (s : Store) (tsMs : Int) (samples : List Sample) : Store :=
  ⟨s.rows ++ samples.map fun sm => ⟨tsMs, sm.label, sm.cpu, sm.mem.toInt64⟩⟩

/-- `DELETE FROM samples WHERE ts < beforeMs`. -/
def prune (s : Store) (beforeMs : Int) : Store :=
  ⟨s.rows.filter fun r => beforeMs ≤ r.ts⟩

/-! ### Reading -/

def Row.read (r : Row) : TimestampedSample := ⟨r.ts, r.label, r.cpu, r.mem.toUInt64⟩

/-- `out` may answer `WHERE ts > tsMs ORDER BY ts`: the rows strictly newer, oldest first. -/
def SamplesSince (s : Store) (tsMs : Int) (out : List TimestampedSample) : Prop :=
  out.Perm ((s.rows.filter fun r => tsMs < r.ts).map Row.read) ∧
    out.Pairwise fun a b => a.tsMs ≤ b.tsMs

instance (s : Store) (tsMs : Int) (out : List TimestampedSample) :
    Decidable (SamplesSince s tsMs out) :=
  inferInstanceAs (Decidable (_ ∧ _))

/-- The query always has an answer. -/
theorem exists_samplesSince (s : Store) (tsMs : Int) : ∃ out, SamplesSince s tsMs out := by
  refine ⟨((s.rows.filter fun r => tsMs < r.ts).map Row.read).mergeSort
    (fun a b => decide (a.tsMs ≤ b.tsMs)), List.mergeSort_perm _ _, ?_⟩
  have hsorted : (((s.rows.filter fun r => tsMs < r.ts).map Row.read).mergeSort
      fun a b => decide (a.tsMs ≤ b.tsMs)).Pairwise fun a b => decide (a.tsMs ≤ b.tsMs) = true :=
    List.pairwise_mergeSort (fun a b c hab hbc => by simp only [decide_eq_true_eq] at *; omega)
    (fun a b => by simp only [Bool.or_eq_true, decide_eq_true_eq]; omega)
    ((s.rows.filter fun r => tsMs < r.ts).map Row.read)
  simpa only [decide_eq_true_eq] using hsorted

/-- The largest stored timestamp, or 0 when the store is empty. -/
def maxTs (s : Store) : Int := ((s.rows.map Row.ts).max?).getD 0

/-- The distinct labels, ascending. -/
def labels (s : Store) : List String :=
  ((s.rows.map Row.label).eraseDups).mergeSort (fun a b => decide (a ≤ b))

structure QueryReq where
  label : String
  /-- Inclusive lower bound. -/
  sinceMs : Int
  bucketMs : Int

/-- The aggregates of the rows of one bucket. -/
def aggregate (tsMs : Int) (rows : List Row) : Bucket :=
  let cpus := rows.map Row.cpu
  let mems : List Int := rows.map fun r => r.mem.toInt
  { tsMs := tsMs
    cpuAvg := cpus.sum / rows.length
    cpuMax := cpus.tail.foldl max (cpus.headD 0)
    memAvg := .ofNat (((mems.sum : Int) : ℚ) / rows.length + 1 / 2).floor.toNat  -- round, not truncate
    memMax := .ofNat (mems.tail.foldl max (mems.headD 0)).toNat }

/-- Time-bucketed aggregates for one label, oldest first. -/
def query (s : Store) (req : QueryReq) : Except String (List Bucket) :=
  if req.bucketMs ≤ 0 then .error "bucket width must be > 0"
  else
    let rows := s.rows.filter fun r => r.label = req.label ∧ req.sinceMs ≤ r.ts
    let bucket (r : Row) : Int := r.ts.tdiv req.bucketMs * req.bucketMs
    let keys := ((rows.map bucket).eraseDups).mergeSort (fun a b => decide (a ≤ b))
    .ok (keys.map fun k => aggregate k (rows.filter fun r => bucket r = k))

def targetBuckets : Int := 60
def minBucketMs : Int := 1000

/-- `bucketMs` when positive, else about `targetBuckets` buckets over the window. -/
def autoBucketMs (sinceMs bucketMs : Int) : Int :=
  if 0 < bucketMs then bucketMs
  else
    let b := sinceMs.tdiv targetBuckets
    if b < minBucketMs then minBucketMs else b

/-- Averages add up to the whole app's total; maxima are taken across instances. -/
def Bucket.merge (cur b : Bucket) : Bucket :=
  { cur with
    cpuAvg := cur.cpuAvg + b.cpuAvg
    memAvg := cur.memAvg + b.memAvg
    cpuMax := if cur.cpuMax < b.cpuMax then b.cpuMax else cur.cpuMax
    memMax := if cur.memMax < b.memMax then b.memMax else cur.memMax }

/-- Add a bucket to those merged so far, in order of first occurrence. -/
def addBucket (merged : List Bucket) (b : Bucket) : List Bucket :=
  if merged.any fun cur => cur.tsMs = b.tsMs then
    merged.map fun cur => if cur.tsMs = b.tsMs then cur.merge b else cur
  else merged ++ [b]

/-- Combine per-instance series sharing a bucket timestamp, oldest first. -/
def mergeBuckets (series : List (List Bucket)) : List Bucket :=
  (series.flatten.foldl addBucket []).mergeSort (fun a b => decide (a.tsMs ≤ b.tsMs))

/-! ### Small facts -/

@[simp] theorem rows_append (s : Store) (tsMs : Int) (samples : List Sample) :
    (append s tsMs samples).rows =
      s.rows ++ samples.map fun sm => ⟨tsMs, sm.label, sm.cpu, sm.mem.toInt64⟩ := rfl

/-- No row is newer than the watermark. -/
theorem le_maxTs (s : Store) (r : Row) (h : r ∈ s.rows) : r.ts ≤ maxTs s := by
  have hmem : r.ts ∈ s.rows.map Row.ts := List.mem_map_of_mem h
  cases hmax : (s.rows.map Row.ts).max? with
  | none => simp [List.max?_eq_none_iff.mp hmax] at hmem
  | some m =>
    simp only [maxTs, hmax, Option.getD_some]
    exact (List.max?_eq_some_iff.mp hmax).2 _ hmem

/-- The watermark is 0 or the timestamp of a stored row. -/
theorem maxTs_cases (s : Store) : maxTs s = 0 ∨ ∃ r ∈ s.rows, r.ts = maxTs s := by
  cases hmax : (s.rows.map Row.ts).max? with
  | none => exact .inl (by simp [maxTs, hmax])
  | some m =>
    right
    obtain ⟨r, hr, hts⟩ := List.mem_map.mp (List.max?_eq_some_iff.mp hmax).1
    exact ⟨r, hr, by simp [maxTs, hmax, hts]⟩

end Marshal.MetricStore
