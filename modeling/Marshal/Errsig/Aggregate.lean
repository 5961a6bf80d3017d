import Mathlib.Algebra.Group.Int.Defs
import Mathlib.Algebra.Group.Nat.Defs
import Mathlib.Algebra.GroupWithZero.Nat
import Mathlib.Data.Finset.Sort
import Mathlib.Data.List.Sort
import Mathlib.Data.String.Basic
import Marshal.Errsig
import Marshal.Lib.Rollup

/-! The aggregation of error lines: one pass over the lines of a window, with a rollup for
each signature in the order of their first lines, and totals beside them. -/
namespace Marshal.Errsig

/-- One stderr line, tagged with its agent. -/
structure Line where
  tsMs : Int
  /-- `app#instance` -/
  label : String
  text : String
  agent : String
  deriving DecidableEq, Repr

/-- One signature over the window. -/
structure Sig where
  id : String
  /-- The first line, as it was. -/
  sample : String
  /-- `file:line`, `""` if unknown. -/
  source : String
  agent : String
  proc : String
  affected : List String
  count : Nat
  firstUnix : Int
  lastUnix : Int
  buckets : List Nat
  deriving DecidableEq, Repr

structure Cluster where
  errors : Nat := 0
  signatures : Nat := 0
  affectedProcs : Nat := 0
  lastErrorUnix : Int := 0
  deriving DecidableEq, Repr

structure Result where
  cluster : Cluster
  signatures : List Sig
  deriving DecidableEq, Repr

/-- 64-bit arithmetic. -/
def wrap (n : Int) : Int := n.bmod (2 ^ 64)

structure Window where
  sinceMs : Int
  nowMs : Int
  nBuckets : Int

namespace Window

def buckets (w : Window) : Int := if w.nBuckets < 1 then 1 else w.nBuckets

def span (w : Window) : Int :=
  let span := wrap (w.nowMs - w.sinceMs)
  if span ≤ 0 then 1 else span

/-- The bucket of a time, the nearest one if it is outside the window. -/
def bucket (w : Window) (tsMs : Int) : Nat :=
  let b := (wrap (wrap (tsMs - w.sinceMs) * w.buckets)).tdiv w.span
  (if b < 0 then 0 else if w.buckets ≤ b then w.buckets - 1 else b).toNat

end Window

/-- In whole seconds, toward zero. -/
def Line.sec (ln : Line) : Int := ln.tsMs.tdiv 1000

structure Acc where
  sig : Sig
  affected : Finset String := ∅

/-- The pass: the rollups by signature, in the order of their first lines, and the totals. -/
structure State where
  cluster : Cluster := {}
  m : List (String × Acc) := []
  allProcs : Finset String := ∅

variable (lib : Library) (w : Window)

/-- Whether the line is counted. -/
def counts (ln : Line) : Bool := !(decide (ln.tsMs < w.sinceMs) || !IsError lib ln.text)

/-- The line and, if it begins a trace, up to five lines that the same process wrote after it. -/
def traceWindow (ln : Line) (rest : List Line) : List String :=
  let after := rest.takeWhile fun l => l.label == ln.label && l.agent == ln.agent
  ln.text :: if isTraceHeader lib ln.text then (after.take 5).map Line.text else []

/-- The rollup that a signature's first line begins. -/
def newAcc (ln : Line) (rest : List Line) : Acc :=
  { sig :=
      { id := Signature lib ln.text, sample := ln.text, source := Source (traceWindow lib ln rest)
        agent := "", proc := "", affected := [], count := 0, firstUnix := ln.sec, lastUnix := 0
        buckets := List.replicate w.buckets.toNat 0 } }

def Acc.record (a : Acc) (ln : Line) : Acc :=
  { sig :=
      { a.sig with
        count := a.sig.count + 1, lastUnix := ln.sec, agent := ln.agent, proc := ln.label
        buckets := a.sig.buckets.modify (w.bucket ln.tsMs) (· + 1) }
    affected := insert ln.label a.affected }

/-- One more line, with what follows it, into the rollup of its signature. -/
def roll : List (String × Acc) → Line × List Line → List (String × Acc) :=
  Rollup.add (fun x => Signature lib x.1.text) (fun x => newAcc lib w x.1 x.2) fun a x => a.record w x.1

def step (s : State) (x : Line × List Line) : State :=
  if counts lib w x.1 then
    let sec := x.1.sec
    { cluster :=
        { s.cluster with
          errors := s.cluster.errors + 1
          lastErrorUnix := if s.cluster.lastErrorUnix < sec then sec else s.cluster.lastErrorUnix }
      m := roll lib w s.m x
      allProcs := insert x.1.label s.allProcs }
  else s

/-- Every line with what follows it. -/
def withRest : List Line → List (Line × List Line)
  | [] => []
  | ln :: rest => (ln, rest) :: withRest rest

def fold (lines : List Line) : State := (withRest lines).foldl (step lib w) {}

/-- `sigs[i]` goes before `sigs[j]`. -/
def Sig.less (a b : Sig) : Bool :=
  if a.count ≠ b.count then decide (a.count > b.count) else decide (a.lastUnix > b.lastUnix)

/-- What stays in place in a stable sort. -/
def Sig.inPlace (a b : Sig) : Prop := b.less a = false

instance : DecidableRel Sig.inPlace := fun _ _ => inferInstanceAs (Decidable (_ = _))

def Acc.finish (a : Acc) : Sig := { a.sig with affected := a.affected.sort (· ≤ ·) }

def Aggregate (lines : List Line) (sinceMs nowMs nBuckets : Int) : Result :=
  let s := fold lib ⟨sinceMs, nowMs, nBuckets⟩ lines
  let sigs := (s.m.map fun e => e.2.finish).insertionSort Sig.inPlace
  { cluster := { s.cluster with signatures := sigs.length, affectedProcs := s.allProcs.card }
    signatures := sigs }

/-! ### What a rollup holds -/

/-- The rollup sums the lines up. -/
structure Sums (occ : List Line) (a : Acc) : Prop where
  id : occ.head?.map (fun ln => Signature lib ln.text) = some a.sig.id
  sample : occ.head?.map Line.text = some a.sig.sample
  first : occ.head?.map Line.sec = some a.sig.firstUnix
  last : occ.getLast?.map Line.sec = some a.sig.lastUnix
  agent : occ.getLast?.map Line.agent = some a.sig.agent
  proc : occ.getLast?.map Line.label = some a.sig.proc
  affected : a.affected = (occ.map Line.label).toFinset
  count : a.sig.count = occ.length
  buckets_length : a.sig.buckets.length = w.buckets.toNat
  buckets_sum : a.sig.buckets.sum = occ.length

variable {lib w}

theorem buckets_pos (w : Window) : 0 < w.buckets := by
  unfold Window.buckets
  split <;> omega

theorem bucket_lt (w : Window) (tsMs : Int) : w.bucket tsMs < w.buckets.toNat := by
  have hpos := buckets_pos w
  unfold Window.bucket
  simp only
  split_ifs <;> omega

theorem sum_modify {l : List Nat} {i : Nat} (h : i < l.length) : (l.modify i (· + 1)).sum = l.sum + 1 := by
  induction l generalizing i with
  | nil => cases h
  | cons n rest ih =>
    cases i with
    | zero =>
      simp only [List.modify_zero_cons, List.sum_cons]
      omega
    | succ i =>
      simp only [List.modify_succ_cons, List.sum_cons, ih (Nat.lt_of_succ_lt_succ h)]
      omega

theorem Sums.ne_nil {occ : List Line} {a : Acc} (h : Sums lib w occ a) : occ ≠ [] := by
  rintro rfl
  cases h.first

/-- The first line. -/
theorem sums_new (ln : Line) (rest : List Line) :
    Sums lib w [ln] ((newAcc lib w ln rest).record w ln) where
  id := rfl
  sample := rfl
  first := rfl
  last := rfl
  agent := rfl
  proc := rfl
  affected := rfl
  count := rfl
  buckets_length := by simp [Acc.record, newAcc]
  buckets_sum := by
    have hlt : w.bucket ln.tsMs < (List.replicate w.buckets.toNat 0).length := by
      rw [List.length_replicate]
      exact bucket_lt w ln.tsMs
    simp only [Acc.record, newAcc]
    rw [sum_modify hlt]
    simp

/-- One more line. -/
theorem Sums.record {occ : List Line} {a : Acc} (h : Sums lib w occ a) (ln : Line) :
    Sums lib w (occ ++ [ln]) (a.record w ln) := by
  obtain ⟨o, rest, rfl⟩ := List.exists_cons_of_ne_nil h.ne_nil
  have hlast : (o :: rest ++ [ln]).getLast? = some ln := List.getLast?_concat
  have hlt : w.bucket ln.tsMs < a.sig.buckets.length := by
    rw [h.buckets_length]
    exact bucket_lt w ln.tsMs
  refine ⟨h.id, h.sample, h.first, ?_, ?_, ?_, ?_, ?_, ?_, ?_⟩
  · rw [hlast]
    rfl
  · rw [hlast]
    rfl
  · rw [hlast]
    rfl
  · simp only [Acc.record, h.affected]
    ext l
    simp
    tauto
  · simp only [Acc.record, h.count, List.length_append, List.length_singleton]
  · simp only [Acc.record, List.length_modify, h.buckets_length]
  · simp only [Acc.record, sum_modify hlt, h.buckets_sum, List.length_append, List.length_singleton]

theorem sums_foldl (ln : Line) (after rest : List Line) :
    Sums lib w (ln :: rest) ((ln :: rest).foldl (Acc.record w) (newAcc lib w ln after)) := by
  induction rest using List.reverseRecOn with
  | nil => exact sums_new ln after
  | append_singleton rest x ih =>
    rw [← List.cons_append, List.foldl_append]
    exact ih.record x

/-! ### The pass -/

variable (lib w)

def counted (lines : List Line) : List Line := lines.filter (counts lib w)

/-- The lines of a signature that are counted. -/
def occurrences (lines : List Line) (id : String) : List Line :=
  (counted lib w lines).filter fun ln => Signature lib ln.text = id

/-- The counted lines with what follows them. -/
def countedWithRest (lines : List Line) : List (Line × List Line) :=
  (withRest lines).filter fun x => counts lib w x.1

variable {lib w}

theorem withRest_fst (lines : List Line) : (withRest lines).map Prod.fst = lines := by
  induction lines with
  | nil => rfl
  | cons ln rest ih => simp only [withRest, List.map_cons, ih]

theorem countedWithRest_fst (lines : List Line) :
    (countedWithRest lib w lines).map Prod.fst = counted lib w lines := by
  rw [counted, ← withRest_fst lines, List.filter_map, withRest_fst]
  rfl

/-- The pass treats rollups and totals apart. -/
theorem foldl_step (xs : List (Line × List Line)) (s : State) :
    xs.foldl (step lib w) s =
      let occ := xs.filter fun x => counts lib w x.1
      { cluster :=
          { s.cluster with
            errors := s.cluster.errors + occ.length
            lastErrorUnix := occ.foldl (fun t x => max t x.1.sec) s.cluster.lastErrorUnix }
        m := occ.foldl (roll lib w) s.m
        allProcs := s.allProcs ∪ (occ.map fun x => x.1.label).toFinset } := by
  induction xs generalizing s with
  | nil => simp
  | cons x rest ih =>
    rw [List.foldl_cons, ih, step]
    cases hx : counts lib w x.1 with
    | false => simp [hx]
    | true =>
      have hmax : (if s.cluster.lastErrorUnix < x.1.sec then x.1.sec else s.cluster.lastErrorUnix) =
          max s.cluster.lastErrorUnix x.1.sec := by
        split <;> omega
      simp only [hx, hmax, if_true, List.filter_cons_of_pos, List.length_cons, List.foldl_cons,
        List.map_cons, List.toFinset_cons, Finset.insert_union, Finset.union_insert]
      rw [Nat.add_assoc, Nat.add_comm 1]

theorem fold_errors (lines : List Line) :
    (fold lib w lines).cluster.errors = (counted lib w lines).length := by
  rw [← countedWithRest_fst, List.length_map, fold, foldl_step]
  exact Nat.zero_add _

theorem fold_lastErrorUnix (lines : List Line) :
    (fold lib w lines).cluster.lastErrorUnix =
      (counted lib w lines).foldl (fun t ln => max t ln.sec) 0 := by
  rw [← countedWithRest_fst, List.foldl_map, fold, foldl_step]
  rfl

theorem fold_allProcs (lines : List Line) :
    (fold lib w lines).allProcs = ((counted lib w lines).map Line.label).toFinset := by
  rw [← countedWithRest_fst, List.map_map, fold, foldl_step]
  exact Finset.empty_union _

theorem fold_m (lines : List Line) :
    (fold lib w lines).m = (countedWithRest lib w lines).foldl (roll lib w) [] := by
  rw [fold, foldl_step]
  rfl

theorem fold_ids (lines : List Line) : ((fold lib w lines).m.map Prod.fst).Nodup := by
  rw [fold_m]
  exact Rollup.nodup_foldl _

/-- A rollup sums up the occurrences of its signature. -/
theorem fold_sums {lines : List Line} {e : String × Acc} (h : e ∈ (fold lib w lines).m) :
    e.2.sig.id = e.1 ∧ Sums lib w (occurrences lib w lines e.1) e.2 := by
  rw [fold_m] at h
  have htotal := Rollup.mem_foldl.mp h
  have hocc : (Rollup.group (fun x => Signature lib x.1.text) (countedWithRest lib w lines) e.1).map Prod.fst =
      occurrences lib w lines e.1 := by
    rw [occurrences, ← countedWithRest_fst, List.filter_map]
    rfl
  cases hgroup : Rollup.group (fun x => Signature lib x.1.text) (countedWithRest lib w lines) e.1 with
  | nil =>
    rw [hgroup] at htotal
    cases htotal
  | cons x rest =>
    rw [hgroup, Rollup.total, Option.some.injEq] at htotal
    have hsums : Sums lib w (occurrences lib w lines e.1) e.2 := by
      rw [← hocc, hgroup, ← htotal, ← List.foldl_map]
      exact sums_foldl x.1 x.2 _
    refine ⟨?_, hsums⟩
    have hx := (Rollup.mem_group.mp (hgroup ▸ List.mem_cons_self : x ∈ Rollup.group _ _ e.1)).2
    have hid := hsums.id
    rw [← hocc, hgroup] at hid
    exact (Option.some.inj hid).symm.trans hx

theorem exists_rollup {lines : List Line} {ln : Line} (h : ln ∈ counted lib w lines) :
    ∃ e ∈ (fold lib w lines).m, e.1 = Signature lib ln.text := by
  rw [← countedWithRest_fst, List.mem_map] at h
  obtain ⟨x, hx, rfl⟩ := h
  rw [fold_m]
  exact Rollup.exists_foldl hx

/-! ### The signatures of the result -/

theorem signatures_perm (lines : List Line) (w : Window) :
    (Aggregate lib lines w.sinceMs w.nowMs w.nBuckets).signatures.Perm
      ((fold lib w lines).m.map fun e => e.2.finish) :=
  List.perm_insertionSort _ _

theorem ids_perm (lines : List Line) (w : Window) :
    ((Aggregate lib lines w.sinceMs w.nowMs w.nBuckets).signatures.map Sig.id).Perm
      ((fold lib w lines).m.map Prod.fst) := by
  have hids : ((fold lib w lines).m.map fun e => e.2.finish).map Sig.id = (fold lib w lines).m.map Prod.fst := by
    rw [List.map_map]
    exact List.map_congr_left fun e he => (fold_sums he).1
  rw [← hids]
  exact (signatures_perm lines w).map _

theorem ids_nodup (lines : List Line) (w : Window) :
    ((Aggregate lib lines w.sinceMs w.nowMs w.nBuckets).signatures.map Sig.id).Nodup :=
  (ids_perm lines w).nodup_iff.mpr (fold_ids lines)

/-- A signature of the result sums its occurrences up. -/
theorem signature_sums {lines : List Line} {s : Sig}
    (h : s ∈ (Aggregate lib lines w.sinceMs w.nowMs w.nBuckets).signatures) :
    ∃ a : Acc, s = a.finish ∧ Sums lib w (occurrences lib w lines s.id) a := by
  obtain ⟨e, he, rfl⟩ := List.mem_map.mp ((signatures_perm lines w).mem_iff.mp h)
  obtain ⟨hid, hsums⟩ := fold_sums he
  refine ⟨e.2, rfl, ?_⟩
  show Sums lib w (occurrences lib w lines e.2.sig.id) e.2
  rwa [hid]

/-- There is a signature for each occurrence. -/
theorem exists_signature {lines : List Line} {ln : Line} (h : ln ∈ counted lib w lines) :
    ∃ s ∈ (Aggregate lib lines w.sinceMs w.nowMs w.nBuckets).signatures, s.id = Signature lib ln.text := by
  obtain ⟨e, he, hid⟩ := exists_rollup h
  refine ⟨e.2.finish, (signatures_perm lines w).mem_iff.mpr (List.mem_map_of_mem he), ?_⟩
  exact (fold_sums he).1.trans hid

end Marshal.Errsig
