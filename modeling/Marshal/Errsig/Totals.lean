import Marshal.Errsig.Aggregate
import Marshal.Lib.Grouping

/-! Totals and rollups of one aggregation count the same lines, in whatever order these come. -/
namespace Marshal.Errsig

variable (lib : Library)

/-- What the totals and the signatures say of the lines. -/
structure Conserved (lines : List Line) (sinceMs nBuckets : Int) (r : Result) : Prop where
  counts : (r.signatures.map Sig.count).sum = r.cluster.errors
  errors : r.cluster.errors = (lines.filter fun ln => sinceMs ≤ ln.tsMs ∧ IsError lib ln.text = true).length
  buckets : ∀ s ∈ r.signatures,
    (s.buckets.length : Int) = max nBuckets 1 ∧ s.buckets.sum = s.count
  ids : (r.signatures.map Sig.id).Nodup
  affected : ∀ s ∈ r.signatures, s.affected.Pairwise (· < ·)
  procs : r.cluster.affectedProcs = ((r.signatures.flatMap Sig.affected).toFinset).card

/-- The count under an id, 0 if there is none. -/
def Result.countOf (r : Result) (id : String) : Nat :=
  ((Keyed.first Sig.id r.signatures id).map Sig.count).getD 0

variable {lib} {lines lines' : List Line} {sinceMs nowMs nBuckets : Int}

section
variable {w : Window}

theorem counted_perm (h : lines.Perm lines') : (counted lib w lines).Perm (counted lib w lines') :=
  h.filter _

/-- The occurrences of all signatures are the counted lines. -/
theorem sum_occurrences {ids : List String} (hids : ids.Nodup)
    (hall : ∀ ln ∈ counted lib w lines, Signature lib ln.text ∈ ids) :
    (ids.map fun id => (occurrences lib w lines id).length).sum = (counted lib w lines).length := by
  have hperm : (ids.flatMap (Grouping.pick (fun ln : Line => Signature lib ln.text) (counted lib w lines))).Perm
      (counted lib w lines) := Grouping.flatMap_pick_perm hids hall
  rw [← hperm.length_eq, List.length_flatMap]
  rfl

theorem countOf_aggregate (id : String) :
    (Aggregate lib lines w.sinceMs w.nowMs w.nBuckets).countOf id = (occurrences lib w lines id).length := by
  unfold Result.countOf
  cases hfirst : Keyed.first Sig.id (Aggregate lib lines w.sinceMs w.nowMs w.nBuckets).signatures id with
  | some s =>
    obtain ⟨hs, rfl⟩ := Keyed.mem_of_first hfirst
    obtain ⟨a, rfl, hsums⟩ := signature_sums hs
    exact hsums.count
  | none =>
    have hnone : occurrences lib w lines id = [] := by
      refine List.eq_nil_iff_forall_not_mem.mpr fun ln hln => ?_
      obtain ⟨hcounted, hid⟩ := List.mem_filter.mp hln
      obtain ⟨s, hs, hsid⟩ := exists_signature hcounted
      exact Keyed.first_eq_none.mp hfirst s hs (hsid.trans (of_decide_eq_true hid))
    rw [hnone]
    rfl

theorem cluster_eq (lines : List Line) (w : Window) :
    (Aggregate lib lines w.sinceMs w.nowMs w.nBuckets).cluster =
      { errors := (counted lib w lines).length
        signatures := ((Aggregate lib lines w.sinceMs w.nowMs w.nBuckets).signatures.map Sig.id).length
        affectedProcs := ((counted lib w lines).map Line.label).toFinset.card
        lastErrorUnix := (counted lib w lines).foldl (fun t ln => max t ln.sec) 0 } := by
  rw [← fold_errors, ← fold_allProcs, ← fold_lastErrorUnix, List.length_map]
  rfl

/-- The ids are the signatures of the counted lines. -/
theorem mem_ids {id : String} :
    id ∈ (Aggregate lib lines w.sinceMs w.nowMs w.nBuckets).signatures.map Sig.id ↔
      ∃ ln ∈ counted lib w lines, Signature lib ln.text = id := by
  rw [List.mem_map]
  constructor
  · rintro ⟨s, hs, rfl⟩
    obtain ⟨a, -, hsums⟩ := signature_sums hs
    obtain ⟨ln, hln⟩ := List.exists_mem_of_ne_nil _ hsums.ne_nil
    obtain ⟨hcounted, hid⟩ := List.mem_filter.mp hln
    exact ⟨ln, hcounted, of_decide_eq_true hid⟩
  · rintro ⟨ln, hln, rfl⟩
    exact exists_signature hln

theorem mem_affected {s : Sig} {l : String}
    (h : s ∈ (Aggregate lib lines w.sinceMs w.nowMs w.nBuckets).signatures) :
    l ∈ s.affected ↔ ∃ ln ∈ occurrences lib w lines s.id, ln.label = l := by
  obtain ⟨a, rfl, hsums⟩ := signature_sums h
  show l ∈ a.affected.sort (· ≤ ·) ↔ _
  rw [Finset.mem_sort, hsums.affected, List.mem_toFinset, List.mem_map]

/-- The affected lists together are the processes with a counted line. -/
theorem union_affected (lines : List Line) (w : Window) :
    ((Aggregate lib lines w.sinceMs w.nowMs w.nBuckets).signatures.flatMap Sig.affected).toFinset =
      ((counted lib w lines).map Line.label).toFinset := by
  ext l
  simp only [List.mem_toFinset, List.mem_map, List.mem_flatMap]
  constructor
  · rintro ⟨s, hs, hl⟩
    obtain ⟨ln, hln, rfl⟩ := (mem_affected hs).mp hl
    exact ⟨ln, (List.mem_filter.mp hln).1, rfl⟩
  · rintro ⟨ln, hln, rfl⟩
    obtain ⟨s, hs, hid⟩ := exists_signature hln
    refine ⟨s, hs, (mem_affected hs).mpr ⟨ln, ?_, rfl⟩⟩
    exact List.mem_filter.mpr ⟨hln, decide_eq_true hid.symm⟩

end

theorem conserved (lines : List Line) (sinceMs nowMs nBuckets : Int) :
    Conserved lib lines sinceMs nBuckets (Aggregate lib lines sinceMs nowMs nBuckets) := by
  let w : Window := ⟨sinceMs, nowMs, nBuckets⟩
  have hcount : ∀ s ∈ (Aggregate lib lines sinceMs nowMs nBuckets).signatures,
      s.count = (occurrences lib w lines s.id).length := by
    intro s hs
    obtain ⟨a, rfl, hsums⟩ := signature_sums (w := w) hs
    exact hsums.count
  have hcounts : (Aggregate lib lines sinceMs nowMs nBuckets).signatures.map Sig.count =
      ((Aggregate lib lines sinceMs nowMs nBuckets).signatures.map Sig.id).map
        fun id => (occurrences lib w lines id).length := by
    rw [List.map_map]
    exact List.map_congr_left hcount
  refine ⟨?_, ?_, ?_, ids_nodup lines w, ?_, ?_⟩
  · rw [hcounts, sum_occurrences (ids_nodup lines w) fun ln hln => mem_ids.mpr ⟨ln, hln, rfl⟩]
    exact (congrArg Cluster.errors (cluster_eq lines w)).symm
  · refine (congrArg Cluster.errors (cluster_eq lines w)).trans ?_
    refine congrArg List.length (List.filter_congr fun ln _ => Bool.eq_iff_iff.mpr ?_)
    simp [counts, w]
  · intro s hs
    obtain ⟨a, rfl, hsums⟩ := signature_sums (w := w) hs
    refine ⟨?_, hsums.buckets_sum.trans hsums.count.symm⟩
    show (a.sig.buckets.length : Int) = max w.nBuckets 1
    rw [hsums.buckets_length, Int.toNat_of_nonneg (Int.le_of_lt (buckets_pos w)), Window.buckets]
    split <;> omega
  · intro s hs
    obtain ⟨a, rfl, -⟩ := signature_sums (w := w) hs
    exact (Finset.sortedLT_sort _).pairwise
  · refine (congrArg Cluster.affectedProcs (cluster_eq lines w)).trans ?_
    exact congrArg Finset.card (union_affected lines w).symm

/-! ### The order of the lines -/

section
variable {w : Window} (h : lines.Perm lines')
include h

theorem cluster_perm : (Aggregate lib lines w.sinceMs w.nowMs w.nBuckets).cluster =
    (Aggregate lib lines' w.sinceMs w.nowMs w.nBuckets).cluster := by
  have hcounted : (counted lib w lines).Perm (counted lib w lines') := counted_perm h
  have hids : ((Aggregate lib lines w.sinceMs w.nowMs w.nBuckets).signatures.map Sig.id).Perm
      ((Aggregate lib lines' w.sinceMs w.nowMs w.nBuckets).signatures.map Sig.id) := by
    refine (List.perm_ext_iff_of_nodup (ids_nodup _ _) (ids_nodup _ _)).mpr fun id => ?_
    simp only [mem_ids, hcounted.mem_iff]
  rw [cluster_eq, cluster_eq, hcounted.length_eq, hids.length_eq,
    List.toFinset_eq_of_perm _ _ (hcounted.map Line.label),
    hcounted.foldl_eq' (fun x _ y _ t => max_right_comm t x.sec y.sec)]

theorem countOf_perm (id : String) : (Aggregate lib lines w.sinceMs w.nowMs w.nBuckets).countOf id =
    (Aggregate lib lines' w.sinceMs w.nowMs w.nBuckets).countOf id := by
  have hocc : (occurrences lib w lines id).Perm (occurrences lib w lines' id) :=
    (counted_perm h).filter _
  rw [countOf_aggregate, countOf_aggregate, hocc.length_eq]

end

/-- **Aggregation conserves counts.** In every order of the lines, with any window and number of
buckets: the counts of the signatures and the cluster's errors both come to the lines at or after
`sinceMs` that are errors, each signature's buckets come to its count, the ids differ, the affected
lists are sorted without duplicates, and their union has the size that the cluster gives. A
permutation of the lines changes neither the cluster nor the count of any id. -/
theorem aggregate_conserves (lines : List Line) (sinceMs nowMs nBuckets : Int) :
    Conserved lib lines sinceMs nBuckets (Aggregate lib lines sinceMs nowMs nBuckets) ∧
      ∀ lines', lines.Perm lines' →
        (Aggregate lib lines sinceMs nowMs nBuckets).cluster =
          (Aggregate lib lines' sinceMs nowMs nBuckets).cluster ∧
        ∀ id, (Aggregate lib lines sinceMs nowMs nBuckets).countOf id =
          (Aggregate lib lines' sinceMs nowMs nBuckets).countOf id := by
  refine ⟨conserved lines sinceMs nowMs nBuckets, fun lines' hperm => ⟨?_, fun id => ?_⟩⟩
  · exact cluster_perm (w := ⟨sinceMs, nowMs, nBuckets⟩) hperm
  · exact countOf_perm (w := ⟨sinceMs, nowMs, nBuckets⟩) hperm id

end Marshal.Errsig
