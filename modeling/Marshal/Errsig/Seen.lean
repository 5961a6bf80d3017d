import Marshal.Errsig.Aggregate

/-! When a signature was first and last seen.

The pass takes the first and the last line of a signature for its oldest and newest. The
lines come agent by agent and each agent's by label, so that these are the lines with the
least and the greatest time only when the processes of a signature happen to lie so. -/
namespace Marshal.Errsig

variable (lib : Library) (w : Window)

/-- The lines as the server hands them over: agent by agent, each agent's by label and then by
time. -/
def Gathered (lines : List Line) : Prop :=
  ∃ runs : List (String × List Line),
    lines = runs.flatMap Prod.snd ∧ (runs.map Prod.fst).Nodup ∧
      ∀ r ∈ runs, (∀ ln ∈ r.2, ln.agent = r.1) ∧
        r.2.Pairwise fun a b => a.label < b.label ∨ a.label = b.label ∧ a.tsMs ≤ b.tsMs

def oldest (occ : List Line) : Int := ((occ.map Line.sec).min?).getD 0

def newest (occ : List Line) : Int := ((occ.map Line.sec).max?).getD 0

/-- What the ledger says of a signature is so, where occurrences are as late as `time` says. -/
structure SeenRight (time : Line → Int) (occ : List Line) (s : Sig) : Prop where
  first : s.firstUnix = oldest occ
  last : s.lastUnix = newest occ
  origin : ∃ o ∈ occ, (∀ o' ∈ occ, time o' ≤ time o) ∧ s.agent = o.agent ∧ s.proc = o.label

/-- Each signature is seen right, and the ledger goes by count and then by the newest occurrence. -/
structure LedgerRight (time : Line → Int) (lines : List Line) (r : Result) : Prop where
  seen : ∀ s ∈ r.signatures, SeenRight time (occurrences lib w lines s.id) s
  ranked : r.signatures.Pairwise fun a b => b.count < a.count ∨
    b.count = a.count ∧ newest (occurrences lib w lines b.id) ≤ newest (occurrences lib w lines a.id)

/-- The first line is of the oldest second, and the last one the latest. -/
def EndsInOrder (time : Line → Int) (occ : List Line) : Prop :=
  (∀ f ∈ occ.head?, ∀ o ∈ occ, f.sec ≤ o.sec) ∧
    ∀ l ∈ occ.getLast?, ∀ o ∈ occ, o.sec ≤ l.sec ∧ time o ≤ time l

variable {lib w} {lines occ : List Line} {time : Line → Int}

/-! ### The oldest and the newest -/

theorem sec_mono {a b : Line} (h : a.tsMs ≤ b.tsMs) : a.sec ≤ b.sec := Int.tdiv_le_tdiv (by decide) h

theorem oldest_eq {f : Line} (hf : f ∈ occ) (h : ∀ o ∈ occ, f.sec ≤ o.sec) : oldest occ = f.sec := by
  have hmin : (occ.map Line.sec).min? = some f.sec := by
    refine List.min?_eq_some_iff.mpr ⟨List.mem_map_of_mem hf, fun n hn => ?_⟩
    obtain ⟨o, ho, rfl⟩ := List.mem_map.mp hn
    exact h o ho
  rw [oldest, hmin]
  rfl

theorem newest_eq {l : Line} (hl : l ∈ occ) (h : ∀ o ∈ occ, o.sec ≤ l.sec) : newest occ = l.sec := by
  have hmax : (occ.map Line.sec).max? = some l.sec := by
    refine List.max?_eq_some_iff.mpr ⟨List.mem_map_of_mem hl, fun n hn => ?_⟩
    obtain ⟨o, ho, rfl⟩ := List.mem_map.mp hn
    exact h o ho
  rw [newest, hmax]
  rfl

theorem oldest_le {o : Line} (ho : o ∈ occ) : oldest occ ≤ o.sec := by
  cases hmin : (occ.map Line.sec).min? with
  | none =>
    rw [List.min?_eq_none_iff, List.map_eq_nil_iff] at hmin
    rw [hmin] at ho
    cases ho
  | some n =>
    rw [oldest, hmin]
    exact (List.min?_eq_some_iff.mp hmin).2 _ (List.mem_map_of_mem ho)

theorem le_newest {o : Line} (ho : o ∈ occ) : o.sec ≤ newest occ := by
  cases hmax : (occ.map Line.sec).max? with
  | none =>
    rw [List.max?_eq_none_iff, List.map_eq_nil_iff] at hmax
    rw [hmax] at ho
    cases ho
  | some n =>
    rw [newest, hmax]
    exact (List.max?_eq_some_iff.mp hmax).2 _ (List.mem_map_of_mem ho)

/-! ### One signature -/

/-- The lines of one process come in the order of their times. -/
def ProcOrdered (lines : List Line) : Prop :=
  lines.Pairwise fun a b => a.agent = b.agent → a.label = b.label → a.tsMs ≤ b.tsMs

theorem Gathered.procOrdered (h : Gathered lines) : ProcOrdered lines := by
  obtain ⟨runs, rfl, hnodup, hruns⟩ := h
  unfold ProcOrdered
  rw [List.pairwise_flatMap]
  constructor
  · intro r hr
    refine (hruns r hr).2.imp fun {a b} hab _ hlabel => ?_
    rcases hab with hlt | ⟨-, hle⟩
    · exact absurd hlabel (ne_of_lt hlt)
    · exact hle
  · have hne : runs.Pairwise fun r r' => r.1 ≠ r'.1 := List.pairwise_map.mp hnodup
    refine hne.imp_of_mem fun {r r'} hr hr' hne a ha b hb hagent => ?_
    rw [(hruns r hr).1 a ha, (hruns r' hr').1 b hb] at hagent
    exact absurd hagent hne

theorem ProcOrdered.occurrences (h : ProcOrdered lines) (id : String) :
    ProcOrdered (occurrences lib w lines id) :=
  (h.filter _).filter _

/-- No later line of the process precedes its last line. -/
theorem ProcOrdered.le_last (h : ProcOrdered occ) {l o : Line} (hl : occ.getLast? = some l) (ho : o ∈ occ)
    (hagent : o.agent = l.agent) (hlabel : o.label = l.label) : o.tsMs ≤ l.tsMs := by
  obtain ⟨before, rfl⟩ := List.getLast?_eq_some_iff.mp hl
  rcases List.mem_append.mp ho with hbefore | hlast
  · exact (List.pairwise_append.mp h).2.2 o hbefore l (List.mem_singleton.mpr rfl) hagent hlabel
  · rw [List.mem_singleton.mp hlast]

theorem seenRight_iff (htime : ∀ a b : Line, a.tsMs ≤ b.tsMs → time a ≤ time b) (hord : ProcOrdered occ)
    {a : Acc} (h : Sums lib w occ a) : SeenRight time occ a.finish ↔ EndsInOrder time occ := by
  obtain ⟨f, hf, hfirst⟩ := Option.map_eq_some_iff.mp h.first
  obtain ⟨l, hl, hlast⟩ := Option.map_eq_some_iff.mp h.last
  have hagent : l.agent = a.sig.agent := by simpa [hl] using h.agent
  have hproc : l.label = a.sig.proc := by simpa [hl] using h.proc
  have hfmem : f ∈ occ := List.mem_of_mem_head? hf
  have hlmem : l ∈ occ := List.mem_of_getLast? hl
  unfold EndsInOrder
  simp only [hf, hl, Option.mem_some_iff, forall_eq']
  constructor
  · rintro ⟨holdest, hnewest, o, ho, hlatest, hoagent, hoproc⟩
    have hol : o.tsMs ≤ l.tsMs :=
      hord.le_last hl ho (hoagent.symm.trans hagent.symm) (hoproc.symm.trans hproc.symm)
    refine ⟨fun o' ho' => ?_, fun o' ho' => ⟨?_, (hlatest o' ho').trans (htime o l hol)⟩⟩
    · rw [hfirst]
      exact holdest ▸ oldest_le ho'
    · rw [hlast]
      exact hnewest ▸ le_newest ho'
  · rintro ⟨hleast, hgreatest⟩
    refine ⟨?_, ?_, l, hlmem, fun o' ho' => (hgreatest o' ho').2, hagent.symm, hproc.symm⟩
    · exact hfirst.symm.trans (oldest_eq hfmem hleast).symm
    · exact hlast.symm.trans (newest_eq hlmem fun o ho => (hgreatest o ho).1).symm

/-- Lines in the order of their times are. -/
theorem endsInOrder_of_sorted (h : occ.Pairwise fun a b => a.tsMs ≤ b.tsMs) : EndsInOrder Line.tsMs occ := by
  constructor
  · intro f hf o ho
    obtain ⟨rest, rfl⟩ := List.head?_eq_some_iff.mp hf
    rcases List.mem_cons.mp ho with rfl | ho
    · exact le_refl _
    · exact sec_mono ((List.pairwise_cons.mp h).1 o ho)
  · intro l hl o ho
    obtain ⟨before, rfl⟩ := List.getLast?_eq_some_iff.mp hl
    rcases List.mem_append.mp ho with ho | ho
    · have hle := (List.pairwise_append.mp h).2.2 o ho l (List.mem_singleton.mpr rfl)
      exact ⟨sec_mono hle, hle⟩
    · rw [List.mem_singleton.mp ho]
      exact ⟨le_refl _, le_refl _⟩

/-! ### The ledger -/

theorem inPlace_iff {a b : Sig} :
    a.inPlace b ↔ b.count < a.count ∨ b.count = a.count ∧ b.lastUnix ≤ a.lastUnix := by
  unfold Sig.inPlace Sig.less
  split_ifs with h
  · rw [decide_eq_false_iff_not]
    omega
  · rw [decide_eq_false_iff_not]
    omega

instance : Std.Total Sig.inPlace where
  total a b := by
    simp only [inPlace_iff]
    omega

instance : IsTrans Sig Sig.inPlace where
  trans a b c hab hbc := by
    rw [inPlace_iff] at hab hbc ⊢
    omega

theorem signatures_ranked (lines : List Line) (w : Window) :
    (Aggregate lib lines w.sinceMs w.nowMs w.nBuckets).signatures.Pairwise Sig.inPlace :=
  List.pairwise_insertionSort _ _

theorem ledgerRight_iff (htime : ∀ a b : Line, a.tsMs ≤ b.tsMs → time a ≤ time b) (h : Gathered lines) :
    LedgerRight lib w time lines (Aggregate lib lines w.sinceMs w.nowMs w.nBuckets) ↔
      ∀ id, EndsInOrder time (occurrences lib w lines id) := by
  have hsig : ∀ s ∈ (Aggregate lib lines w.sinceMs w.nowMs w.nBuckets).signatures,
      SeenRight time (occurrences lib w lines s.id) s ↔ EndsInOrder time (occurrences lib w lines s.id) := by
    intro s hs
    obtain ⟨a, rfl, hsums⟩ := signature_sums hs
    exact seenRight_iff htime (h.procOrdered.occurrences _) hsums
  constructor
  · rintro ⟨hseen, -⟩ id
    by_cases hid : ∃ s ∈ (Aggregate lib lines w.sinceMs w.nowMs w.nBuckets).signatures, s.id = id
    · obtain ⟨s, hs, rfl⟩ := hid
      exact (hsig s hs).mp (hseen s hs)
    · -- Nothing is counted under this id.
      have hnone : ∀ o, o ∉ occurrences lib w lines id := by
        intro o ho
        obtain ⟨hcounted, hsign⟩ := List.mem_filter.mp ho
        obtain ⟨s, hs, hsid⟩ := exists_signature hcounted
        exact hid ⟨s, hs, hsid.trans (of_decide_eq_true hsign)⟩
      exact ⟨fun _ _ o ho => absurd ho (hnone o), fun _ _ o ho => absurd ho (hnone o)⟩
  · intro hends
    have hseen : ∀ s ∈ (Aggregate lib lines w.sinceMs w.nowMs w.nBuckets).signatures,
        SeenRight time (occurrences lib w lines s.id) s := fun s hs => (hsig s hs).mpr (hends s.id)
    refine ⟨hseen, (signatures_ranked lines w).imp_of_mem fun {a b} ha hb hab => ?_⟩
    rw [inPlace_iff, (hseen a ha).last, (hseen b hb).last] at hab
    exact hab

/-- **The ledger is right where each signature's first line is its oldest and its last one its
latest.** On the lines of any agents, each agent's by label and then by time: every signature's first
and last second are the extremes of its occurrences, its agent and process are those of a latest
occurrence, and the ledger goes by count and then by the newest occurrence, if and only if every
signature's first counted line has the least second and its last counted line the greatest time, be
the latest occurrences told apart to the millisecond or to the second. -/
theorem seen_right_iff {lines : List Line} {sinceMs nowMs nBuckets : Int} (h : Gathered lines) :
    let w : Window := ⟨sinceMs, nowMs, nBuckets⟩
    let r := Aggregate lib lines sinceMs nowMs nBuckets
    (LedgerRight lib w Line.tsMs lines r ↔ ∀ id, EndsInOrder Line.tsMs (occurrences lib w lines id)) ∧
      (LedgerRight lib w Line.sec lines r ↔ ∀ id, EndsInOrder Line.sec (occurrences lib w lines id)) :=
  ⟨ledgerRight_iff (w := ⟨sinceMs, nowMs, nBuckets⟩) (fun _ _ hab => hab) h,
    ledgerRight_iff (w := ⟨sinceMs, nowMs, nBuckets⟩) (fun _ _ hab => sec_mono hab) h⟩

/-! ### Two processes with one error -/

/-- The process that failed last comes first. -/
def crossed : List Line := [⟨5000, "api#0", "error", "edge"⟩, ⟨1000, "api#1", "error", "edge"⟩]

theorem crossed_gathered : Gathered crossed := by
  refine ⟨[("edge", crossed)], rfl, List.nodup_singleton _, ?_⟩
  intro r hr
  obtain rfl := List.mem_singleton.mp hr
  exact ⟨by decide, by decide⟩

theorem crossed_occurrences :
    occurrences asciiLibrary ⟨0, 10000, 24⟩ crossed "ca00fccfb408" = crossed := by decide

/-- The ledger says that the error was last seen in second 1. -/
theorem seen_right_crossed :
    ¬ ∀ (lib : Library) (lines : List Line) (sinceMs nowMs nBuckets : Int), Gathered lines →
      LedgerRight lib ⟨sinceMs, nowMs, nBuckets⟩ Line.sec lines (Aggregate lib lines sinceMs nowMs nBuckets) := by
  intro h
  have hright := h asciiLibrary crossed 0 10000 24 crossed_gathered
  have hends := (ledgerRight_iff (w := ⟨0, 10000, 24⟩) (fun _ _ hab => sec_mono hab) crossed_gathered).mp
    hright "ca00fccfb408"
  rw [crossed_occurrences] at hends
  exact absurd (hends.2 _ rfl ⟨5000, "api#0", "error", "edge"⟩ (by decide)).1 (by decide)

/-- The other way round, it comes last. -/
def uncrossed : List Line := [⟨1000, "api#0", "error", "edge"⟩, ⟨5000, "api#1", "error", "edge"⟩]

theorem uncrossed_gathered : Gathered uncrossed := by
  refine ⟨[("edge", uncrossed)], rfl, List.nodup_singleton _, ?_⟩
  intro r hr
  obtain rfl := List.mem_singleton.mp hr
  exact ⟨by decide, by decide⟩

theorem seen_right_uncrossed : LedgerRight asciiLibrary ⟨0, 10000, 24⟩ Line.tsMs uncrossed
    (Aggregate asciiLibrary uncrossed 0 10000 24) := by
  refine (seen_right_iff uncrossed_gathered).1.mpr fun id => endsInOrder_of_sorted ?_
  have hsorted : uncrossed.Pairwise fun a b => a.tsMs ≤ b.tsMs := by decide
  exact (hsorted.filter _).filter _

end Marshal.Errsig
