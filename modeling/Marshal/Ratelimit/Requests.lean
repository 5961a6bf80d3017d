import Marshal.Lib.Growing
import Marshal.Lib.System
import Marshal.Ratelimit

/-! Requests behind the limiter.

A login and a gRPC call go the same way: ask the limiter whether a key is locked, verify
the credential, and tell the limiter how that went. Each call of the limiter is one step,
and so is the verification; the requests of any number of clients take their steps in any
order. A request that is past its checks counts as a failure only once it has told the
limiter, so how many get past them before that is up to the order of the steps. -/
namespace Marshal.Ratelimit

/-! ### One request -/

inductive Kind where
  /-- `handler.login`. -/
  | login (user ip : String)
  /-- `unaryAuth`, and `streamAuth` with either token. -/
  | grpc (ip : String)
  deriving DecidableEq, Repr

namespace Kind

/-- The keys that are checked first and counted on a failure. -/
def keys : Kind → List String
  | .login user ip => [user ++ "|" ++ ip, "ip|" ++ ip]
  | .grpc ip => if ip = "" then [] else [ip]

/-- The keys that a success resets: of a login's two only the user's. -/
def resets : Kind → List String
  | .login user ip => [user ++ "|" ++ ip]
  | .grpc ip => if ip = "" then [] else [ip]

end Kind

inductive Phase where
  /-- The keys still to be checked, and whether one was locked (`LockedAny`). -/
  | checking (rest : List String) (locked : Bool)
  | verifying
  /-- The keys whose failure is still to be counted. -/
  | failing (rest : List String)
  | resetting (rest : List String)
  | finished
  deriving DecidableEq, Repr

structure Request where
  kind : Kind
  phase : Phase
  deriving DecidableEq, Repr

inductive Event where
  /-- The next call of the limiter, or the decision after the last. -/
  | next
  | verified (ok : Bool)
  /-- The request carries no token: it fails unverified. -/
  | missing
  deriving DecidableEq, Repr

structure Requests where
  limiter : Limiter
  now : Nat := 0
  requests : List Request := []

inductive Action where
  | arrive (kind : Kind)
  | request (i : Nat) (event : Event)
  | tick (d : Nat)
  deriving DecidableEq, Repr

namespace Requests

/-- A step of a request: the limiter afterwards, and where the request stands then. -/
def advance (s : Requests) (r : Request) : Event → Option (Limiter × Phase)
  | .next => match r.phase with
    | .checking (key :: rest) locked =>
      some (s.limiter, .checking rest (locked || (s.limiter.RetryAfter s.now key).1))
    | .checking [] true => some (s.limiter, .finished)
    | .checking [] false => some (s.limiter, .verifying)
    | .failing (key :: rest) => some (s.limiter.Fail s.now key, .failing rest)
    | .resetting (key :: rest) => some (s.limiter.Reset key, .resetting rest)
    | .failing [] | .resetting [] => some (s.limiter, .finished)
    | .verifying | .finished => none
  | .verified ok =>
    if r.phase = .verifying
    then some (s.limiter, if ok then .resetting r.kind.resets else .failing r.kind.keys)
    else none
  | .missing => match r.kind with
    | .login _ _ => none
    | .grpc _ => if r.phase = .verifying then some (s.limiter, .failing r.kind.keys) else none

def step (s : Requests) : Action → Option Requests
  | .arrive kind => some { s with requests := s.requests ++ [⟨kind, .checking kind.keys false⟩] }
  | .request i event => do
    let r ← s.requests[i]?
    let (limiter, phase) ← s.advance r event
    pure { s with limiter := limiter, requests := s.requests.set i { r with phase := phase } }
  | .tick d => some { s with now := s.now + d }

/-- The runs of a new limiter's requests. -/
def machine : Transition.System Requests Action where
  init s := s.limiter.m = ∅ ∧ s.requests = []
  step := step

/-! ### What is counted -/

/-- The failed verifications for a key since its last `Reset`. -/
def failed (k : String) (n : Nat) (s : Requests) : Action → Nat
  | .request i event => match s.requests[i]?, event with
    | some ⟨kind, .verifying⟩, .verified false => if k ∈ kind.keys then n + 1 else n
    | some ⟨_, .resetting (key :: _)⟩, .next => if key = k then 0 else n
    | _, _ => n
  | _ => n

end Requests

namespace Request

/-- Past the check of `k`, and not verified yet. -/
def passed (k : String) (r : Request) : Bool :=
  match r.phase with
  | .checking rest locked => !locked && k ∈ r.kind.keys && k ∉ rest
  | .verifying => k ∈ r.kind.keys
  | _ => false

/-- Failed, with a failure of `k` still to be counted. -/
def owes (k : String) (r : Request) : Bool :=
  match r.phase with
  | .failing rest => k ∈ rest
  | _ => false

end Request

namespace Requests

def passed (s : Requests) (k : String) : Nat := s.requests.countP (Request.passed k)
def owed (s : Requests) (k : String) : Nat := s.requests.countP (Request.owes k)
def entry (s : Requests) (k : String) : Entry := (s.limiter.m.get k).getD {}

/-! ### Rules of a run -/

/-- No lock of the key has expired. -/
def Unexpired (k : String) (s : Requests) : Prop :=
  (s.entry k).lockUntil = 0 ∨ s.now < (s.entry k).lockUntil

/-- No failure of any key is counted longer than the cap after the last one counted for `k`. -/
def Remembers (k : String) (s : Requests) : Action → Prop
  | .request i .next => match s.requests[i]? with
    | some ⟨_, .failing (_ :: _)⟩ => s.limiter.m.get k = none ∨ Sub s.now (s.entry k).lastSeen ≤ s.limiter.pol.Cap
    | _ => True
  | _ => True

/-- A request passes the check of `k` only while the failures on record and those that the requests
past it may still add are fewer than the threshold. -/
def TakesTurns (k : String) (s : Requests) : Action → Prop
  | .request i .next => match s.requests[i]? with
    | some ⟨_, .checking (key :: rest) false⟩ => key = k → k ∉ rest →
      (s.limiter.RetryAfter s.now k).1 = true ∨
        (s.entry k).fails + s.passed k + s.owed k < s.limiter.pol.Threshold
    | _ => True
  | _ => True

instance decidableUnexpired (k : String) (s : Requests) : Decidable (Unexpired k s) :=
  inferInstanceAs (Decidable (_ ∨ _))

instance decidableRemembers (k : String) (s : Requests) (a : Action) : Decidable (Remembers k s a) := by
  unfold Remembers
  split
  · split <;> exact inferInstance
  · exact inferInstance

instance decidableTakesTurns (k : String) (s : Requests) (a : Action) : Decidable (TakesTurns k s a) := by
  unfold TakesTurns
  split
  · split <;> exact inferInstance
  · exact inferInstance

/-! ### The invariant -/

/-- The failures and the requests that may still fail stay within the threshold, and as long as no
lock has engaged the limiter knows of every failure or is about to be told. -/
structure Bounded (k : String) (n : Nat) (s : Requests) : Prop where
  room : n + s.passed k ≤ s.limiter.pol.Threshold
  known : (s.entry k).lockUntil = 0 → n ≤ (s.entry k).fails + s.owed k

theorem countP_set_add {α : Type} {p : α → Bool} {l : List α} {i : Nat} {a b : α} (h : l[i]? = some a) :
    (l.set i b).countP p + (if p a then 1 else 0) = l.countP p + (if p b then 1 else 0) := by
  obtain ⟨hlt, rfl⟩ := List.getElem?_eq_some_iff.mp h
  have hpos : (if p l[i] = true then 1 else 0) ≤ l.countP p := by
    split
    · rename_i hp
      exact List.countP_pos_iff.mpr ⟨_, List.getElem_mem hlt, hp⟩
    · exact Nat.zero_le _
  rw [List.countP_set hlt]
  omega

variable {k : String} {n : Nat} {s t : Requests} {i : Nat} {kind : Kind}

/-- The state after a request's step. -/
def put (s : Requests) (i : Nat) (kind : Kind) (limiter : Limiter) (phase : Phase) : Requests :=
  { s with limiter := limiter, requests := s.requests.set i ⟨kind, phase⟩ }

inductive Steps (s : Requests) : Action → Requests → Prop
  | arrive (kind : Kind) :
    Steps s (.arrive kind) { s with requests := s.requests ++ [⟨kind, .checking kind.keys false⟩] }
  | tick (d : Nat) : Steps s (.tick d) { s with now := s.now + d }
  | check {i : Nat} {kind : Kind} {key : String} {rest : List String} {locked : Bool}
    (hget : s.requests[i]? = some ⟨kind, .checking (key :: rest) locked⟩) :
    Steps s (.request i .next)
      (s.put i kind s.limiter (.checking rest (locked || (s.limiter.RetryAfter s.now key).1)))
  | refuse {i : Nat} {kind : Kind} (hget : s.requests[i]? = some ⟨kind, .checking [] true⟩) :
    Steps s (.request i .next) (s.put i kind s.limiter .finished)
  | verify {i : Nat} {kind : Kind} (hget : s.requests[i]? = some ⟨kind, .checking [] false⟩) :
    Steps s (.request i .next) (s.put i kind s.limiter .verifying)
  | accept {i : Nat} {kind : Kind} (hget : s.requests[i]? = some ⟨kind, .verifying⟩) :
    Steps s (.request i (.verified true)) (s.put i kind s.limiter (.resetting kind.resets))
  | reject {i : Nat} {kind : Kind} (hget : s.requests[i]? = some ⟨kind, .verifying⟩) :
    Steps s (.request i (.verified false)) (s.put i kind s.limiter (.failing kind.keys))
  | missing {i : Nat} {ip : String} (hget : s.requests[i]? = some ⟨.grpc ip, .verifying⟩) :
    Steps s (.request i .missing) (s.put i (.grpc ip) s.limiter (.failing (Kind.grpc ip).keys))
  | fail {i : Nat} {kind : Kind} {key : String} {rest : List String}
    (hget : s.requests[i]? = some ⟨kind, .failing (key :: rest)⟩) :
    Steps s (.request i .next) (s.put i kind (s.limiter.Fail s.now key) (.failing rest))
  | reset {i : Nat} {kind : Kind} {key : String} {rest : List String}
    (hget : s.requests[i]? = some ⟨kind, .resetting (key :: rest)⟩) :
    Steps s (.request i .next) (s.put i kind (s.limiter.Reset key) (.resetting rest))
  | finish {i : Nat} {kind : Kind} {phase : Phase} (hget : s.requests[i]? = some ⟨kind, phase⟩)
    (hphase : phase = .failing [] ∨ phase = .resetting []) :
    Steps s (.request i .next) (s.put i kind s.limiter .finished)

theorem steps_of_step {a : Action} (h : s.step a = some t) : Steps s a t := by
  cases a with
  | arrive kind =>
    cases h
    exact .arrive kind
  | tick d =>
    cases h
    exact .tick d
  | request i event =>
    cases hget : s.requests[i]? with
    | none => simp [step, hget] at h
    | some r =>
      obtain ⟨kind, phase⟩ := r
      simp only [step, hget, Option.bind_eq_bind, Option.bind_some, Option.bind_eq_some_iff,
        Option.pure_def, Option.some.injEq, Prod.exists] at h
      obtain ⟨limiter, phase', hadv, rfl⟩ := h
      cases event with
      | next =>
        cases phase with
        | checking rest locked =>
          cases rest with
          | nil =>
            cases locked <;> cases hadv
            · exact .verify hget
            · exact .refuse hget
          | cons key rest =>
            cases hadv
            exact .check hget
        | failing rest =>
          cases rest with
          | nil =>
            cases hadv
            exact .finish hget (.inl rfl)
          | cons key rest =>
            cases hadv
            exact .fail hget
        | resetting rest =>
          cases rest with
          | nil =>
            cases hadv
            exact .finish hget (.inr rfl)
          | cons key rest =>
            cases hadv
            exact .reset hget
        | verifying | finished => cases hadv
      | verified ok =>
        simp only [advance, Option.ite_none_right_eq_some, Option.some.injEq, Prod.mk.injEq] at hadv
        obtain ⟨rfl, rfl, rfl⟩ := hadv
        cases ok
        · exact .reject hget
        · exact .accept hget
      | missing =>
        cases kind with
        | login user ip => cases hadv
        | grpc ip =>
          simp only [advance, Option.ite_none_right_eq_some, Option.some.injEq, Prod.mk.injEq] at hadv
          obtain ⟨rfl, rfl, rfl⟩ := hadv
          exact .missing hget

/-! ### What a step does to the counts -/

section Counts
variable {r : Request} {limiter : Limiter} {phase : Phase}

theorem passed_put (k : String) (kind : Kind) (limiter : Limiter) (phase : Phase)
    (hget : s.requests[i]? = some r) :
    (s.put i kind limiter phase).passed k + (if r.passed k then 1 else 0) =
      s.passed k + (if Request.passed k ⟨kind, phase⟩ then 1 else 0) :=
  countP_set_add hget

theorem owed_put (k : String) (kind : Kind) (limiter : Limiter) (phase : Phase)
    (hget : s.requests[i]? = some r) :
    (s.put i kind limiter phase).owed k + (if r.owes k then 1 else 0) =
      s.owed k + (if Request.owes k ⟨kind, phase⟩ then 1 else 0) :=
  countP_set_add hget

/-- A step that leaves the limiter's entry as it is and takes no request past the check. -/
theorem bounded_put (hs : Bounded k n s) (hget : s.requests[i]? = some r) {n' : Nat}
    (hpol : limiter.pol = s.limiter.pol) (hentry : limiter.m.get k = s.limiter.m.get k)
    (hroom : n' + (if Request.passed k ⟨kind, phase⟩ then 1 else 0) ≤ n + (if r.passed k then 1 else 0))
    (hknown : n' + (if r.owes k then 1 else 0) ≤ n + (if Request.owes k ⟨kind, phase⟩ then 1 else 0)) :
    Bounded k n' (s.put i kind limiter phase) := by
  have hpassed := passed_put k kind limiter phase hget
  have howed := owed_put k kind limiter phase hget
  have hsame : (s.put i kind limiter phase).entry k = s.entry k := by
    simp only [entry, put, hentry]
  obtain ⟨room, known⟩ := hs
  refine ⟨?_, ?_⟩
  · show _ ≤ limiter.pol.Threshold
    rw [hpol]
    omega
  · rw [hsame]
    intro hlock
    have hk := known hlock
    omega

end Counts

theorem bounded_arrive (hs : Bounded k n s) (kind : Kind) :
    Bounded k n { s with requests := s.requests ++ [⟨kind, .checking kind.keys false⟩] } := by
  have hnew : ∀ (p : Request → Bool) (r : Request), p r = false →
      (s.requests ++ [r]).countP p = s.requests.countP p := by
    intro p r hp
    simp [List.countP_append, hp]
  refine ⟨?_, ?_⟩
  · have hpassed := hnew (Request.passed k) ⟨kind, .checking kind.keys false⟩ (by simp [Request.passed])
    exact Nat.le_trans (Nat.add_le_add_left (Nat.le_of_eq hpassed) n) hs.room
  · intro hlock
    have howed := hnew (Request.owes k) ⟨kind, .checking kind.keys false⟩ rfl
    exact Nat.le_trans (hs.known hlock) (Nat.add_le_add_left (Nat.le_of_eq howed.symm) _)

/-- An answer that the key is not locked, where no lock has expired: none has engaged. -/
theorem free_of_unlocked (hlock : Unexpired k s) (hfree : (s.limiter.RetryAfter s.now k).1 = false) :
    (s.entry k).lockUntil = 0 := by
  rcases hlock with hzero | hlt
  · exact hzero
  · cases hget : s.limiter.m.get k with
    | none => simp [entry, hget]
    | some e =>
      rw [← Bool.not_eq_true, Limiter.locked_iff] at hfree
      simp only [entry, hget, Option.getD_some] at hlt
      exact absurd ⟨e, hget, hlt⟩ hfree

/-- A request that comes past the check does so in its turn. -/
theorem bounded_check {key : String} {rest : List String} {locked : Bool} (hs : Bounded k n s)
    (hlock : Unexpired k s) (hturn : TakesTurns k s (.request i .next))
    (hget : s.requests[i]? = some ⟨kind, .checking (key :: rest) locked⟩) :
    Bounded k n
      (s.put i kind s.limiter (.checking rest (locked || (s.limiter.RetryAfter s.now key).1))) := by
  cases hnew : Request.passed k
      ⟨kind, .checking rest (locked || (s.limiter.RetryAfter s.now key).1)⟩ with
  | false =>
    refine bounded_put hs hget rfl rfl ?_ (Nat.le_refl _)
    rw [hnew]
    simp
  | true =>
    by_cases hold : Request.passed k ⟨kind, .checking (key :: rest) locked⟩ = true
    · refine bounded_put hs hget rfl rfl ?_ (Nat.le_refl _)
      rw [hnew, hold]
    · have hpassed := passed_put k kind s.limiter
        (.checking rest (locked || (s.limiter.RetryAfter s.now key).1)) hget
      have howed := owed_put k kind s.limiter
        (.checking rest (locked || (s.limiter.RetryAfter s.now key).1)) hget
      rw [hnew, if_pos rfl, if_neg hold] at hpassed
      simp only [Request.passed, Bool.and_eq_true, Bool.not_eq_true', Bool.or_eq_false_iff,
        decide_eq_true_eq, List.mem_cons, not_or] at hnew hold
      obtain ⟨⟨⟨rfl, hfree⟩, hmem⟩, hrest⟩ := hnew
      obtain rfl : key = k := by
        by_contra hne
        exact hold ⟨⟨rfl, hmem⟩, Ne.symm hne, hrest⟩
      simp only [TakesTurns, hget, hrest, not_false_eq_true, true_implies, hfree, false_or,
        Bool.false_eq_true] at hturn
      have hk := hs.known (free_of_unlocked hlock hfree)
      refine ⟨?_, ?_⟩
      · show _ ≤ s.limiter.pol.Threshold
        omega
      · intro _
        show n ≤ (s.entry key).fails + _
        simp only [Request.owes, Bool.false_eq_true, if_false] at howed
        omega

/-- A failure of any key is counted: of `k` it is one less to come, of another key nothing on
record of `k` is dropped. -/
theorem bounded_fail {key : String} {rest : List String} (hs : Bounded k n s) (hvalid : s.limiter.pol.Valid)
    (hlock : Unexpired k s) (hkeeps : Remembers k s (.request i .next))
    (hget : s.requests[i]? = some ⟨kind, .failing (key :: rest)⟩) :
    Bounded k n (s.put i kind (s.limiter.Fail s.now key) (.failing rest)) := by
  have hkept : s.limiter.kept s.now k = s.limiter.m.get k := by
    cases hold : s.limiter.m.get k with
    | none => simp [Limiter.kept, hold]
    | some e =>
      refine Limiter.kept_eq_some.mpr ⟨hold, ?_⟩
      simp only [Unexpired, entry, hold, Option.getD_some] at hlock
      simp only [Remembers, hget, entry, hold, Option.getD_some, reduceCtorEq, false_or] at hkeeps
      rcases hlock with hzero | hlt
      · rw [← Bool.not_eq_true, Policy.drops_of_free hzero]
        exact Int.not_lt.mpr hkeeps
      · exact Policy.keeps_of_lt hlt
  by_cases hkey : key = k
  · subst hkey
    have hpassed := passed_put key kind (s.limiter.Fail s.now key) (.failing rest) hget
    have howed := owed_put key kind (s.limiter.Fail s.now key) (.failing rest) hget
    have hentry : (s.put i kind (s.limiter.Fail s.now key) (.failing rest)).entry key =
        s.limiter.pol.fail s.now (s.entry key) := by
      show ((s.limiter.Fail s.now key).m.get key).getD {} = _
      rw [Limiter.get_Fail_self, hkept]
      rfl
    obtain ⟨room, known⟩ := hs
    refine ⟨?_, ?_⟩
    · show _ ≤ s.limiter.pol.Threshold
      simp only [Request.passed, Bool.false_eq_true, if_false] at hpassed
      omega
    · rw [hentry]
      by_cases hfull : s.limiter.pol.Threshold ≤ (s.entry key).fails + 1
      · -- The lock engages.
        rw [Policy.fail_of_le hfull]
        intro hzero
        have hlt := hvalid.lt_lockUntil s.now (s.entry key).lockedOnce
        exact absurd (Nat.lt_of_lt_of_eq hlt hzero) (Nat.not_lt_zero _)
      · rw [Policy.fail_of_lt (Nat.not_le.mp hfull)]
        intro hzero
        have hk := known hzero
        simp only [Request.owes, List.mem_cons, true_or, decide_true, if_true] at howed
        show n ≤ (s.entry key).fails + 1 + _
        omega
  · refine bounded_put hs hget rfl ?_ (by simp [Request.passed]) ?_
    · rw [Limiter.get_Fail_other (Ne.symm hkey), hkept]
    · simp [Request.owes, Ne.symm hkey]

theorem bounded_reset {key : String} {rest : List String} (hs : Bounded k n s)
    (hget : s.requests[i]? = some ⟨kind, .resetting (key :: rest)⟩) :
    Bounded k (if key = k then 0 else n) (s.put i kind (s.limiter.Reset key) (.resetting rest)) := by
  by_cases hkey : key = k
  · subst hkey
    have hpassed := passed_put key kind (s.limiter.Reset key) (.resetting rest) hget
    simp only [Request.passed, Bool.false_eq_true, if_false] at hpassed
    rw [if_pos rfl]
    refine ⟨?_, fun _ => Nat.zero_le _⟩
    have hroom := hs.room
    show _ ≤ s.limiter.pol.Threshold
    omega
  · rw [if_neg hkey]
    refine bounded_put hs hget rfl (Limiter.get_Reset_other (Ne.symm hkey)) ?_ ?_
    · simp [Request.passed]
    · simp [Request.owes]

/-- Only a `Reset` that comes next changes the count. -/
theorem failed_next {phase : Phase} (hget : s.requests[i]? = some ⟨kind, phase⟩)
    (hphase : ∀ key rest, phase ≠ .resetting (key :: rest)) : failed k n s (.request i .next) = n := by
  cases phase with
  | resetting rest =>
    cases rest with
    | nil => simp [failed, hget]
    | cons key rest => exact absurd rfl (hphase key rest)
  | checking | verifying | failing | finished => simp [failed, hget]

theorem bounded_step {a : Action} (hvalid : s.limiter.pol.Valid) (hs : Bounded k n s) (hlock : Unexpired k s)
    (hkeeps : Remembers k s a) (hturn : TakesTurns k s a) (h : s.step a = some t) :
    Bounded k (failed k n s a) t := by
  cases steps_of_step h with
  | arrive kind => exact bounded_arrive hs kind
  | tick d => exact ⟨hs.room, hs.known⟩
  | check hget =>
    rw [failed_next hget (by simp)]
    exact bounded_check hs hlock hturn hget
  | refuse hget | verify hget =>
    rw [failed_next hget (by simp)]
    exact bounded_put hs hget rfl rfl (by simp [Request.passed]) (Nat.le_refl _)
  | @accept i kind hget =>
    have hsame : failed k n s (.request i (.verified true)) = n := by simp [failed, hget]
    rw [hsame]
    exact bounded_put hs hget rfl rfl (by simp [Request.passed]) (Nat.le_refl _)
  | @reject i kind hget =>
    have hcount : failed k n s (.request i (.verified false)) = if k ∈ kind.keys then n + 1 else n := by
      simp [failed, hget]
    rw [hcount]
    refine bounded_put hs hget rfl rfl ?_ ?_
    · by_cases hmem : k ∈ kind.keys <;> simp [Request.passed, hmem]
    · by_cases hmem : k ∈ kind.keys <;> simp [Request.owes, hmem]
  | @missing i ip hget =>
    have hsame : failed k n s (.request i .missing) = n := by simp [failed, hget]
    rw [hsame]
    exact bounded_put hs hget rfl rfl (by simp [Request.passed]) (by simp [Request.owes])
  | fail hget =>
    rw [failed_next hget (by simp)]
    exact bounded_fail hs hvalid hlock hkeeps hget
  | @reset i kind key rest hget =>
    have hcount : failed k n s (.request i .next) = if key = k then 0 else n := by simp [failed, hget]
    rw [hcount]
    exact bounded_reset hs hget
  | finish hget hphase =>
    rw [failed_next hget (by rcases hphase with rfl | rfl <;> simp)]
    rcases hphase with rfl | rfl <;>
      exact bounded_put hs hget rfl rfl (by simp [Request.passed]) (by simp [Request.owes])

theorem step_pol {a : Action} (h : s.step a = some t) : t.limiter.pol = s.limiter.pol := by
  cases steps_of_step h <;> rfl

/-! ### The result -/

/-- The dashboard's limiter, before any request. -/
def dashboard : Requests := ⟨⟨lockoutPolicy, ∅⟩, 60000000000000, []⟩

/-- A login up to its verification. -/
def asks (i : Nat) : List Action :=
  .arrive (.login "admin" "1.2.3.4") :: List.replicate 3 (.request i .next)

/-- A login with a wrong password, from its arrival to its end. -/
def guess (i : Nat) : List Action :=
  asks i ++ [.request i (.verified false), .request i .next, .request i .next, .request i .next]

/-- Six logins are verified before any of them is counted. -/
def parallel : List Action :=
  (List.range 6).flatMap asks ++ (List.range 6).map fun i => .request i (.verified false)

/-- Six logins, a quarter of an hour and a minute apart. -/
def slow : List Action := (List.range 6).flatMap fun i => guess i ++ [.tick 960000000000]

end Requests
end Marshal.Ratelimit
