import Marshal.Lib.Table
import Marshal.Proto

/-! Who may connect: the stored token hashes and what they admit.

Tokens are kept as hashes only, a dashboard user's password as a derived key. The hash
function is a parameter of the section, as are, per call, a fresh token (`none` when
the random source fails), the clock and whether the file is saved. -/
namespace Marshal.Server
open Proto

structure AuthAgentEntry where
  tokenHash : String
  enrolledAt : Int
deriving DecidableEq

/-- A dashboard user's derived key and salt, in base64, and the iteration count. -/
structure DashboardUser where
  pbkdf2 : String
  salt : String
  iter : Nat
deriving DecidableEq

structure AuthData where
  enrollTokenHash : String := ""
  adminTokenHash : String := ""
  agents : Table String AuthAgentEntry := ∅
  users : Table String DashboardUser := ∅
deriving DecidableEq

/-- Why `enrollAgent` gives no token. -/
inductive EnrollError where
  | alreadyEnrolled
  | noToken
  | notSaved
deriving DecidableEq

/-- What `streamAuth` puts into the stream's context. -/
inductive Identity where
  | agent (name : String)
  | enrolling
deriving DecidableEq

section
variable (hash : String → String)

/-- Whether the token hashes to `h`; an empty token or hash never does. -/
def verifyToken (token h : String) : Bool := token != "" && h != "" && hash token == h

namespace AuthData

def verifyEnroll (a : AuthData) (token : String) : Bool := verifyToken hash token a.enrollTokenHash

def verifyAdmin (a : AuthData) (token : String) : Bool := verifyToken hash token a.adminTokenHash

/-- Bind a fresh token to a name that has none; a failed save takes the entry back. -/
def enrollAgent (a : AuthData) (name : String) (fresh : Option String) (now : Int) (saved : Bool) :
    AuthData × Except EnrollError String :=
  if (a.agents.get name).isSome then (a, .error .alreadyEnrolled)
  else match fresh with
    | none => (a, .error .noToken)
    | some tok =>
      let agents := a.agents.set name ⟨hash tok, now⟩
      if saved then ({ a with agents := agents }, .ok tok)
      else ({ a with agents := agents.del name }, .error .notSaved)

/-- The agent the token is bound to. Every entry is compared; the last match counts. -/
def authAgent (a : AuthData) (token : String) : Option String :=
  if token = "" then none
  else
    let want := hash token
    a.agents.toList.foldl (fun matched e => if e.2.tokenHash = want then some e.1 else matched) none

/-- Admit a stream by its per-agent token, else by the enroll token. -/
def streamAuth (a : AuthData) (token enroll : String) (blocked : Bool) : Except Status Identity :=
  if blocked then .error ⟨.resourceExhausted, "too many failed auth attempts"⟩
  else if token != "" then match a.authAgent hash token with
    | some name => .ok (.agent name)
    | none => .error ⟨.permissionDenied, "invalid agent token"⟩
  else if enroll != "" then
    if a.verifyEnroll hash enroll then .ok .enrolling
    else .error ⟨.permissionDenied, "invalid enrollment token"⟩
  else .error ⟨.unauthenticated, "missing agent or enrollment token"⟩

end AuthData

end

/-! ### What the functions say -/

namespace AuthData
variable {hash : String → String} {a b : AuthData} {name tok : String}

theorem enrollAgent_ok {fresh : Option String} {now : Int} {saved : Bool}
    (h : a.enrollAgent hash name fresh now saved = (b, .ok tok)) :
    a.agents.get name = none ∧ fresh = some tok ∧ saved = true ∧
      b = { a with agents := a.agents.set name ⟨hash tok, now⟩ } := by
  unfold enrollAgent at h
  split at h
  · cases h
  · next hnone =>
    split at h
    · cases h
    · next tok' =>
      split at h
      · next hsaved =>
        cases h
        exact ⟨by simpa using hnone, rfl, hsaved, rfl⟩
      · cases h

/-- A refused enrollment leaves every agent's token as it was. -/
theorem enrollAgent_error {fresh : Option String} {now : Int} {saved : Bool} {e : EnrollError}
    (h : a.enrollAgent hash name fresh now saved = (b, .error e)) (n : String) :
    b.agents.get n = a.agents.get n := by
  unfold enrollAgent at h
  split at h
  · cases h
    rfl
  · next hnone =>
    split at h
    · cases h
      rfl
    · split at h
      · cases h
      · cases h
        exact Table.get_del_set (Option.not_isSome_iff_eq_none.mp hnone) _ n

theorem enrollAgent_enroll {fresh : Option String} {now : Int} {saved : Bool} {out : Except EnrollError String}
    (h : a.enrollAgent hash name fresh now saved = (b, out)) : b.enrollTokenHash = a.enrollTokenHash := by
  unfold enrollAgent at h
  repeat' split at h
  all_goals
    cases h
    rfl

theorem foldl_match (want : String) (entries : List (String × AuthAgentEntry)) (init : Option String)
    (h : entries.foldl (fun matched e => if e.2.tokenHash = want then some e.1 else matched) init =
      some name) :
    init = some name ∨ ∃ e, (name, e) ∈ entries ∧ e.tokenHash = want := by
  induction entries generalizing init with
  | nil => exact .inl h
  | cons p rest ih =>
    rw [List.foldl_cons] at h
    rcases ih _ h with hinit | ⟨e, he, hwant⟩
    · split at hinit
      · next hp =>
        obtain rfl := Option.some.inj hinit
        exact .inr ⟨p.2, by simp, hp⟩
      · exact .inl hinit
    · exact .inr ⟨e, by simp [he], hwant⟩

/-- Where every match has one name and there is one, the result is that name. -/
theorem foldl_match_eq {want : String} {entries : List (String × AuthAgentEntry)} {init : Option String}
    (hsome : init = some name ∨ ∃ p ∈ entries, p.2.tokenHash = want)
    (honly : ∀ p ∈ entries, p.2.tokenHash = want → p.1 = name) :
    entries.foldl (fun matched e => if e.2.tokenHash = want then some e.1 else matched) init =
      some name := by
  induction entries generalizing init with
  | nil => exact hsome.resolve_right (by simp)
  | cons p rest ih =>
    rw [List.foldl_cons]
    refine ih ?_ fun q hq => honly q (by simp [hq])
    by_cases hp : p.2.tokenHash = want
    · exact .inl (by rw [if_pos hp, honly p (by simp) hp])
    · rw [if_neg hp]
      refine hsome.imp_right ?_
      rintro ⟨q, hq, hwant⟩
      rcases List.mem_cons.mp hq with rfl | hq
      · exact absurd hwant hp
      · exact ⟨q, hq, hwant⟩

/-- A token that authenticates is bound to the name it gives. -/
theorem authAgent_some (h : a.authAgent hash tok = some name) :
    tok ≠ "" ∧ ∃ e, a.agents.get name = some e ∧ e.tokenHash = hash tok := by
  unfold authAgent at h
  split at h
  · cases h
  · next htok =>
    rcases foldl_match _ _ _ h with hnone | ⟨e, he, hwant⟩
    · cases hnone
    · exact ⟨htok, e, (Table.mem_toList _ _ _).mp he, hwant⟩

/-- An admitted agent holds the token its name is bound to. -/
theorem streamAuth_agent {enroll : String} {blocked : Bool}
    (h : a.streamAuth hash tok enroll blocked = .ok (.agent name)) :
    tok ≠ "" ∧ ∃ e, a.agents.get name = some e ∧ e.tokenHash = hash tok := by
  unfold streamAuth at h
  split at h
  · cases h
  · split at h
    · split at h
      · next n hn =>
        obtain rfl : n = name := by simpa using h
        exact authAgent_some hn
      · cases h
    · split at h
      · split at h <;> cases h
      · cases h

end AuthData

end Marshal.Server
