import Marshal.Server.AuthStore

/-! Credentials, and what the calls that change them do to each.

A call is refused, fails to save or goes through (`Sets`). Only in the last case do the
credentials change, and only those of the holder the call is about: these are let in
from then on if the call grants them (`Sets.holds`). -/
namespace Marshal.Server

inductive Credential where
  | enroll (token : String)
  | admin (token : String)
  | agent (name token : String)
  | password (user password : String)
deriving DecidableEq

section
variable (cr : Crypto)

namespace AuthData

/-- Whether the credential is let in. -/
def accepts (a : AuthData) : Credential → Bool
  | .enroll tok => a.verifyEnroll cr.hashToken tok
  | .admin tok => a.verifyAdmin cr.hashToken tok
  | .agent name tok => a.authAgent cr.hashToken tok == some name
  | .password user password => a.VerifyDashboardUser cr user password

/-- Whether the credential matches what is kept for its holder. -/
def holds (a : AuthData) : Credential → Bool
  | .enroll tok => a.verifyEnroll cr.hashToken tok
  | .admin tok => a.verifyAdmin cr.hashToken tok
  | .agent name tok => match a.agents.get name with
    | none => false
    | some e => tok != "" && e.tokenHash == cr.hashToken tok
  | .password user password => a.VerifyDashboardUser cr user password

end AuthData

namespace Op

/-- Whether the call sets what is kept for the credential's holder. -/
def concerns : Op → Credential → Bool
  | .enrollAgent name _ _, .agent name' _ => name == name'
  | .removeAgent name, .agent name' _ => name == name'
  | .rotate which _, .enroll _ => which == "enroll"
  | .rotate which _, .admin _ => which == "admin"
  | .setDashboardUser user _ _, .password user' _ => user == user'
  | _, _ => false

/-- Whether the call itself lets the credential in: made with nothing else kept, it does. -/
def grants (op : Op) (c : Credential) : Bool := (op.apply cr {} true).1.holds cr c

def revokes (op : Op) (c : Credential) : Bool := op.concerns c && !op.grants cr c

end Op

end

variable {cr : Crypto}

theorem AuthData.holds_of_accepts {a : AuthData} {c : Credential} (h : a.accepts cr c = true) :
    a.holds cr c = true := by
  cases c with
  | agent name tok =>
    obtain ⟨htok, e, hget, hhash⟩ := authAgent_some (eq_of_beq h)
    simp [holds, hget, htok, hhash]
  | enroll | admin | password => exact h

/-- What a call that goes through makes of the credentials. -/
inductive Sets (cr : Crypto) (a : AuthData) : Op → AuthData → Prop where
  | enrollAgent {name tok : String} {now : Int} (hnew : a.agents.get name = none) :
      Sets cr a (.enrollAgent name (some tok) now)
        { a with agents := a.agents.set name ⟨cr.hashToken tok, now⟩ }
  | removeAgent {name : String} :
      Sets cr a (.removeAgent name) { a with agents := a.agents.del name }
  | rotateEnroll {tok : String} :
      Sets cr a (.rotate "enroll" (some tok)) { a with enrollTokenHash := cr.hashToken tok }
  | rotateAdmin {tok : String} :
      Sets cr a (.rotate "admin" (some tok)) { a with adminTokenHash := cr.hashToken tok }
  | setDashboardUser {user password : String} {salt dk : List UInt8} (huser : user ≠ "")
      (hpassword : password ≠ "") (hkey : cr.key password salt dashboardPBKDF2Iter 32 = some dk) :
      Sets cr a (.setDashboardUser user password (some salt))
        { a with users := a.users.set user ⟨cr.encode dk, cr.encode salt, dashboardPBKDF2Iter⟩ }

/-- The two hold the same credentials. -/
structure Same (a b : AuthData) : Prop where
  enroll : b.enrollTokenHash = a.enrollTokenHash
  admin : b.adminTokenHash = a.adminTokenHash
  agents : ∀ n, b.agents.get n = a.agents.get n
  users : ∀ n, b.users.get n = a.users.get n

theorem Same.refl (a : AuthData) : Same a a := ⟨rfl, rfl, fun _ => rfl, fun _ => rfl⟩

theorem Same.holds {a b : AuthData} (h : Same a b) (c : Credential) : b.holds cr c = a.holds cr c := by
  cases c with
  | enroll => simp [AuthData.holds, AuthData.verifyEnroll, h.enroll]
  | admin => simp [AuthData.holds, AuthData.verifyAdmin, h.admin]
  | agent => simp [AuthData.holds, h.agents]
  | password => simp [AuthData.holds, AuthData.VerifyDashboardUser, h.users]

namespace Op
variable {op : Op} {a : AuthData} {c : Credential}

/-- A call that is saved is refused and changes nothing, or goes through. -/
theorem apply_saved (op : Op) (a : AuthData) :
    ((op.apply cr a true).2 = false ∧ (op.apply cr a true).1 = a) ∨
      ((op.apply cr a true).2 = true ∧ Sets cr a op (op.apply cr a true).1) := by
  cases op with
  | enrollAgent name fresh now =>
    cases hget : a.agents.get name with
    | some e => simp [apply, AuthData.enrollAgent, hget, Except.isOk, Except.toBool]
    | none => cases fresh with
      | none => simp [apply, AuthData.enrollAgent, hget, Except.isOk, Except.toBool]
      | some tok =>
        right
        simpa [apply, AuthData.enrollAgent, hget, Except.isOk, Except.toBool] using
          Sets.enrollAgent hget
  | removeAgent name =>
    cases hget : a.agents.get name with
    | none => simp [apply, AuthData.removeAgent, hget]
    | some e =>
      right
      simpa [apply, AuthData.removeAgent, hget] using Sets.removeAgent
  | rotate which fresh => cases fresh with
    | none => exact .inl ⟨rfl, rfl⟩
    | some tok =>
      by_cases henroll : which = "enroll"
      · subst henroll
        exact .inr ⟨rfl, .rotateEnroll⟩
      · by_cases hadmin : which = "admin"
        · subst hadmin
          exact .inr ⟨rfl, .rotateAdmin⟩
        · simp [apply, AuthData.rotate, henroll, hadmin, Except.isOk, Except.toBool]
  | setDashboardUser user password salt =>
    by_cases huser : user = ""
    · simp [apply, AuthData.SetDashboardUser, huser, Except.isOk, Except.toBool]
    · by_cases hpassword : password = ""
      · simp [apply, AuthData.SetDashboardUser, huser, hpassword, Except.isOk, Except.toBool]
      · cases salt with
        | none => simp [apply, AuthData.SetDashboardUser, huser, hpassword, Except.isOk, Except.toBool]
        | some salt => cases hkey : cr.key password salt dashboardPBKDF2Iter 32 with
          | none =>
            simp [apply, AuthData.SetDashboardUser, huser, hpassword, hkey, Except.isOk, Except.toBool]
          | some dk =>
            right
            simpa [apply, AuthData.SetDashboardUser, huser, hpassword, hkey, Except.isOk,
              Except.toBool] using Sets.setDashboardUser huser hpassword hkey

/-- A call that is not saved leaves the credentials as they were. -/
theorem apply_unsaved (op : Op) (a : AuthData) : Same a (op.apply cr a false).1 := by
  cases op with
  | enrollAgent name fresh now =>
    cases hget : a.agents.get name with
    | some e => simpa [apply, AuthData.enrollAgent, hget] using Same.refl a
    | none => cases fresh with
      | none => simpa [apply, AuthData.enrollAgent, hget] using Same.refl a
      | some tok =>
        simp only [apply, AuthData.enrollAgent, hget, Option.isSome_none, Bool.false_eq_true, if_false]
        exact ⟨rfl, rfl, Table.get_del_set hget _, fun _ => rfl⟩
  | removeAgent name =>
    cases hget : a.agents.get name with
    | none => simpa [apply, AuthData.removeAgent, hget] using Same.refl a
    | some e =>
      simp only [apply, AuthData.removeAgent, hget, Bool.false_eq_true, if_false]
      exact ⟨rfl, rfl, Table.get_set_del hget, fun _ => rfl⟩
  | rotate which fresh => cases fresh with
    | none => exact .refl a
    | some tok =>
      by_cases henroll : which = "enroll"
      · simpa [apply, AuthData.rotate, henroll] using Same.refl a
      · by_cases hadmin : which = "admin"
        · simpa [apply, AuthData.rotate, hadmin] using Same.refl a
        · simpa [apply, AuthData.rotate, henroll, hadmin] using Same.refl a
  | setDashboardUser user password salt =>
    by_cases huser : user = ""
    · simpa [apply, AuthData.SetDashboardUser, huser] using Same.refl a
    · by_cases hpassword : password = ""
      · simpa [apply, AuthData.SetDashboardUser, huser, hpassword] using Same.refl a
      · cases salt with
        | none => simpa [apply, AuthData.SetDashboardUser, huser, hpassword] using Same.refl a
        | some salt => cases hkey : cr.key password salt dashboardPBKDF2Iter 32 with
          | none => simpa [apply, AuthData.SetDashboardUser, huser, hpassword, hkey] using Same.refl a
          | some dk =>
            simp only [apply, AuthData.SetDashboardUser, huser, hpassword, hkey, Bool.false_eq_true,
              if_false]
            cases hget : a.users.get user with
            | some old => exact ⟨rfl, rfl, fun _ => rfl, Table.get_set_set hget _⟩
            | none => exact ⟨rfl, rfl, fun _ => rfl, Table.get_del_set hget _⟩

end Op

/-- After a call that went through, a credential of the holder it concerns is let in if the call
grants it, and any other as before. -/
theorem Sets.holds {op : Op} {a b : AuthData} (h : Sets cr a op b) (c : Credential) :
    b.holds cr c = if op.concerns c then op.grants cr c else a.holds cr c := by
  cases h with
  | @enrollAgent name tok now hnew =>
    cases c with
    | agent name' tok' =>
      by_cases hname : name' = name
      · subst hname
        simp [Op.concerns, Op.grants, Op.apply, AuthData.enrollAgent, AuthData.holds]
      · simp [Op.concerns, AuthData.holds, Table.get_set, hname, Ne.symm hname]
    | enroll | admin | password => rfl
  | @removeAgent name =>
    cases c with
    | agent name' tok' =>
      by_cases hname : name' = name
      · subst hname
        simp [Op.concerns, Op.grants, Op.apply, AuthData.removeAgent, AuthData.holds]
      · simp [Op.concerns, AuthData.holds, Table.get_del, hname, Ne.symm hname]
    | enroll | admin | password => rfl
  | rotateEnroll => cases c <;> rfl
  | rotateAdmin => cases c <;> rfl
  | @setDashboardUser user password salt dk huser hpassword hkey =>
    cases c with
    | password user' password' =>
      by_cases hname : user' = user
      · subst hname
        simp [Op.concerns, Op.grants, Op.apply, AuthData.SetDashboardUser, AuthData.holds,
          AuthData.VerifyDashboardUser, huser, hpassword, hkey]
      · simp [Op.concerns, AuthData.holds, AuthData.VerifyDashboardUser, Table.get_set, hname,
          Ne.symm hname]
    | enroll | admin | agent => rfl

theorem Sets.lacks {op : Op} {a b : AuthData} {c : Credential} (h : Sets cr a op b)
    (hgrants : op.grants cr c = false) (ha : a.holds cr c = false) : b.holds cr c = false := by
  rw [h.holds, hgrants, ha, ite_self]

end Marshal.Server
