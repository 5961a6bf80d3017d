import Marshal.Dashboard.Sessions
import Marshal.Lib.Growing
import Marshal.Server.AuthStore

/-! Logins and the sessions they leave.

A login reads the user's record under the credentials' lock, derives the key from the
password outside it, takes the lock again for the stamp of the record there is by then,
and creates the session. A request with a session is accepted if its stamp is the one of
the user's record at that moment. Between any two of these steps the credentials may
change: by a call of the server, by a command and a reload. -/
namespace Marshal.Server
variable (cr : Crypto)

/-- Whether the password gives the key on record. -/
def DashboardUser.verifies (u : DashboardUser) (password : String) : Bool :=
  match cr.decode u.salt, cr.decode u.pbkdf2 with
  | some salt, some want => cr.key password salt u.iter want.length == some want
  | _, _ => false

theorem AuthData.verify_eq {cr : Crypto} {a : AuthData} {user : String} {u : DashboardUser}
    (h : a.users.get user = some u) (password : String) :
    a.VerifyDashboardUser cr user password = u.verifies cr password := by
  simp only [VerifyDashboardUser, h]
  rfl

/-- The stamp of a record, where `hash` is SHA-256 in hex. -/
def DashboardUser.stamp (hash : String → String) (u : DashboardUser) : String :=
  hash (u.pbkdf2 ++ "." ++ u.salt ++ "." ++ toString u.iter)

def AuthData.DashboardCredentialStamp (hash : String → String) (a : AuthData) (user : String) :
    Option String :=
  (a.users.get user).map (DashboardUser.stamp hash)

end Marshal.Server

namespace Marshal.Dashboard
open Server

/-! ### Logins and requests -/

inductive LoginPc where
  /-- The lockout check is passed; the user's record is read next. -/
  | asking
  | hashing (u : DashboardUser)
  /-- The password was verified against the record; the stamp is next. -/
  | verified (u : DashboardUser)
  | stamped (u : DashboardUser) (stamp : String)
  | created (u : DashboardUser) (tok : String)
  | failed
  deriving DecidableEq

structure Login where
  user : String
  pass : String
  pc : LoginPc
  deriving DecidableEq

/-- Where a request stands in `requireSession`. -/
inductive RequestPc where
  | validating
  /-- The session is valid; the user's current stamp is next. -/
  | comparing (user stamp : String)
  | accepted (user stamp : String)
  /-- The session is deleted next. -/
  | stale
  | rejected
  deriving DecidableEq

structure Request where
  tok : String
  pc : RequestPc
  deriving DecidableEq

/-- The handler's state, with the logins and requests so far. -/
structure Handler where
  auth : AuthDir
  sessions : Sessions
  logins : List Login := []
  requests : List Request := []

inductive Act where
  | auth (a : AuthAct)
  | login (user pass : String)
  /-- With the token that is drawn if the step creates the session. -/
  | loginStep (i : Nat) (tok : Option String)
  | request (tok : String)
  | requestStep (i : Nat)
  | logout (tok : String)
  | sweep
  | tick (d : Nat)

namespace Handler
variable (cr : Crypto) (hash : String → String)

/-- The server's credentials, if its lock is free. -/
def readable (d : Handler) : Option AuthData :=
  match (d.auth.stores .server).pc with
  | .idle => some (d.auth.stores .server).data
  | _ => none

/-- A login's step, and what becomes of the session store. -/
def advance (d : Handler) (l : Login) (tok : Option String) : Option (SessionStore × LoginPc) :=
  match l.pc with
  | .asking => d.readable.map fun data => match data.users.get l.user with
    | none => (d.sessions.store, .failed)
    | some u => (d.sessions.store, .hashing u)
  | .hashing u => some (d.sessions.store, if u.verifies cr l.pass then .verified u else .failed)
  | .verified u => d.readable.map fun data =>
    (d.sessions.store, .stamped u ((data.DashboardCredentialStamp hash l.user).getD ""))
  | .stamped u stamp => match tok with
    | none => some (d.sessions.store, .failed)
    | some tok => some (d.sessions.store.create hash d.sessions.now l.user stamp tok, .created u tok)
  | .created _ _ | .failed => none

/-- A request's step. -/
def require (d : Handler) (r : Request) : Option (SessionStore × RequestPc) :=
  match r.pc with
  | .validating =>
    let (store, answer) := d.sessions.store.validate hash d.sessions.now r.tok
    some (store, match answer with
      | none => .rejected
      | some (user, stamp) => .comparing user stamp)
  | .comparing user stamp => d.readable.map fun data =>
    (d.sessions.store,
      if data.DashboardCredentialStamp hash user = some stamp then .accepted user stamp else .stale)
  | .stale => some (d.sessions.store.delete hash r.tok, .rejected)
  | .accepted _ _ | .rejected => none

def withStore (d : Handler) (store : SessionStore) : Handler :=
  { d with sessions := { d.sessions with store := store } }

def step (d : Handler) : Act → Option Handler
  | .auth a => (d.auth.step cr a).map fun auth => { d with auth := auth }
  | .login user pass => some { d with logins := d.logins ++ [⟨user, pass, .asking⟩] }
  | .loginStep i tok => do
    let l ← d.logins[i]?
    let (store, pc) ← d.advance cr hash l tok
    pure { d.withStore store with logins := d.logins.set i { l with pc := pc } }
  | .request tok => some { d with requests := d.requests ++ [⟨tok, .validating⟩] }
  | .requestStep i => do
    let r ← d.requests[i]?
    let (store, pc) ← d.require hash r
    pure { d.withStore store with requests := d.requests.set i { r with pc := pc } }
  | .logout tok => some (d.withStore (d.sessions.store.delete hash tok))
  | .sweep => some (d.withStore (d.sessions.store.sweep d.sessions.now))
  | .tick n => some { d with sessions := { d.sessions with now := d.sessions.now + n } }

/-- The runs of a server that starts without sessions. -/
def machine : Transition.System Handler Act where
  init d := (AuthDir.machine cr).init d.auth ∧ d.sessions.store.m = ∅ ∧ d.logins = [] ∧ d.requests = []
  step := step cr hash

end Handler

end Marshal.Dashboard
