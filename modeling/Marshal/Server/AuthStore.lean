import Marshal.Lib.StampedCopy
import Marshal.Lib.System
import Marshal.Server.Auth
import Mathlib.Logic.Function.Basic

/-! `auth.json` and the processes that change it.

The running server and every command hold a store of their own, read from the file
once. A change is made in the store, written out whole to the one temporary name and
renamed over the file; each of these is a step, between which other processes go on.
`mu` keeps the server's own calls apart, nothing does across processes. The server
polls the modification time (`Reload`): its stat, comparison, read and swap are steps
too. The run decides what fails and what the clocks say. -/
namespace Marshal.Server
open StampedCopy

/-! ### What changes the credentials -/

/-- The primitives the store calls; base64 is `encode` and `decode`. -/
structure Crypto where
  hashToken : String → String
  /-- Of a password, a salt, the iterations and the length. -/
  key : String → List UInt8 → Nat → Nat → Option (List UInt8)
  encode : List UInt8 → String
  decode : String → Option (List UInt8)

inductive AuthError where
  /-- `unknown token %q (want enroll|admin)`. -/
  | unknownToken (which : String)
  /-- `dashboard user name required`. -/
  | userRequired
  /-- `dashboard password required`. -/
  | passwordRequired
  | noRandom
  | noKey
  | notSaved
deriving DecidableEq

def dashboardPBKDF2Iter : Nat := 600000

namespace AuthData
variable (cr : Crypto)

/-- A failed save puts the entry back. -/
def removeAgent (a : AuthData) (name : String) (saved : Bool) : AuthData × Bool :=
  match a.agents.get name with
  | none => (a, false)
  | some entry =>
    let agents := a.agents.del name
    if saved then ({ a with agents := agents }, true)
    else ({ a with agents := agents.set name entry }, false)

def rotate (a : AuthData) (which : String) (fresh : Option String) (saved : Bool) :
    AuthData × Except AuthError String :=
  match fresh with
  | none => (a, .error .noRandom)
  | some tok =>
    if which = "enroll" then
      let b := { a with enrollTokenHash := cr.hashToken tok }
      if saved then (b, .ok tok)
      else ({ b with enrollTokenHash := a.enrollTokenHash }, .error .notSaved)
    else if which = "admin" then
      let b := { a with adminTokenHash := cr.hashToken tok }
      if saved then (b, .ok tok)
      else ({ b with adminTokenHash := a.adminTokenHash }, .error .notSaved)
    else (a, .error (.unknownToken which))

def SetDashboardUser (a : AuthData) (user password : String) (salt : Option (List UInt8))
    (saved : Bool) : AuthData × Except AuthError Unit :=
  if user = "" then (a, .error .userRequired)
  else if password = "" then (a, .error .passwordRequired)
  else match salt with
    | none => (a, .error .noRandom)
    | some salt => match cr.key password salt dashboardPBKDF2Iter 32 with
      | none => (a, .error .noKey)
      | some dk =>
        let users := a.users.set user ⟨cr.encode dk, cr.encode salt, dashboardPBKDF2Iter⟩
        if saved then ({ a with users := users }, .ok ())
        else match a.users.get user with
          | some old => ({ a with users := users.set user old }, .error .notSaved)
          | none => ({ a with users := users.del user }, .error .notSaved)

/-- Whether the password matches the user's stored key. -/
def VerifyDashboardUser (a : AuthData) (user password : String) : Bool :=
  match a.users.get user with
  | none => false
  | some u => match cr.decode u.salt, cr.decode u.pbkdf2 with
    | some salt, some want => cr.key password salt u.iter want.length == some want
    | _, _ => false

end AuthData

/-- A call that changes the credentials, with what it draws. -/
inductive Op where
  | enrollAgent (name : String) (fresh : Option String) (now : Int)
  | removeAgent (name : String)
  | rotate (which : String) (fresh : Option String)
  | setDashboardUser (user password : String) (salt : Option (List UInt8))

/-- What the call makes of the credentials, and whether it reports success, given whether they
are saved. -/
def Op.apply (cr : Crypto) (op : Op) (a : AuthData) (saved : Bool) : AuthData × Bool :=
  match op with
  | .enrollAgent name fresh now =>
    let r := a.enrollAgent cr.hashToken name fresh now saved
    (r.1, r.2.isOk)
  | .removeAgent name => a.removeAgent name saved
  | .rotate which fresh =>
    let r := a.rotate cr which fresh saved
    (r.1, r.2.isOk)
  | .setDashboardUser user password salt =>
    let r := a.SetDashboardUser cr user password salt saved
    (r.1, r.2.isOk)

/-! ### The processes -/

inductive Who where
  | server
  /-- A command: `RotateToken`, `RemoveAgent` or `SetDashboardPassword`. -/
  | cli (n : Nat)
deriving DecidableEq

/-- The commands enroll nobody. -/
def Op.offered : Op → Who → Bool
  | .enrollAgent .., .cli _ => false
  | _, _ => true

/-- Where a process stands. A call keeps the credentials from before it until it has renamed. -/
inductive AuthPc where
  | start
  /-- The file has been read, its modification time is next. -/
  | loaded
  | idle
  /-- `WriteFile` is next. -/
  | changed (op : Op) (old : AuthData)
  /-- `Rename` is next. -/
  | written (op : Op) (old : AuthData)
  /-- The modification time is next. -/
  | renamed (op : Op)
  | returned (op : Op) (ok : Bool)

structure AuthStore where
  data : AuthData := {}
  mtime : Nat := 0
  pc : AuthPc := .start

/-- Where the server's `Reload` stands. -/
inductive ReloadPc where
  | off
  | statted (mtime : Nat)
  | changed (mtime : Nat)
  | parsed (mtime : Nat) (fresh : AuthData)
  /-- `Reload` has returned without an error. -/
  | returned

/-- A file under its modification time; `none` where it does not parse. -/
abbrev AuthFile := Stamped (Option AuthData)

/-- The file, the temporary file, and the processes on them. -/
structure AuthDir where
  file : AuthFile
  tmp : Option AuthFile := none
  stores : Who → AuthStore := fun _ => {}
  reload : ReloadPc := .off

inductive AuthAct where
  /-- `ReadFile` and the parsing. -/
  | load (w : Who)
  | stat (w : Who) (ok : Bool)
  | call (w : Who) (op : Op)
  | write (w : Who) (mtime : Nat)
  /-- `WriteFile` fails, and may leave part of the text behind. -/
  | writeFails (w : Who) (torn : Option Nat)
  | rename (w : Who)
  | renameFails (w : Who)
  | reloadStat
  | reloadCheck
  | reloadRead
  | reloadReadFails
  | reloadSwap

namespace AuthDir
variable (cr : Crypto)

def put (x : AuthDir) (w : Who) (a : AuthStore) : AuthDir :=
  { x with stores := Function.update x.stores w a }

/-- A command ends with its call. -/
def finish (w : Who) (op : Op) (ok : Bool) : AuthPc :=
  match w with
  | .server => .idle
  | .cli _ => .returned op ok

/-- `save` fails and the change is taken back. -/
def takeBack (x : AuthDir) (w : Who) (op : Op) (old : AuthData) : AuthDir :=
  x.put w { x.stores w with data := (op.apply cr old false).1, pc := finish w op false }

def statStep (x : AuthDir) (w : Who) (ok : Bool) (pc : AuthPc) : AuthDir :=
  let mtime := if ok then x.file.stamp else (x.stores w).mtime
  x.put w { x.stores w with mtime := mtime, pc := pc }

def callStep (x : AuthDir) (w : Who) (op : Op) : AuthDir :=
  let a := x.stores w
  let r := op.apply cr a.data true
  x.put w { a with data := r.1, pc := if r.2 then .changed op a.data else finish w op false }

def step (x : AuthDir) : AuthAct → Option AuthDir
  | .load w => match (x.stores w).pc, x.file.value with
    | .start, some data => some (x.put w { x.stores w with data := data, pc := .loaded })
    | _, _ => none
  | .stat w ok => match (x.stores w).pc with
    | .loaded => some (x.statStep w ok .idle)
    | .renamed op => some (x.statStep w ok (finish w op true))
    | _ => none
  | .call w op => match (x.stores w).pc with
    | .idle => if op.offered w then some (x.callStep cr w op) else none
    | _ => none
  | .write w mtime => match (x.stores w).pc with
    | .changed op old =>
      let y := x.put w { x.stores w with pc := .written op old }
      some { y with tmp := some ⟨some (x.stores w).data, mtime⟩ }
    | _ => none
  | .writeFails w torn => match (x.stores w).pc with
    | .changed op old =>
      let y := x.takeBack cr w op old
      match torn with
      | none => some y
      | some mtime => some { y with tmp := some ⟨none, mtime⟩ }
    | _ => none
  | .rename w => match (x.stores w).pc with
    | .written op old => match x.tmp with
      | none => some (x.takeBack cr w op old)
      | some file =>
        let y := x.put w { x.stores w with pc := .renamed op }
        some { y with file := file, tmp := none }
    | _ => none
  | .renameFails w => match (x.stores w).pc with
    | .written op old => some (x.takeBack cr w op old)
    | _ => none
  | .reloadStat => match (x.stores .server).pc, x.reload with
    | .start, _ | .loaded, _ => none
    | _, .off | _, .returned => some { x with reload := .statted x.file.stamp }
    | _, _ => none
  -- The comparison and the swap are made under `mu`.
  | .reloadCheck => match (x.stores .server).pc, x.reload with
    | .idle, .statted mtime =>
      let unchanged := mtime = (x.stores .server).mtime
      some { x with reload := if unchanged then .returned else .changed mtime }
    | _, _ => none
  | .reloadRead => match x.reload with
    | .changed mtime => match x.file.value with
      | none => some { x with reload := .off }
      | some fresh => some { x with reload := .parsed mtime fresh }
    | _ => none
  | .reloadReadFails => match x.reload with
    | .changed _ => some { x with reload := .off }
    | _ => none
  | .reloadSwap => match (x.stores .server).pc, x.reload with
    | .idle, .parsed mtime fresh =>
      let a := x.stores .server
      let y := if a.mtime < mtime then x.put .server { a with data := fresh, mtime := mtime } else x
      some { y with reload := .returned }
    | _, _ => none

/-- A file that is there, and perhaps a temporary file; nobody has read either yet. -/
def machine : Transition.System AuthDir AuthAct where
  init x := x.reload = .off ∧ ∀ w, x.stores w = {}
  step := step cr

end AuthDir

end Marshal.Server
