import Marshal.Config
import Marshal.Errsig
import Marshal.Lib.Table
import Marshal.Lib.WriteThrough

/-! The credential store.

Tokens and private keys are sealed under the server's master key. A call changes the map
in memory and then writes the whole of it out; when that fails nothing puts the map
back. What the cipher makes of a text, fresh keys and the clock are given with a call. -/
namespace Marshal.Credstore
open WriteThrough

/-! ### The calls -/

structure Entry where
  type : String
  username : String
  /-- Of an SSH key. -/
  publicKey : String := ""
  knownHosts : String := ""
  nonce : String
  cipher : String
  createdAt : Int
deriving DecidableEq

abbrev Data := Table String Entry

/-- The map, and the map in `credentials.json`; `none` where there is no file. -/
abbrev Store := Mirror Data (Option Data)

inductive Error where
  /-- `invalid credential name %q` -/
  | invalidName (name : String)
  /-- `token is required` -/
  | tokenRequired
  | noKeypair
  | noCipher
  /-- `no ssh credential %q` -/
  | noSSHCredential (name : String)
  | notSaved
deriving DecidableEq

/-- `^[A-Za-z0-9][A-Za-z0-9._-]*$` -/
def nameRE (name : String) : Bool := Config.validAppName name

/-- What `Open` finds. -/
def Open (file : Option Data) : Data := file.getD ∅

/-- A credential that is replaced keeps its time. -/
def Data.created (d : Data) (name : String) (now : Int) : Int :=
  let created := match d.get name with
    | some old => old.createdAt
    | none => 0
  if created = 0 then now else created

namespace Store

def flushLocked (s : Store) (saved : Bool) : Store × Bool :=
  if saved then ({ s with file := some s.memory }, true) else (s, false)

/-- Set the entry and save. -/
def putLocked (s : Store) (name : String) (e : Entry) (saved : Bool) : Store × Bool :=
  flushLocked { s with memory := s.memory.set name e } saved

def Put (s : Store) (name username token : String) (box : String → Option (String × String))
    (now : Int) (saved : Bool) : Store × Except Error Unit :=
  if !nameRE name then (s, .error (.invalidName name))
  else if token = "" then (s, .error .tokenRequired)
  else match box token with
    | none => (s, .error .noCipher)
    | some (nonce, cipher) =>
      let created := s.memory.created name now
      let r := putLocked s name
        { type := "https-token", username, nonce, cipher, createdAt := created } saved
      (r.1, if r.2 then .ok () else .error .notSaved)

/-- A fresh private and public key; the answer is the public one. -/
def Generate (s : Store) (name : String) (keypair : Option (String × String))
    (box : String → Option (String × String)) (now : Int) (saved : Bool) :
    Store × Except Error String :=
  if !nameRE name then (s, .error (.invalidName name))
  else match keypair with
    | none => (s, .error .noKeypair)
    | some (priv, pub) =>
      let pubLine := String.ofList (Errsig.trimSpace pub.toList)
      match box priv with
      | none => (s, .error .noCipher)
      | some (nonce, cipher) =>
        let created := s.memory.created name now
        let r := putLocked s name
          { type := "ssh-key", username := "git", publicKey := pubLine, nonce, cipher,
            createdAt := created } saved
        (r.1, if r.2 then .ok pubLine else .error .notSaved)

def SetKnownHosts (s : Store) (name line : String) (saved : Bool) : Store × Except Error Unit :=
  match s.memory.get name with
  | none => (s, .error (.noSSHCredential name))
  | some e =>
    if e.type ≠ "ssh-key" then (s, .error (.noSSHCredential name))
    else
      let r := putLocked s name { e with knownHosts := line } saved
      (r.1, if r.2 then .ok () else .error .notSaved)

/-- Whether there was such a credential; a failed save is only logged. -/
def Delete (s : Store) (name : String) (saved : Bool) : Store × Bool :=
  match s.memory.get name with
  | none => (s, false)
  | some _ => ((flushLocked { s with memory := s.memory.del name } saved).1, true)

end Store

/-- A call that changes the store, with what it draws. -/
inductive Op where
  | put (name username token : String) (box : String → Option (String × String)) (now : Int)
  | generate (name : String) (keypair : Option (String × String))
    (box : String → Option (String × String)) (now : Int)
  | setKnownHosts (name line : String)
  | delete (name : String)

def Op.run (s : Store) (saved : Bool) : Op → Store
  | .put name username token box now => (s.Put name username token box now saved).1
  | .generate name keypair box now => (s.Generate name keypair box now saved).1
  | .setKnownHosts name line => (s.SetKnownHosts name line saved).1
  | .delete name => (s.Delete name saved).1

/-- The store, opened on its file, and the calls on it, each with whether its save goes through. -/
def machine : Transition.System Store (Op × Bool) where
  init s := s.memory = Open s.file
  step s a := some (a.1.run s a.2)

/-! ### What a call writes -/

/-- The name that is set, and the entry it is set to. -/
def Op.sets (d : Data) : Op → Option (String × Entry)
  | .put name username token box now =>
    if nameRE name ∧ token ≠ "" then
      (box token).map fun c => (name,
        { type := "https-token", username, nonce := c.1, cipher := c.2,
          createdAt := d.created name now })
    else none
  | .generate name keypair box now =>
    if nameRE name then
      keypair.bind fun k => (box k.1).map fun c => (name,
        { type := "ssh-key", username := "git", nonce := c.1, cipher := c.2,
          publicKey := String.ofList (Errsig.trimSpace k.2.toList), createdAt := d.created name now })
    else none
  | .setKnownHosts name line =>
    (d.get name).bind fun e =>
      if e.type = "ssh-key" then some (name, { e with knownHosts := line }) else none
  | .delete _ => none

/-- The call sets an entry to another one, or takes one away. -/
def Op.Alters (op : Op) (d : Data) : Prop :=
  (∃ x ∈ op.sets d, d.get x.1 ≠ some x.2) ∨ ∃ name, op = .delete name ∧ d.get name ≠ none

/-- What becomes of the map, unless the call is refused. -/
def Op.change (op : Op) (d : Data) : Option Data :=
  match op with
  | .delete name => (d.get name).map fun _ => d.del name
  | op => (op.sets d).map fun x => d.set x.1 x.2

/-- Maps are compared by what they have under each name. -/
def format : Format Data (Option Data) (String → Option Entry) where
  write := some
  read := Open
  view d := d.get
  Valid _ := True
  read_write _ _ := rfl

theorem flush_put (s : Store) (m : Data) (saved : Bool) :
    (Store.flushLocked { s with memory := m } saved).1 = through format s (some m) saved := by
  cases saved <;> rfl

theorem run_eq (s : Store) (op : Op) (saved : Bool) :
    op.run s saved = through format s (op.change s.memory) saved := by
  cases op with
  | put name username token box now =>
    unfold Op.run Store.Put Op.change Op.sets
    by_cases hname : nameRE name = true
    · by_cases htoken : token = ""
      · simp [hname, htoken, through]
      · cases hbox : box token with
        | none => simp [hname, htoken, hbox, through]
        | some c => simp [hname, htoken, hbox, Store.putLocked, flush_put]
    · simp [hname, through]
  | generate name keypair box now =>
    unfold Op.run Store.Generate Op.change Op.sets
    by_cases hname : nameRE name = true
    · cases keypair with
      | none => simp [hname, through]
      | some k =>
        cases hbox : box k.1 with
        | none => simp [hname, hbox, through]
        | some c => simp [hname, hbox, Store.putLocked, flush_put]
    · simp [hname, through]
  | setKnownHosts name line =>
    unfold Op.run Store.SetKnownHosts Op.change Op.sets
    cases hget : s.memory.get name with
    | none => simp [hget, through]
    | some e =>
      by_cases htype : e.type = "ssh-key"
      · simp [hget, htype, Store.putLocked, flush_put]
      · simp [hget, htype, through]
  | delete name =>
    unfold Op.run Store.Delete Op.change
    cases hget : s.memory.get name with
    | none => simp [hget, through]
    | some e => simp [hget, flush_put]

theorem sets_delete {op : Op} {d : Data} (h : ∀ name, op ≠ .delete name) :
    op.change d = (op.sets d).map fun x => d.set x.1 x.2 := by
  cases op with
  | delete name => exact absurd rfl (h name)
  | put | generate | setKnownHosts => rfl

def calls : Calls format Op where
  change := Op.change
  Alters := Op.Alters
  valid _ _ _ _ _ := trivial
  refused op d h := by
    rintro (⟨x, hx, -⟩ | ⟨name, rfl, hname⟩)
    · cases op with
      | delete name => cases hx
      | put | generate | setKnownHosts =>
        have hx : _ = some x := hx
        rw [sets_delete (fun _ => by simp), hx] at h
        cases h
    · simp only [Op.change, Option.map_eq_none_iff] at h
      exact hname h
  alters op d m h := by
    cases op with
    | delete name =>
      simp only [Op.change, Option.map_eq_some_iff] at h
      obtain ⟨e, hget, rfl⟩ := h
      have hsome : d.get name ≠ none := by simp [hget]
      exact iff_of_true (.inr ⟨name, rfl, hsome⟩) (mt (d.get_del_eq name).mp hsome)
    | put | generate | setKnownHosts =>
      rw [sets_delete (fun _ => by simp), Option.map_eq_some_iff] at h
      obtain ⟨x, hx, rfl⟩ := h
      show _ ↔ (d.set x.1 x.2).get ≠ d.get
      rw [Ne, Table.get_set_eq]
      constructor
      · rintro (⟨x', hx', hne⟩ | ⟨name, hname, -⟩)
        · obtain rfl := Option.some.inj (hx.symm.trans hx')
          exact hne
        · cases hname
      · exact fun hne => .inl ⟨x, hx, hne⟩

theorem step_eq (s : Store) (a : Op × Bool) :
    machine.step s a = some (through format s (calls.change a.1 s.memory) a.2) :=
  congrArg some (run_eq s a.1 a.2)

end Marshal.Credstore
