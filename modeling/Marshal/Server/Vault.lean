import Mathlib.Logic.Function.Basic
import Marshal.Credstore
import Marshal.Notify.Routing
import Marshal.Notify.Secrets
import Marshal.Secretbox

/-! The secrets of a server over its restarts.

Credentials and the secrets of channels are sealed under one master key, changed in memory and
written out, and read again at the next start. What is to be found there is told by `Known`: what
was put last, in memory, and what was put when something was last saved, after a start. The server
opens all of it, and finds just that (`secrets_kept`). -/
namespace Marshal.Server
open Secretbox Transition WriteThrough

/-! ### The calls with their cipher -/

inductive CredentialCall where
  | put (name username token : String) (nonce : List UInt8) (now : Int)
  | generate (name : String) (keypair : Option (String × String)) (nonce : List UInt8) (now : Int)
  | setKnownHosts (name line : String)
  | delete (name : String)

inductive NotificationCall where
  | putChannel (c : Notify.Channel) (secrets : Table String String) (nonce : List UInt8) (now : Int)
  | deleteChannel (name : String)
  | putRule (r : Notify.Rule)
  | deleteRule (name : String)
  | setSettings (st : Notify.Settings)

section Calls
variable (C : Cipher) (key : Key)

/-- `seal` of the credential store. -/
def sealText (nonce : List UInt8) (text : String) : String × String := Seal C key nonce (Utf8.encode text.toList)

/-- `openCipher` -/
def openText (nonceB64 cipherB64 : String) : Option String :=
  (Open C key nonceB64 cipherB64).map fun text => String.ofList (Utf8.lossy text)

def openSecrets (nonceB64 cipherB64 : String) : Option (Table String String) :=
  (Open C key nonceB64 cipherB64).bind Notify.Secrets.unmarshal

def CredentialCall.op : CredentialCall → Credstore.Op
  | .put name username token nonce now => .put name username token (fun text => some (sealText C key nonce text)) now
  | .generate name keypair nonce now => .generate name keypair (fun text => some (sealText C key nonce text)) now
  | .setKnownHosts name line => .setKnownHosts name line
  | .delete name => .delete name

def NotificationCall.op : NotificationCall → Notify.StoreOp
  | .putChannel c secrets nonce now =>
    .putChannel c secrets (fun m => some (Seal C key nonce (Notify.Secrets.marshal m))) now
  | .deleteChannel name => .deleteChannel name
  | .putRule r => .putRule r
  | .deleteRule name => .deleteRule name
  | .setSettings st => .setSettings st

/-- Only of type `https-token`; the outer `none` is a failing decryption. -/
def Get (d : Credstore.Data) (name : String) : Option (Option (String × String)) :=
  match d.get name with
  | none => some none
  | some e =>
    if e.type ≠ "https-token" then some none
    else (openText C key e.nonce e.cipher).map fun token => some (e.username, token)

/-- A private key with its pinned hosts. -/
def GetKey (d : Credstore.Data) (name : String) : Option (Option (String × String)) :=
  match d.get name with
  | none => some none
  | some e =>
    if e.type ≠ "ssh-key" then some none
    else (openText C key e.nonce e.cipher).map fun priv => some (priv, e.knownHosts)

theorem openText_sealText {C : Cipher} (hC : Lawful C) {key : Key} (nonce : List UInt8) (text : String) :
    openText C key (sealText C key nonce text).1 (sealText C key nonce text).2 = some text := by
  rw [openText, sealText, Open_Seal hC, Option.map_some, Utf8.lossy_encode, String.ofList_toList]

end Calls

/-! ### What is known -/

inductive Secret where
  | token (username token : String)
  | sshKey (priv knownHosts : String)

/-- What a call that is not refused makes of the credentials. -/
def CredentialCall.after (m : String → Option Secret) : CredentialCall → String → Option Secret
  | .put name username token _ _ => Function.update m name (some (.token username token))
  | .generate name keypair _ _ => match keypair with
    | some k => Function.update m name (some (.sshKey k.1 ""))
    | none => m
  | .setKnownHosts name line => match m name with
    | some (.sshKey priv _) => Function.update m name (some (.sshKey priv line))
    | _ => m
  | .delete name => Function.update m name none

/-- What a call that is not refused makes of the channels' secrets; none given, a channel keeps its own. -/
def NotificationCall.after (m : String → Option (String → Option String)) :
    NotificationCall → String → Option (String → Option String)
  | .putChannel c secrets _ _ =>
    Function.update m c.name (some (if secrets.toList.length > 0 then secrets.get else (m c.name).getD fun _ => none))
  | .deleteChannel name => Function.update m name none
  | _ => m

/-- In memory, and where it was last saved. -/
abbrev Known (σ : Type) := Mirror (String → Option σ) (String → Option σ)

def Known.call {σ : Type} (w : Known σ) (done : Bool) (m : String → Option σ) (saved : Bool) : Known σ :=
  if done then ⟨m, if saved then m else w.file⟩ else w

structure Vault where
  /-- `master.key` -/
  keyFile : Option (List UInt8) := none
  /-- Of the server that runs. -/
  key : Option Key := none
  credentials : Credstore.Store := ⟨∅, none⟩
  notifications : Notify.Store := ⟨{}, none⟩
  -- the history: no step depends on it
  secrets : Known Secret := ⟨fun _ => none, fun _ => none⟩
  channels : Known (String → Option String) := ⟨fun _ => none, fun _ => none⟩

inductive VaultAct where
  | start (drawn : Option Key) (keySaved : Bool)
  | credential (c : CredentialCall) (saved : Bool)
  | notification (c : NotificationCall) (saved : Bool)

namespace Vault
variable (C : Cipher) (env : String)

/-- A start, and with it the end of the server before. -/
def start (v : Vault) (key : Key) (keyFile : Option (List UInt8)) : Vault where
  keyFile := keyFile
  key := some key
  credentials := ⟨Credstore.Open v.credentials.file, v.credentials.file⟩
  notifications := ⟨Notify.Open v.notifications.file, v.notifications.file⟩
  secrets := ⟨v.secrets.file, v.secrets.file⟩
  channels := ⟨v.channels.file, v.channels.file⟩

def credential (v : Vault) (key : Key) (c : CredentialCall) (saved : Bool) : Vault :=
  { v with
    credentials := (c.op C key).run v.credentials saved
    secrets := v.secrets.call ((c.op C key).change v.credentials.memory).isSome (c.after v.secrets.memory) saved }

def notification (v : Vault) (key : Key) (c : NotificationCall) (saved : Bool) : Vault :=
  { v with
    notifications := (c.op C key).run v.notifications saved
    channels := v.channels.call ((c.op C key).change v.notifications.memory).isSome (c.after v.channels.memory) saved }

def step (v : Vault) : VaultAct → Option Vault
  | .start drawn keySaved => (Load env v.keyFile drawn keySaved).map fun r => v.start r.1 r.2
  | .credential c saved => v.key.map fun key => v.credential C key c saved
  | .notification c saved => v.key.map fun key => v.notification C key c saved

end Vault

/-- A server's directory, empty at first, and the environment variable that it starts with. -/
def vault (C : Cipher) (env : String) : System Vault VaultAct where
  init v := v = {}
  step := Vault.step C env

/-! ### What is found -/

section Found
variable (C : Cipher) (key : Key)

/-- The entry has just what is known. -/
def Holds : Option Credstore.Entry → Option Secret → Prop
  | none, none => True
  | some e, some (.token username token) =>
    e.type = "https-token" ∧ e.username = username ∧ openText C key e.nonce e.cipher = some token
  | some e, some (.sshKey priv knownHosts) =>
    e.type = "ssh-key" ∧ e.knownHosts = knownHosts ∧ openText C key e.nonce e.cipher = some priv
  | _, _ => False

/-- What `ChannelSecrets` reads of a channel. -/
def secretsOf (sc : Notify.StoredChannel) : Option (Table String String) :=
  if sc.secretCipher = "" then some ∅ else openSecrets C key sc.secretNonce sc.secretCipher

def HoldsSecrets : Option Notify.StoredChannel → Option (String → Option String) → Prop
  | none, none => True
  | some sc, some m => ∃ t, secretsOf C key sc = some t ∧ t.get = m
  | _, _ => False

def AllHold (d : Credstore.Data) (m : String → Option Secret) : Prop := ∀ name, Holds C key (d.get name) (m name)

def AllHoldSecrets (d : Notify.FileModel) (m : String → Option (String → Option String)) : Prop :=
  ∀ name, HoldsSecrets C key (d.channels.get name) (m name)

variable {C key}

theorem allHold_cases {d : Credstore.Data} {m : String → Option Secret} (h : AllHold C key d m) (name : String) :
    (d.get name = none ∧ m name = none) ∨
      ∃ e s, d.get name = some e ∧ m name = some s ∧ Holds C key (some e) (some s) := by
  have hname := h name
  cases hget : d.get name with
  | none =>
    cases hknown : m name with
    | none => exact .inl ⟨rfl, rfl⟩
    | some s =>
      rw [hget, hknown] at hname
      exact absurd hname id
  | some e =>
    cases hknown : m name with
    | none =>
      rw [hget, hknown] at hname
      exact absurd hname id
    | some s =>
      rw [hget, hknown] at hname
      exact .inr ⟨e, s, rfl, rfl, hname⟩

theorem allHoldSecrets_cases {d : Notify.FileModel} {m : String → Option (String → Option String)}
    (h : AllHoldSecrets C key d m) (name : String) :
    (d.channels.get name = none ∧ m name = none) ∨
      ∃ sc s t, d.channels.get name = some sc ∧ m name = some s ∧ secretsOf C key sc = some t ∧ t.get = s := by
  have hname := h name
  cases hget : d.channels.get name with
  | none =>
    cases hknown : m name with
    | none => exact .inl ⟨rfl, rfl⟩
    | some s =>
      rw [hget, hknown] at hname
      exact absurd hname id
  | some sc =>
    cases hknown : m name with
    | none =>
      rw [hget, hknown] at hname
      exact absurd hname id
    | some s =>
      rw [hget, hknown] at hname
      obtain ⟨t, ht, hsame⟩ := hname
      exact .inr ⟨sc, s, t, rfl, rfl, ht, hsame⟩

theorem allHold_set {d : Credstore.Data} {m : String → Option Secret} (h : AllHold C key d m) (name : String)
    {e : Credstore.Entry} {s : Secret} (hnew : Holds C key (some e) (some s)) :
    AllHold C key (d.set name e) (Function.update m name (some s)) := by
  intro n
  rw [Table.get_set, Function.update_apply]
  split
  · exact hnew
  · exact h n

theorem allHold_call (hC : Lawful C) {d d' : Credstore.Data} {m : String → Option Secret} (h : AllHold C key d m)
    {c : CredentialCall} (hchange : (c.op C key).change d = some d') : AllHold C key d' (c.after m) := by
  cases c with
  | put name username token nonce now =>
    simp only [CredentialCall.op, Credstore.Op.change, Credstore.Op.sets, Option.map_some, Option.map_eq_some_iff] at hchange
    obtain ⟨x, hx, rfl⟩ := hchange
    rw [Option.ite_none_right_eq_some, Option.some.injEq] at hx
    obtain ⟨-, rfl⟩ := hx
    have hnew : openText C key (sealText C key nonce token).1 (sealText C key nonce token).2 = some token :=
      openText_sealText hC nonce token
    exact allHold_set (s := .token username token) h name ⟨rfl, rfl, hnew⟩
  | generate name keypair nonce now =>
    simp only [CredentialCall.op, Credstore.Op.change, Credstore.Op.sets, Option.map_some, Option.map_eq_some_iff] at hchange
    obtain ⟨x, hx, rfl⟩ := hchange
    rw [Option.ite_none_right_eq_some, Option.bind_eq_some_iff] at hx
    obtain ⟨-, k, rfl, hx⟩ := hx
    rw [Option.some.injEq] at hx
    rw [← hx]
    exact allHold_set (s := .sshKey k.1 "") h name ⟨rfl, rfl, openText_sealText hC nonce k.1⟩
  | setKnownHosts name line =>
    simp only [CredentialCall.op, Credstore.Op.change, Credstore.Op.sets, Option.map_eq_some_iff] at hchange
    obtain ⟨x, hx, rfl⟩ := hchange
    rw [Option.bind_eq_some_iff] at hx
    obtain ⟨e, hget, hx⟩ := hx
    rw [Option.ite_none_right_eq_some, Option.some.injEq] at hx
    obtain ⟨htype, rfl⟩ := hx
    rcases allHold_cases h name with hnone | hboth
    · rw [hget] at hnone
      cases hnone.1
    · obtain ⟨e', s, hget', hknown, hold⟩ := hboth
      obtain rfl : e = e' := Option.some.inj (hget.symm.trans hget')
      simp only [CredentialCall.after, hknown]
      cases s with
      | token username token =>
        rw [hold.1] at htype
        exact absurd htype (by decide)
      | sshKey priv knownHosts =>
        obtain ⟨htype, -, hopen⟩ := hold
        exact allHold_set (s := .sshKey priv line) h name ⟨htype, rfl, hopen⟩
  | delete name =>
    simp only [CredentialCall.op, Credstore.Op.change, Option.map_eq_some_iff] at hchange
    obtain ⟨e, -, rfl⟩ := hchange
    intro n
    rw [Table.get_del, CredentialCall.after, Function.update_apply]
    split
    · trivial
    · exact h n

theorem secretsOf_sealed (hC : Lawful C) (nonce : List UInt8) (secrets : Table String String) {sc : Notify.StoredChannel}
    (hnonce : sc.secretNonce = (Seal C key nonce (Notify.Secrets.marshal secrets)).1)
    (hcipher : sc.secretCipher = (Seal C key nonce (Notify.Secrets.marshal secrets)).2) :
    ∃ t, secretsOf C key sc = some t ∧ t.get = secrets.get := by
  rw [secretsOf, hnonce, hcipher, if_neg (Seal_ne_empty hC _ _), openSecrets, Open_Seal hC]
  exact Notify.Secrets.unmarshal_marshal secrets

theorem allHoldSecrets_set {d d' : Notify.FileModel} {m : String → Option (String → Option String)}
    (h : AllHoldSecrets C key d m) {name : String} {sc : Notify.StoredChannel} {s : String → Option String}
    (hd' : d'.channels = d.channels.set name sc) (hnew : HoldsSecrets C key (some sc) (some s)) :
    AllHoldSecrets C key d' (Function.update m name (some s)) := by
  intro n
  rw [hd', Table.get_set, Function.update_apply]
  split
  · exact hnew
  · exact h n

theorem allHoldSecrets_call (hC : Lawful C) {d d' : Notify.FileModel} {m : String → Option (String → Option String)}
    (h : AllHoldSecrets C key d m) {c : NotificationCall} (hchange : (c.op C key).change d = some d') :
    AllHoldSecrets C key d' (c.after m) := by
  cases c with
  | putChannel c secrets nonce now =>
    simp only [NotificationCall.op, Notify.StoreOp.change, Option.map_eq_some_iff] at hchange
    obtain ⟨sc, hsc, rfl⟩ := hchange
    unfold Notify.putting at hsc
    dsimp only at hsc
    rw [Option.ite_none_right_eq_some, Option.map_eq_some_iff] at hsc
    obtain ⟨-, p, hp, rfl⟩ := hsc
    refine allHoldSecrets_set h rfl ?_
    split at hp
    · rename_i hsome
      cases hp
      rw [if_pos hsome]
      exact secretsOf_sealed hC nonce secrets rfl rfl
    · rename_i hnone
      cases hp
      rw [if_neg hnone]
      rcases allHoldSecrets_cases h c.name with hgone | hboth
      · rw [hgone.1, hgone.2]
        exact ⟨∅, rfl, rfl⟩
      · obtain ⟨old, s, t, hget, hknown, ht, hsame⟩ := hboth
        rw [hget, hknown]
        exact ⟨t, ht, hsame⟩
  | deleteChannel name =>
    simp only [NotificationCall.op, Notify.StoreOp.change, Option.map_eq_some_iff] at hchange
    obtain ⟨e, -, rfl⟩ := hchange
    intro n
    show HoldsSecrets C key ((d.channels.del name).get n) _
    rw [Table.get_del, NotificationCall.after, Function.update_apply]
    split
    · trivial
    · exact h n
  | putRule r =>
    simp only [NotificationCall.op, Notify.StoreOp.change, Option.ite_none_right_eq_some, Option.some.injEq] at hchange
    obtain ⟨-, rfl⟩ := hchange
    exact h
  | deleteRule name =>
    simp only [NotificationCall.op, Notify.StoreOp.change, Option.map_eq_some_iff] at hchange
    obtain ⟨e, -, rfl⟩ := hchange
    exact h
  | setSettings st =>
    simp only [NotificationCall.op, Notify.StoreOp.change, Option.some.injEq] at hchange
    obtain rfl := hchange
    exact h

end Found

/-! ### Whole runs -/

section Run
variable {C : Cipher} {env : String}

/-- Memory and file hold what is known of them, under the key that the next start loads as well. -/
structure Faithful (C : Cipher) (env : String) (v : Vault) : Prop where
  /-- Before the first start there is nothing. -/
  fresh : v.key = none → v = {}
  loaded : ∀ key, v.key = some key → ∀ drawn saved, Load env v.keyFile drawn saved = some (key, v.keyFile)
  secrets : ∀ key, v.key = some key → AllHold C key v.credentials.memory v.secrets.memory ∧
    AllHold C key (Credstore.Open v.credentials.file) v.secrets.file
  channels : ∀ key, v.key = some key → AllHoldSecrets C key v.notifications.memory v.channels.memory ∧
    AllHoldSecrets C key (Notify.Open v.notifications.file) v.channels.file

/-- What a call leaves of a store and of what is known of it. -/
theorem holds_through (hC : Lawful C) {key : Key} {s : Credstore.Store} {w : Known Secret}
    (hmemory : AllHold C key s.memory w.memory) (hfile : AllHold C key (Credstore.Open s.file) w.file)
    (c : CredentialCall) (saved : Bool) :
    AllHold C key ((c.op C key).run s saved).memory
        (w.call ((c.op C key).change s.memory).isSome (c.after w.memory) saved).memory ∧
      AllHold C key (Credstore.Open ((c.op C key).run s saved).file)
        (w.call ((c.op C key).change s.memory).isSome (c.after w.memory) saved).file := by
  rw [Credstore.run_eq]
  cases hchange : (c.op C key).change s.memory with
  | none => exact ⟨hmemory, hfile⟩
  | some d' =>
    have hnew := allHold_call hC hmemory hchange
    cases saved with
    | false => exact ⟨hnew, hfile⟩
    | true => exact ⟨hnew, hnew⟩

theorem holdsSecrets_through (hC : Lawful C) {key : Key} {s : Notify.Store} {w : Known (String → Option String)}
    (hmemory : AllHoldSecrets C key s.memory w.memory) (hfile : AllHoldSecrets C key (Notify.Open s.file) w.file)
    (c : NotificationCall) (saved : Bool) :
    AllHoldSecrets C key ((c.op C key).run s saved).memory
        (w.call ((c.op C key).change s.memory).isSome (c.after w.memory) saved).memory ∧
      AllHoldSecrets C key (Notify.Open ((c.op C key).run s saved).file)
        (w.call ((c.op C key).change s.memory).isSome (c.after w.memory) saved).file := by
  rw [Notify.run_eq]
  cases hchange : (c.op C key).change s.memory with
  | none => exact ⟨hmemory, hfile⟩
  | some d' =>
    have hnew := allHoldSecrets_call hC hmemory hchange
    cases saved with
    | false => exact ⟨hnew, hfile⟩
    | true => exact ⟨hnew, hnew⟩

theorem faithful_start {v : Vault} (h : Faithful C env v) {drawn : Option Key} {keySaved : Bool} {key : Key}
    {keyFile : Option (List UInt8)} (hload : Load env v.keyFile drawn keySaved = some (key, keyFile)) :
    Faithful C env (v.start key keyFile) := by
  have hheld : AllHold C key (Credstore.Open v.credentials.file) v.secrets.file ∧
      AllHoldSecrets C key (Notify.Open v.notifications.file) v.channels.file := by
    cases hkey : v.key with
    | none =>
      rw [h.fresh hkey]
      exact ⟨fun _ => trivial, fun _ => trivial⟩
    | some old =>
      -- the key is the one the data is sealed under
      have hsame := h.loaded old hkey drawn keySaved
      rw [hload, Option.some.injEq, Prod.mk.injEq] at hsame
      rw [hsame.1]
      exact ⟨(h.secrets old hkey).2, (h.channels old hkey).2⟩
  refine ⟨?_, ?_, ?_, ?_⟩
  · intro hnone
    cases hnone
  · intro key' hkey' drawn' saved'
    cases hkey'
    exact Load_again hload drawn' saved'
  · intro key' hkey'
    cases hkey'
    exact ⟨hheld.1, hheld.1⟩
  · intro key' hkey'
    cases hkey'
    exact ⟨hheld.2, hheld.2⟩

theorem faithful_step (hC : Lawful C) {v w : Vault} {a : VaultAct} (h : Faithful C env v)
    (hstep : v.step C env a = some w) : Faithful C env w := by
  cases a with
  | start drawn keySaved =>
    obtain ⟨r, hload, rfl⟩ := Option.map_eq_some_iff.mp hstep
    exact faithful_start h hload
  | credential c saved =>
    obtain ⟨key, hkey, rfl⟩ := Option.map_eq_some_iff.mp hstep
    refine ⟨fun hnone => absurd (hkey.symm.trans hnone) (by simp), h.loaded, fun key' hkey' => ?_, h.channels⟩
    obtain rfl : key = key' := Option.some.inj (hkey.symm.trans hkey')
    exact holds_through hC (h.secrets key hkey).1 (h.secrets key hkey).2 c saved
  | notification c saved =>
    obtain ⟨key, hkey, rfl⟩ := Option.map_eq_some_iff.mp hstep
    refine ⟨fun hnone => absurd (hkey.symm.trans hnone) (by simp), h.loaded, h.secrets, fun key' hkey' => ?_⟩
    obtain rfl : key = key' := Option.some.inj (hkey.symm.trans hkey')
    exact holdsSecrets_through hC (h.channels key hkey).1 (h.channels key hkey).2 c saved

theorem faithful_run (hC : Lawful C) {v w : Vault} {as : List VaultAct} (hinit : (vault C env).init v)
    (hrun : (vault C env).run v as = some w) : Faithful C env w := by
  refine (vault C env).run_invariant (fun v a w h hstep => faithful_step hC h hstep) ?_ hrun
  rw [show v = {} from hinit]
  exact ⟨fun _ => rfl, by simp, by simp, by simp⟩

end Run

/-- What `Get`, `GetKey` and `ChannelSecrets` are to answer for what is known. -/
structure Answers (C : Cipher) (key : Key) (v : Vault) (name : String) : Prop where
  token : Get C key v.credentials.memory name = some (match v.secrets.memory name with
    | some (.token username token) => some (username, token)
    | _ => none)
  sshKey : GetKey C key v.credentials.memory name = some (match v.secrets.memory name with
    | some (.sshKey priv knownHosts) => some (priv, knownHosts)
    | _ => none)
  channel : ∃ t, v.notifications.memory.ChannelSecrets (openSecrets C key) name =
      some (t, (v.channels.memory name).isSome) ∧ t.get = (v.channels.memory name).getD fun _ => none

theorem answers_of_holds {C : Cipher} {key : Key} {v : Vault} (hsecrets : AllHold C key v.credentials.memory v.secrets.memory)
    (hchannels : AllHoldSecrets C key v.notifications.memory v.channels.memory) (name : String) : Answers C key v name := by
  refine ⟨?_, ?_, ?_⟩
  · unfold Get
    rcases allHold_cases hsecrets name with hnone | hboth
    · rw [hnone.1, hnone.2]
    · obtain ⟨e, s, hget, hknown, hold⟩ := hboth
      rw [hget, hknown]
      cases s with
      | token username token =>
        obtain ⟨htype, husername, hopen⟩ := hold
        simp [htype, husername, hopen]
      | sshKey priv knownHosts =>
        obtain ⟨htype, -, -⟩ := hold
        simp [htype]
  · unfold GetKey
    rcases allHold_cases hsecrets name with hnone | hboth
    · rw [hnone.1, hnone.2]
    · obtain ⟨e, s, hget, hknown, hold⟩ := hboth
      rw [hget, hknown]
      cases s with
      | token username token =>
        obtain ⟨htype, -, -⟩ := hold
        simp [htype]
      | sshKey priv knownHosts =>
        obtain ⟨htype, hhosts, hopen⟩ := hold
        simp [htype, hhosts, hopen]
  · unfold Notify.FileModel.ChannelSecrets
    rcases allHoldSecrets_cases hchannels name with hnone | hboth
    · rw [hnone.1, hnone.2]
      exact ⟨∅, rfl, rfl⟩
    · obtain ⟨sc, s, t, hget, hknown, ht, hsame⟩ := hboth
      rw [hget, hknown]
      refine ⟨t, ?_, hsame⟩
      unfold secretsOf at ht
      dsimp only
      split at ht
      · rename_i hempty
        rw [if_pos hempty]
        cases ht
        rfl
      · rename_i hsealed
        rw [if_neg hsealed, ht]
        rfl

/-- **Secrets are kept over restarts**: a server that runs answers, under every name, with the
token, key or channel secrets that were put there last, or at the last save before its start; a
channel put without secrets keeps those it had, and no decryption fails. The key is the same after each restart,
as long as the environment is. -/
theorem secrets_kept {C : Cipher} (hC : Lawful C) {env : String} {v w : Vault} {as : List VaultAct}
    (hinit : (vault C env).init v) (hrun : (vault C env).run v as = some w) :
    (∀ key, w.key = some key → ∀ name, Answers C key w name) ∧
      ∀ key drawn saved, w.key = some key → Load env w.keyFile drawn saved = some (key, w.keyFile) := by
  have h := faithful_run hC hinit hrun
  refine ⟨fun key hkey name => ?_, fun key drawn saved hkey => h.loaded key hkey drawn saved⟩
  exact answers_of_holds (h.secrets key hkey).1 (h.channels key hkey).1 name

/-- A cipher that only adds a tag. -/
def tagging : Cipher where
  encrypt _ _ text := 0 :: text
  decrypt _ _ text := text.tail?

theorem tagging_lawful : Lawful tagging := ⟨fun _ _ _ => rfl, fun _ _ _ => List.cons_ne_nil _ _⟩

/-- A token is rotated without a save, and a channel put again without secrets, before the restart. -/
def restarted : List VaultAct :=
  [.start (some ⟨List.replicate 32 7, rfl⟩) true,
    .credential (.put "git" "bot" "t1" [1] 5) true,
    .notification (.putChannel { name := "ops", type := "slack", enabled := true }
      ((∅ : Table String String).set "webhook_url" "u") [2] 6) true,
    .credential (.put "git" "bot" "t2" [3] 7) false,
    .notification (.putChannel { name := "ops", type := "slack", enabled := false } ∅ [] 8) true,
    .start none true]

theorem secrets_restarted : ∃ w key, (vault tagging "").run {} restarted = some w ∧ w.key = some key ∧
    Get tagging key w.credentials.memory "git" = some (some ("bot", "t1")) ∧
    (w.channels.memory "ops").map (fun m => m "webhook_url") = some (some "u") ∧ ∀ name, Answers tagging key w name := by
  have hrun : ∃ w key, (vault tagging "").run {} restarted = some w ∧ w.key = some key ∧
      w.secrets.memory "git" = some (.token "bot" "t1") ∧
      (w.channels.memory "ops").map (fun m => m "webhook_url") = some (some "u") := ⟨_, _, rfl, rfl, rfl, rfl⟩
  obtain ⟨w, key, hrun, hkey, htoken, hchannel⟩ := hrun
  have hanswers := (secrets_kept tagging_lawful rfl hrun).1 key hkey
  refine ⟨w, key, hrun, hkey, ?_, hchannel, hanswers⟩
  rw [(hanswers "git").token, htoken]

end Marshal.Server
