import Marshal.Lib.System
import Marshal.Notify.Dispatcher
import Marshal.Notify.Routing

/-! The dispatcher from an event to its deliveries.

Many `Emit` calls run at once, beside changes of the store, and each channel an event is for gets
a goroutine of its own, which reads the secrets, builds a sender and tries it up to three times. A call
reads channels and rules one after the other, not together. For each call that gets through the
gate, the channels that it read as enabled and that a rule it read names for the event get the
message once each, and nothing is tried again that went through (`deliveries_exact`). -/
namespace Marshal.Notify
open Transition

/-! ### Senders -/

inductive Sender where
  | webhook (url hmac : String)
  | telegram (token chatID : String)
  | slack (webhookURL : String)
  | email (host port sender recipient username password : String)
deriving DecidableEq

inductive BuildError where
  /-- `webhook: url required`, `telegram: bot_token and chat_id required`, `slack: webhook_url required`
  or `email: host, port, from, to required` -/
  | missing (text : String)
  /-- `unknown channel type %q` -/
  | unknownType (type : String)
deriving DecidableEq

/-- What Go's map gives: the empty string where there is nothing. -/
def value (t : Table String String) (k : String) : String := (t.get k).getD ""

def newWebhook (c : Channel) (secrets : Table String String) : Except BuildError Sender :=
  let url := value c.config "url"
  if url = "" then .error (.missing "webhook: url required") else .ok (.webhook url (value secrets "hmac"))

def newTelegram (c : Channel) (secrets : Table String String) : Except BuildError Sender :=
  let tok := value secrets "bot_token"
  let chat := value c.config "chat_id"
  if tok = "" ∨ chat = "" then .error (.missing "telegram: bot_token and chat_id required")
  else .ok (.telegram tok chat)

def newSlack (secrets : Table String String) : Except BuildError Sender :=
  let url := value secrets "webhook_url"
  if url = "" then .error (.missing "slack: webhook_url required") else .ok (.slack url)

def newEmail (c : Channel) (secrets : Table String String) : Except BuildError Sender :=
  let host := value c.config "host"
  let port := value c.config "port"
  let sender := value c.config "from"
  let recipient := value c.config "to"
  if host = "" ∨ port = "" ∨ sender = "" ∨ recipient = "" then
    .error (.missing "email: host, port, from, to required")
  else .ok (.email host port sender recipient (value c.config "username") (value secrets "password"))

/-- `channels.New` -/
def newSender (c : Channel) (secrets : Table String String) : Except BuildError Sender :=
  match c.type with
  | "webhook" => newWebhook c secrets
  | "telegram" => newTelegram c secrets
  | "slack" => newSlack secrets
  | "email" => newEmail c secrets
  | type => .error (.unknownType type)

/-! ### The dispatcher at work -/

/-- Where an `Emit` call stands. -/
inductive Stage where
  | emitting (e : Event)
  | screened (e : Event)
  /-- The settings and the clock are read. -/
  | asked (x : Emission)
  | accepted (x : Emission)
  | listed (x : Emission) (channels : List Channel)

/-- Where a delivery stands. -/
inductive Progress where
  | waiting
  | sending (s : Sender) (failures : Nat)
  | sent (s : Sender) (failures : Nat)
  | gaveUp (s : Sender)
  /-- The secrets could not be opened or no sender be built. -/
  | dropped
deriving DecidableEq

structure Delivery where
  /-- The call that started it. -/
  call : Nat
  channel : Channel
  message : Message
  progress : Progress := .waiting

/-- What a call read when it chose the channels. -/
structure Routing where
  call : Nat
  emission : Emission
  channels : List Channel
  rules : List Rule

structure Dispatching where
  store : Store
  last : LastSent := ∅
  calls : Table Nat Stage := ∅
  begun : Nat := 0
  deliveries : List Delivery := []
  -- the history: no step depends on it
  /-- The calls that came to the gate, each with whether it was let through. -/
  gated : List (Nat × Emission × Bool) := []
  routings : List Routing := []
  /-- The attempts: of which delivery, and whether it went through. -/
  log : List (Nat × Bool) := []

inductive DispatchAct where
  | change (op : StoreOp) (saved : Bool)
  | emit (e : Event)
  | screen (id : Nat)
  | ask (id : Nat) (now : Int)
  | lock (id : Nat)
  | list (id : Nat)
  | route (id : Nat)
  | fetch (i : Nat)
  | send (i : Nat) (ok : Bool)

def attempts : Nat := 3

/-- A delivery after one attempt more. -/
def tried (s : Sender) (failures : Nat) (ok : Bool) : Progress :=
  if ok then .sent s failures else if failures + 1 < attempts then .sending s (failures + 1) else .gaveUp s

namespace Dispatching
variable (openBox : String → String → Option (Table String String))

/-- What a goroutine has once it read the secrets. -/
def fetched (d : FileModel) (c : Channel) : Progress :=
  match d.ChannelSecrets openBox c.name with
  | none => .dropped
  | some (secrets, _) => match newSender c secrets with
    | .error _ => .dropped
    | .ok s => .sending s 0

def screen (f : Dispatching) (id : Nat) (e : Event) : Dispatching :=
  if e.type = .recovered ∧ f.store.memory.settings.suppressRecovery = true then { f with calls := f.calls.del id }
  else { f with calls := f.calls.set id (.screened e) }

def lock (f : Dispatching) (id : Nat) (x : Emission) : Dispatching :=
  let r := allow true f.last x.event x.settings x.now
  { f with
    last := r.1
    calls := if r.2 then f.calls.set id (.accepted x) else f.calls.del id
    gated := f.gated ++ [(id, x, r.2)] }

def route (f : Dispatching) (id : Nat) (x : Emission) (channels : List Channel) : Dispatching :=
  let rules := f.store.memory.Rules
  let targets := matchChannels channels rules x.event
  { f with
    calls := f.calls.del id
    deliveries := f.deliveries ++ targets.map fun c => { call := id, channel := c, message := render x.event }
    routings := f.routings ++ [⟨id, x, channels, rules⟩] }

def advance (f : Dispatching) (i : Nat) (d : Delivery) (p : Progress) : Dispatching :=
  { f with deliveries := f.deliveries.set i { d with progress := p } }

def step (f : Dispatching) : DispatchAct → Option Dispatching
  | .change op saved => some { f with store := op.run f.store saved }
  | .emit e => some { f with calls := f.calls.set f.begun (.emitting e), begun := f.begun + 1 }
  | .screen id => match f.calls.get id with
    | some (.emitting e) => some (f.screen id e)
    | _ => none
  | .ask id now => match f.calls.get id with
    | some (.screened e) =>
      some { f with calls := f.calls.set id (.asked ⟨e, f.store.memory.settings, now⟩) }
    | _ => none
  | .lock id => match f.calls.get id with
    | some (.asked x) => some (f.lock id x)
    | _ => none
  | .list id => match f.calls.get id with
    | some (.accepted x) => some { f with calls := f.calls.set id (.listed x f.store.memory.Channels) }
    | _ => none
  | .route id => match f.calls.get id with
    | some (.listed x channels) => some (f.route id x channels)
    | _ => none
  | .fetch i => match f.deliveries[i]? with
    | none => none
    | some d => match d.progress with
      | .waiting => some (f.advance i d (fetched openBox f.store.memory d.channel))
      | _ => none
  | .send i ok => match f.deliveries[i]? with
    | none => none
    | some d => match d.progress with
      | .sending s failures => some { f.advance i d (tried s failures ok) with log := f.log ++ [(i, ok)] }
      | _ => none

end Dispatching

def dispatching (openBox : String → String → Option (Table String String)) : System Dispatching DispatchAct where
  init f := ∃ s, f = { store := s }
  step := Dispatching.step openBox

namespace Dispatching
variable {openBox : String → String → Option (Table String String)}

/-- Every step, with what it finds. -/
inductive Steps (openBox : String → String → Option (Table String String)) (f : Dispatching) :
    DispatchAct → Dispatching → Prop
  | change (op : StoreOp) (saved : Bool) : Steps openBox f (.change op saved) { f with store := op.run f.store saved }
  | emit (e : Event) :
    Steps openBox f (.emit e) { f with calls := f.calls.set f.begun (.emitting e), begun := f.begun + 1 }
  | screen {id : Nat} {e : Event} (hcall : f.calls.get id = some (.emitting e)) :
    Steps openBox f (.screen id) (f.screen id e)
  | ask {id : Nat} {e : Event} (now : Int) (hcall : f.calls.get id = some (.screened e)) :
    Steps openBox f (.ask id now)
      { f with calls := f.calls.set id (.asked ⟨e, f.store.memory.settings, now⟩) }
  | lock {id : Nat} {x : Emission} (hcall : f.calls.get id = some (.asked x)) :
    Steps openBox f (.lock id) (f.lock id x)
  | list {id : Nat} {x : Emission} (hcall : f.calls.get id = some (.accepted x)) :
    Steps openBox f (.list id) { f with calls := f.calls.set id (.listed x f.store.memory.Channels) }
  | route {id : Nat} {x : Emission} {channels : List Channel} (hcall : f.calls.get id = some (.listed x channels)) :
    Steps openBox f (.route id) (f.route id x channels)
  | fetch {i : Nat} {d : Delivery} (hget : f.deliveries[i]? = some d) (hwaits : d.progress = .waiting) :
    Steps openBox f (.fetch i) (f.advance i d (fetched openBox f.store.memory d.channel))
  | send {i : Nat} {d : Delivery} {s : Sender} {failures : Nat} (ok : Bool) (hget : f.deliveries[i]? = some d)
    (hsending : d.progress = .sending s failures) :
    Steps openBox f (.send i ok) { f.advance i d (tried s failures ok) with log := f.log ++ [(i, ok)] }

theorem steps_of_step {f g : Dispatching} {a : DispatchAct} (h : f.step openBox a = some g) : Steps openBox f a g := by
  cases a with
  | change op saved =>
    cases h
    exact .change op saved
  | emit e =>
    cases h
    exact .emit e
  | screen id | ask id now | lock id | list id | route id =>
    simp only [step] at h
    split at h <;> cases h
    constructor
    assumption
  | fetch i =>
    simp only [step] at h
    split at h
    · cases h
    · split at h <;> cases h
      rename_i hget _ hwaits
      exact .fetch hget hwaits
  | send i ok =>
    simp only [step] at h
    split at h
    · cases h
    · split at h <;> cases h
      rename_i hget _ _ _ hsending
      exact .send ok hget hsending

end Dispatching
end Marshal.Notify
