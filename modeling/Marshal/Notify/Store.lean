import Marshal.Config
import Marshal.Lib.WriteThrough
import Marshal.Notify.Model

/-! The notification store: channels, rules and settings.

A call changes one of them in memory and then writes them all out; when that fails
nothing puts them back. What the cipher makes of a channel's secrets and the clock are
given with a call. -/
namespace Marshal.Notify
open WriteThrough

/-! ### The calls -/

/-- Where alerts are delivered: its non-secret configuration. -/
structure Channel where
  name : String
  type : String
  enabled : Bool
  config : Table String String := ∅

/-- Which events go to which channels; no events stand for any. -/
structure Rule where
  name : String
  enabled : Bool
  events : List EventType := []
  agent : String := ""
  process : String := ""
  channels : List String := []
deriving DecidableEq

structure StoredChannel where
  type : String := ""
  enabled : Bool := false
  config : Table String String := ∅
  secretNonce : String := ""
  secretCipher : String := ""
  createdAt : Int := 0

def defaultCooldownSeconds : Int := 300

structure FileModel where
  channels : Table String StoredChannel := ∅
  rules : Table String Rule := ∅
  settings : Settings := {}

/-- What is in memory, and in `notifications.json`; `none` where there is no file. -/
abbrev Store := Mirror FileModel (Option FileModel)

inductive StoreError where
  /-- `invalid channel name %q` -/
  | invalidChannelName (name : String)
  /-- `invalid rule name %q` -/
  | invalidRuleName (name : String)
  | noCipher
  | notSaved
deriving DecidableEq

/-- `^[A-Za-z0-9][A-Za-z0-9._-]*$` -/
def nameRE (name : String) : Bool := Config.validAppName name

/-- What `Open` finds; a cooldown that was not set is the default. -/
def Open : Option FileModel → FileModel
  | none => { settings := { cooldownSeconds := defaultCooldownSeconds } }
  | some d =>
    let cooldown := d.settings.cooldownSeconds
    let cooldown := if cooldown = 0 then defaultCooldownSeconds else cooldown
    { d with settings := { d.settings with cooldownSeconds := cooldown } }

/-- What the cipher makes of a channel's secrets. -/
abbrev Box := Table String String → Option (String × String)

namespace Store

def flushLocked (s : Store) (saved : Bool) : Store × Except StoreError Unit :=
  if saved then ({ s with file := some s.memory }, .ok ()) else (s, .error .notSaved)

/-- Without secrets a channel keeps those it has. -/
def PutChannel (s : Store) (c : Channel) (secrets : Table String String) (box : Box) (now : Int)
    (saved : Bool) : Store × Except StoreError Unit :=
  if !nameRE c.name then (s, .error (.invalidChannelName c.name))
  else
    let d := s.memory
    let existed := (d.channels.get c.name).isSome
    let old := (d.channels.get c.name).getD {}
    let sc : StoredChannel := { type := c.type, enabled := c.enabled, config := c.config,
                                createdAt := if existed then old.createdAt else now }
    let secret := if secrets.toList.length > 0 then box secrets
      else some (old.secretNonce, old.secretCipher)
    match secret with
    | none => (s, .error .noCipher)
    | some (nonce, ct) =>
      let sc := { sc with secretNonce := nonce, secretCipher := ct }
      flushLocked { s with memory := { d with channels := d.channels.set c.name sc } } saved

/-- Whether there was such a channel; a failed save is only logged. -/
def DeleteChannel (s : Store) (name : String) (saved : Bool) : Store × Bool :=
  let d := s.memory
  match d.channels.get name with
  | none => (s, false)
  | some _ =>
    ((flushLocked { s with memory := { d with channels := d.channels.del name } } saved).1, true)

def PutRule (s : Store) (r : Rule) (saved : Bool) : Store × Except StoreError Unit :=
  let d := s.memory
  if !nameRE r.name then (s, .error (.invalidRuleName r.name))
  else flushLocked { s with memory := { d with rules := d.rules.set r.name r } } saved

/-- Whether there was such a rule; a failed save is only logged. -/
def DeleteRule (s : Store) (name : String) (saved : Bool) : Store × Bool :=
  let d := s.memory
  match d.rules.get name with
  | none => (s, false)
  | some _ => ((flushLocked { s with memory := { d with rules := d.rules.del name } } saved).1, true)

def SetSettings (s : Store) (st : Settings) (saved : Bool) : Store × Except StoreError Unit :=
  let cooldown := if st.cooldownSeconds ≤ 0 then defaultCooldownSeconds else st.cooldownSeconds
  flushLocked { s with memory := { s.memory with settings := { st with cooldownSeconds := cooldown } } }
    saved

end Store

/-- A call that changes the store, with what it draws. -/
inductive StoreOp where
  | putChannel (c : Channel) (secrets : Table String String) (box : Box) (now : Int)
  | deleteChannel (name : String)
  | putRule (r : Rule)
  | deleteRule (name : String)
  | setSettings (st : Settings)

def StoreOp.run (s : Store) (saved : Bool) : StoreOp → Store
  | .putChannel c secrets box now => (s.PutChannel c secrets box now saved).1
  | .deleteChannel name => (s.DeleteChannel name saved).1
  | .putRule r => (s.PutRule r saved).1
  | .deleteRule name => (s.DeleteRule name saved).1
  | .setSettings st => (s.SetSettings st saved).1

/-- The store, opened on its file, and the calls on it, each with whether its save goes through. -/
def store : Transition.System Store (StoreOp × Bool) where
  init s := s.memory = Open s.file
  step s a := some (a.1.run s a.2)

/-! ### What a call writes -/

/-- What tells one stored channel from another. -/
def StoredChannel.view (c : StoredChannel) :
    String × Bool × (String → Option String) × String × String × Int :=
  (c.type, c.enabled, c.config.get, c.secretNonce, c.secretCipher, c.createdAt)

def Settings.view (s : Settings) : Int × Bool × (EventType → Option Int) × Option Int :=
  (s.cooldownSeconds, s.suppressRecovery, s.cooldownOverrides.get, s.coalesceWindowSeconds)

/-- What tells one content of the store from another. -/
structure View where
  channels : String → Option (String × Bool × (String → Option String) × String × String × Int)
  rules : String → Option Rule
  settings : Int × Bool × (EventType → Option Int) × Option Int

def FileModel.view (d : FileModel) : View where
  channels n := (d.channels.get n).map StoredChannel.view
  rules := d.rules.get
  settings := d.settings.view

/-- The channel that is put, unless the call is refused. -/
def putting (d : FileModel) (c : Channel) (secrets : Table String String) (box : Box) (now : Int) :
    Option StoredChannel :=
  let old := d.channels.get c.name
  let secret := if secrets.toList.length > 0 then box secrets
    else some ((old.getD {}).secretNonce, (old.getD {}).secretCipher)
  if nameRE c.name then
    secret.map fun p =>
      { type := c.type, enabled := c.enabled, config := c.config, secretNonce := p.1,
        secretCipher := p.2, createdAt := if old.isSome then (old.getD {}).createdAt else now }
  else none

/-- The settings as `SetSettings` takes them. -/
def Settings.atLeast (st : Settings) : Settings :=
  { st with cooldownSeconds := if st.cooldownSeconds ≤ 0 then defaultCooldownSeconds else st.cooldownSeconds }

/-- The call puts something other than what is there, or takes something away. -/
def StoreOp.Alters (d : FileModel) : StoreOp → Prop
  | .putChannel c secrets box now => ∃ sc ∈ putting d c secrets box now,
    (d.channels.get c.name).map StoredChannel.view ≠ some sc.view
  | .deleteChannel name => d.channels.get name ≠ none
  | .putRule r => nameRE r.name ∧ d.rules.get r.name ≠ some r
  | .deleteRule name => d.rules.get name ≠ none
  | .setSettings st => d.settings.view ≠ st.atLeast.view

/-- What becomes of the content, unless the call is refused. -/
def StoreOp.change (op : StoreOp) (d : FileModel) : Option FileModel :=
  match op with
  | .putChannel c secrets box now =>
    (putting d c secrets box now).map fun sc => { d with channels := d.channels.set c.name sc }
  | .deleteChannel name => (d.channels.get name).map fun _ => { d with channels := d.channels.del name }
  | .putRule r => if nameRE r.name then some { d with rules := d.rules.set r.name r } else none
  | .deleteRule name => (d.rules.get name).map fun _ => { d with rules := d.rules.del name }
  | .setSettings st => some { d with settings := st.atLeast }

/-- The cooldown is never 0 once the store is open. -/
def format : Format FileModel (Option FileModel) View where
  write := some
  read := Open
  view := FileModel.view
  Valid d := d.settings.cooldownSeconds ≠ 0
  read_write d h := by
    show (Open (some d)).view = d.view
    simp only [Open, h, if_false]

theorem flush_eq (s : Store) (m : FileModel) (saved : Bool) :
    (Store.flushLocked { s with memory := m } saved).1 = through format s (some m) saved := by
  cases saved <;> rfl

theorem run_eq (s : Store) (op : StoreOp) (saved : Bool) :
    op.run s saved = through format s (op.change s.memory) saved := by
  cases op with
  | putChannel c secrets box now =>
    unfold StoreOp.run Store.PutChannel StoreOp.change putting
    by_cases hname : nameRE c.name = true
    · by_cases hsecrets : secrets.toList.length > 0
      · cases hbox : box secrets with
        | none => simp [hname, hsecrets, hbox, through]
        | some p => simp [hname, hsecrets, hbox, flush_eq]
      · simp [hname, hsecrets, flush_eq]
    · simp [hname, through]
  | deleteChannel name =>
    unfold StoreOp.run Store.DeleteChannel StoreOp.change
    cases hget : s.memory.channels.get name with
    | none => simp [hget, through]
    | some e => simp [hget, flush_eq]
  | putRule r =>
    unfold StoreOp.run Store.PutRule StoreOp.change
    by_cases hname : nameRE r.name = true
    · simp [hname, flush_eq]
    · simp [hname, through]
  | deleteRule name =>
    unfold StoreOp.run Store.DeleteRule StoreOp.change
    cases hget : s.memory.rules.get name with
    | none => simp [hget, through]
    | some e => simp [hget, flush_eq]
  | setSettings st => exact flush_eq s _ saved

theorem view_eq_iff {a b : FileModel} : a.view = b.view ↔
    ((fun n => (a.channels.get n).map StoredChannel.view) =
      fun n => (b.channels.get n).map StoredChannel.view) ∧
    a.rules.get = b.rules.get ∧ a.settings.view = b.settings.view := by
  simp [FileModel.view]

theorem atLeast_pos (st : Settings) : 0 < st.atLeast.cooldownSeconds := by
  show 0 < if st.cooldownSeconds ≤ 0 then defaultCooldownSeconds else st.cooldownSeconds
  unfold defaultCooldownSeconds
  split <;> omega

theorem open_valid (file : Option FileModel) : (Open file).settings.cooldownSeconds ≠ 0 := by
  cases file with
  | none => decide
  | some d =>
    show (if d.settings.cooldownSeconds = 0 then defaultCooldownSeconds else _) ≠ 0
    unfold defaultCooldownSeconds
    split <;> omega

theorem change_valid {op : StoreOp} {d m : FileModel} (hd : d.settings.cooldownSeconds ≠ 0)
    (h : op.change d = some m) : m.settings.cooldownSeconds ≠ 0 := by
  cases op with
  | setSettings st =>
    obtain rfl := Option.some.inj h
    exact Int.ne_of_gt (atLeast_pos st)
  | putRule r =>
    simp only [StoreOp.change, Option.ite_none_right_eq_some, Option.some.injEq] at h
    obtain ⟨-, rfl⟩ := h
    exact hd
  | putChannel | deleteChannel | deleteRule =>
    simp only [StoreOp.change, Option.map_eq_some_iff] at h
    obtain ⟨_, -, rfl⟩ := h
    exact hd

def calls : Calls format StoreOp where
  change := StoreOp.change
  Alters op d := op.Alters d
  valid _ _ _ hd h := change_valid hd h
  refused op d h := by
    cases op with
    | putChannel c secrets box now =>
      simp only [StoreOp.change, Option.map_eq_none_iff] at h
      rintro ⟨sc, hsc, -⟩
      rw [h] at hsc
      cases hsc
    | deleteChannel name =>
      simp only [StoreOp.change, Option.map_eq_none_iff] at h
      exact fun hne => hne h
    | putRule r =>
      rintro ⟨hname, -⟩
      simp [StoreOp.change, hname] at h
    | deleteRule name =>
      simp only [StoreOp.change, Option.map_eq_none_iff] at h
      exact fun hne => hne h
    | setSettings st => cases h
  alters op d m h := by
    show _ ↔ m.view ≠ d.view
    rw [Ne, view_eq_iff]
    cases op with
    | putChannel c secrets box now =>
      simp only [StoreOp.change, Option.map_eq_some_iff] at h
      obtain ⟨sc, hsc, rfl⟩ := h
      simp only [and_true, Table.view_set_eq, StoreOp.Alters]
      constructor
      · rintro ⟨sc', hsc', hne⟩
        obtain rfl := Option.some.inj (hsc.symm.trans hsc')
        exact hne
      · exact fun hne => ⟨sc, hsc, hne⟩
    | deleteChannel name =>
      simp only [StoreOp.change, Option.map_eq_some_iff] at h
      obtain ⟨e, -, rfl⟩ := h
      simp only [and_true, Table.view_del_eq, StoreOp.Alters, ne_eq]
    | putRule r =>
      simp only [StoreOp.change, Option.ite_none_right_eq_some, Option.some.injEq] at h
      obtain ⟨hname, rfl⟩ := h
      simp only [true_and, and_true, Table.get_set_eq, StoreOp.Alters, hname, ne_eq]
    | deleteRule name =>
      simp only [StoreOp.change, Option.map_eq_some_iff] at h
      obtain ⟨e, -, rfl⟩ := h
      simp only [true_and, and_true, Table.get_del_eq, StoreOp.Alters, ne_eq]
    | setSettings st =>
      obtain rfl := Option.some.inj h
      simp only [true_and, StoreOp.Alters, ne_eq, eq_comm]

theorem step_eq (s : Store) (a : StoreOp × Bool) :
    store.step s a = some (through format s (calls.change a.1 s.memory) a.2) :=
  congrArg some (run_eq s a.1 a.2)

end Marshal.Notify
