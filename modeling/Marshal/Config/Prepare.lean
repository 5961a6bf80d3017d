import Marshal.Store

/-! Defaults and validation.

A config comes from a user's file, or holds the one app of a wire spec. `Prepare` fills in
what is absent and then refuses what no app may be; an app that passes has a valid name
and an instance. -/
namespace Marshal.Config

/-- The document's server block and its apps. -/
structure Config where
  server : Option ServerConfig := none
  apps : List App
  deriving DecidableEq, Repr

/-- `5 * time.Second`, in nanoseconds. -/
def defaultKillTimeout : Int := 5 * 1000000000

/-- A zero field is an absent one. -/
def App.applyDefaults (a : App) : App :=
  { a with
    instances := if a.instances = 0 then 1 else a.instances
    restart := if a.restart = .other "" then .always else a.restart
    maxRestarts := if a.maxRestarts = 0 then 16 else a.maxRestarts
    killTimeout := if a.killTimeout = 0 then defaultKillTimeout else a.killTimeout }

def Config.applyDefaults (c : Config) : Config := { c with apps := c.apps.map App.applyDefaults }

/-- There is an address and exactly one source of trust. -/
def ServerConfig.validate (s : ServerConfig) : Except String Unit :=
  if s.address = "" then .error "server.address is required when a server block is present"
  else if s.fingerprint ≠ "" ∧ s.ca ≠ "" then
    .error "server.fingerprint and server.ca are mutually exclusive"
  else if s.fingerprint = "" ∧ s.ca = "" then
    .error "server needs a trust source: set server.fingerprint or server.ca"
  else .ok ()

def App.validateName (a : App) : Except String Unit :=
  if a.name = "" then .error "app with cmd %q has no name"
  else if a.name = "." ∨ a.name = ".." ∨ validAppName a.name = false then
    .error "invalid app name %q: must match [A-Za-z0-9._-] and start alphanumeric"
  else .ok ()

/-- The checks that follow those of the name. -/
def App.validateRest (a : App) : Except String Unit :=
  if a.cmd = "" then .error "app %q has no cmd"
  else if a.restart ≠ .always ∧ a.restart ≠ .onFailure ∧ a.restart ≠ .no then
    .error "app %q has invalid restart mode %q"
  else if a.instances < 0 then .error "app %q has invalid instances %d"
  else match a.source with
    | none => .ok ()
    | some source => match source.Validate with
      | .ok () => .ok ()
      | .error text => .error ("app %q: " ++ text)

/-- One app after the other, the names before it being `seen`. -/
def validateApps (seen : List String) : List App → Except String Unit
  | [] => .ok ()
  | a :: rest => do
    a.validateName
    if a.name ∈ seen then .error "duplicate app name %q"
    a.validateRest
    validateApps (a.name :: seen) rest

def Config.validate (c : Config) : Except String Unit := do
  match c.server with
  | some server => server.validate
  | none => if c.apps = [] then .error "config has no apps"
  validateApps [] c.apps

def Config.Prepare (c : Config) : Except String Config := do
  let c := c.applyDefaults
  c.validate
  return c

/-- A filled-in app is as it is. -/
theorem App.applyDefaults_applyDefaults (a : App) :
    a.applyDefaults.applyDefaults = a.applyDefaults := by
  unfold applyDefaults
  simp only [App.mk.injEq, true_and, and_true]
  refine ⟨?_, ?_, ?_, ?_⟩ <;> split <;> simp_all [defaultKillTimeout]

theorem App.validateName_ok {a : App} (h : a.validateName = .ok ()) : validAppName a.name = true := by
  unfold validateName at h
  split at h
  · cases h
  · split at h
    · cases h
    · rename_i hvalid
      simpa using (not_or.mp (not_or.mp hvalid).2).2

theorem App.validateRest_ok {a : App} (h : a.validateRest = .ok ()) : 0 ≤ a.instances := by
  unfold validateRest at h
  split at h
  · cases h
  · split at h
    · cases h
    · split at h
      · cases h
      · omega

theorem validateApps_single {a : App} (h : validateApps [] [a] = .ok ()) :
    a.validateName = .ok () ∧ a.validateRest = .ok () := by
  cases hname : a.validateName with
  | error text => simp [validateApps, hname, bind, Except.bind] at h
  | ok u =>
    cases hrest : a.validateRest with
    | error text => simp [validateApps, hname, hrest, bind, Except.bind] at h
    | ok v => exact ⟨rfl, rfl⟩

theorem Prepare_single (a : App) : Config.Prepare { apps := [a] } =
    (validateApps [] [a.applyDefaults]).map fun _ => { apps := [a.applyDefaults] } := by
  show (validateApps [] [a.applyDefaults]).bind (fun _ => .ok _) = _
  cases validateApps [] [a.applyDefaults] <;> rfl

/-- An app that passes alone has a valid name and an instance. -/
theorem Prepare_ok {a : App} {c : Config} (h : Config.Prepare { apps := [a] } = .ok c) :
    c = { apps := [a.applyDefaults] } ∧ validAppName a.name = true ∧ 1 ≤ a.applyDefaults.instances := by
  rw [Prepare_single] at h
  cases hvalid : validateApps [] [a.applyDefaults] with
  | error text =>
    rw [hvalid] at h
    cases h
  | ok u =>
    rw [hvalid] at h
    cases h
    obtain ⟨hname, hrest⟩ := validateApps_single hvalid
    refine ⟨rfl, App.validateName_ok hname, ?_⟩
    have hsign := App.validateRest_ok hrest
    unfold App.applyDefaults at hsign ⊢
    simp only at hsign ⊢
    split at hsign <;> split <;> omega

end Marshal.Config
