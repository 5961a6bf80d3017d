import Marshal.Config.Prepare

/-! From wire specs to apps. -/
namespace Marshal.Daemon
open Config

/-- An app on the wire. The counts are 32-bit numbers and the memory limit is a signed 64-bit
one; the kill timeout and the restart mode are texts. -/
structure AppSpec where
  name : String
  cmd : String := ""
  args : List String := []
  cwd : String := ""
  instances : Int := 0
  env : List (String × String) := []
  restart : String := ""
  maxRestarts : Int := 0
  killTimeout : String := ""
  logs : Option LogRetention := none
  source : Option GitSource := none
  maxMemoryRestart : Int := 0
  deriving DecidableEq, Repr

/-- The unsigned reading of a 64-bit number. -/
def uint64 (n : Int) : Nat := (n % 2 ^ 64).toNat

/-- Nothing for an absent timeout, which `Prepare` fills in. -/
def specKillTimeout (text : String) : Except String Int :=
  if text = "" then .ok 0
  else match Duration.ParseDuration text with
    | some d => .ok d
    | none => .error "invalid kill_timeout %q: %w"

/-- The app a spec describes, filled in and validated. -/
def appSpecToConfig (s : AppSpec) : Except String App := do
  let killTimeout ← specKillTimeout s.killTimeout
  let cfg ← Config.Prepare { apps := [{
    name := s.name
    cmd := s.cmd
    args := s.args
    cwd := s.cwd
    instances := s.instances
    env := s.env
    restart := .ofText s.restart
    maxRestarts := s.maxRestarts
    killTimeout := killTimeout
    maxMemoryRestart := uint64 s.maxMemoryRestart
    logs := s.logs
    source := s.source }] }
  match cfg.apps with
  | app :: _ => return app
  | [] => .error "index out of range"

/-- A spec that is taken describes an app with the spec's name, which is valid, and an instance. -/
theorem appSpecToConfig_ok {s : AppSpec} {app : App} (h : appSpecToConfig s = .ok app) :
    app.name = s.name ∧ validAppName app.name = true ∧ 1 ≤ app.instances := by
  unfold appSpecToConfig at h
  cases hkill : specKillTimeout s.killTimeout with
  | error text =>
    rw [hkill] at h
    cases h
  | ok killTimeout =>
    simp only [hkill, bind, Except.bind] at h
    split at h
    · cases h
    · rename_i cfg hprepare
      obtain ⟨rfl, hname, hinstances⟩ := Prepare_ok hprepare
      cases h
      exact ⟨rfl, hname, hinstances⟩

example : appSpecToConfig { name := "web", cmd := "./web", maxMemoryRestart := -1 } = .ok
    { name := "web", cmd := "./web", maxRestarts := 16, killTimeout := defaultKillTimeout,
      maxMemoryRestart := 2 ^ 64 - 1 } := rfl

end Marshal.Daemon
