import Marshal.Config.EnvFile
import Marshal.Duration

/-! PM2 ecosystems and the configs made of them.

`Convert` maps each PM2 app to an app of a `marshal.yaml`, with warnings for what has no
equivalent. A field with its zero value is left out of the file, which is read back as
what was written; durations are written as text. -/
namespace Marshal.Pm2
open Config FilePath

/-! ### Ecosystems -/

/-- One app entry, normalized. -/
structure PM2App where
  Name : String := ""
  Script : String
  Args : List String := []
  Interpreter : String := ""
  NodeArgs : List String := []
  Cwd : String := ""
  Env : Env := []
  EnvFile : String := ""
  /-- 0 is unset. -/
  Instances : Int := 0
  /-- `max` or -1 is asked for. -/
  InstancesMax : Bool := false
  ExecMode : String := ""
  Autorestart : Option Bool := none
  /-- 0 is unset. -/
  MaxRestarts : Int := 0
  /-- 0 is unset. -/
  KillTimeoutMs : Int := 0
  CronRestart : String := ""
  Watch : Bool := false
  deriving DecidableEq, Repr

structure Ecosystem where
  Apps : List PM2App
  /-- The directory of the ecosystem file, if it is known. -/
  BaseDir : Option CleanPath

/-! ### Scripts -/

/-- The last element of a slash-separated path, without what follows it. -/
def lastElement (script : String) : List Char := (script.toList.reverse.takeWhile (· != '/')).reverse

/-- `path.Ext`: from the last dot of the last element on. -/
def Ext (script : String) : String :=
  let rev := (lastElement script).reverse
  if '.' ∈ rev then String.ofList ('.' :: (rev.takeWhile (· != '.')).reverse) else ""

/-- `path.Base` -/
def Base (script : String) : String :=
  if script = "" then "."
  else
    let trimmed := (script.toList.reverse.dropWhile (· == '/')).reverse
    if trimmed = [] then "/" else String.ofList (lastElement (String.ofList trimmed))

def TrimSuffix (s suffix : String) : String :=
  if suffix.toList.isSuffixOf s.toList then String.ofList (s.toList.take (s.length - suffix.length)) else s

/-- The interpreter of a script's extension, none where it is run directly. -/
def interpreterByExt (script : String) : String :=
  let ext := String.ofList ((Ext script).toList.map Char.toLower)
  if ext ∈ [".js", ".mjs", ".cjs"] then "node"
  else if ext = ".ts" then "ts-node"
  else if ext = ".py" then "python3"
  else if ext = ".rb" then "ruby"
  else if ext ∈ [".sh", ".bash"] then "bash"
  else ""

/-- Unicode's simple folding, to the ASCII letters. -/
def foldChar (c : Char) : Char := if c = 'ſ' then 's' else if c = '\u212a' then 'k' else c.toLower

/-- `strings.EqualFold` with an ASCII text. -/
def EqualFold (s ascii : String) : Bool := s.toList.map foldChar == ascii.toList.map foldChar

/-! ### The converted config -/

structure OutApp where
  Name : String
  Cmd : String
  Args : List String
  Cwd : String
  Instances : Int
  Env : Env
  EnvFile : String
  Restart : String
  MaxRestarts : Int
  KillTimeout : String
  deriving DecidableEq, Repr

/-- An absent directory is the ecosystem's, a relative one is below it. -/
def resolveCwd (baseDir : Option CleanPath) (cwd : String) : String :=
  match baseDir with
  | none => cwd
  | some base =>
    if cwd = "" then String.ofList (text base.1)
    else if IsAbs cwd then cwd
    else String.ofList (text (join base.1 cwd))

/-- The name, and the warning if it had to be made up. -/
def appName (p : PM2App) : String × List String :=
  if p.Name = "" then
    let name := TrimSuffix (Base p.Script) (Ext p.Script)
    (name, [name ++ ": app had no name; derived from script"])
  else (p.Name, [])

/-- The interpreter of a script, none where it is run directly. -/
def interpreterOf (interpreter script : String) : Option String :=
  let interp := if interpreter = "" then interpreterByExt script else interpreter
  if interp = "" ∨ interp = "none" then none else some interp

/-- The command and its arguments. -/
def command (p : PM2App) : String × List String :=
  match interpreterOf p.Interpreter p.Script with
  | none => (p.Script, p.Args)
  | some interp => (interp, p.NodeArgs ++ p.Script :: p.Args)

/-- `time.Duration(ms) * time.Millisecond`, which wraps. -/
def milliseconds (ms : Int) : Int := (ms * 1000000).bmod (2 ^ 64)

def clusterText : String := "exec_mode 'cluster' has no equivalent — Marshal runs fork-mode instances (no shared socket / load balancing)"

def instancesText : String := "instances 'max'/-1 needs an explicit count in Marshal — set `instances:` to the desired number"

/-- What has no equivalent. -/
def unsupported (p : PM2App) : List String :=
  (if EqualFold p.ExecMode "cluster" then [clusterText] else []) ++
  (if p.InstancesMax then [instancesText] else []) ++
  (if p.CronRestart ≠ "" then ["cron_restart is not supported"] else []) ++
  (if p.Watch then ["watch is not supported"] else [])

def convertApp (baseDir : Option CleanPath) (p : PM2App) : OutApp :=
  { Name := (appName p).1, Cmd := (command p).1, Args := (command p).2, Cwd := resolveCwd baseDir p.Cwd,
    Instances := p.Instances, Env := p.Env, EnvFile := p.EnvFile,
    Restart := if p.Autorestart = some false then "no" else "", MaxRestarts := p.MaxRestarts,
    KillTimeout := if 0 < p.KillTimeoutMs then Duration.text (milliseconds p.KillTimeoutMs) else "" }

def appWarnings (p : PM2App) : List String :=
  (appName p).2 ++ (unsupported p).map fun msg => (appName p).1 ++ ": " ++ msg

def Convert (eco : Ecosystem) : List OutApp × List String :=
  (eco.Apps.map (convertApp eco.BaseDir), eco.Apps.flatMap appWarnings)

/-! ### The file -/

/-- An app of the file as the config reads it; the kill timeout is a text. -/
def OutApp.decode (a : OutApp) : Except String FileApp :=
  match if a.KillTimeout = "" then some 0 else Duration.ParseDuration a.KillTimeout with
  | none => .error "parse config: invalid duration %q"
  | some killTimeout =>
    .ok {
      app := {
        name := a.Name, cmd := a.Cmd, args := a.Args, cwd := a.Cwd, instances := a.Instances, env := a.Env,
        restart := RestartMode.ofText a.Restart, maxRestarts := a.MaxRestarts, killTimeout := killTimeout }
      envFile := a.EnvFile }

def decodeApps (apps : List OutApp) : Except String (List FileApp) := InOrder.each OutApp.decode apps

/-- `config.Load` of the written file. -/
def loadFile {κ : Type} (fs : Files κ) (outDir : List String) (apps : List OutApp) : Except String Config := do
  let apps ← decodeApps apps
  Load fs outDir { apps := apps }

/-- `config.Parse` of its text. -/
def parseFile (apps : List OutApp) : Except String Config := do
  let apps ← decodeApps apps
  Parse { apps := apps }

/-! ### One app of the file -/

variable {κ : Type} {fs : Files κ} {outDir : List String}

/-- The environment that loading gives an app. -/
def OutApp.effectiveEnv (a : OutApp) (fs : Files κ) (outDir : List String) : Option Config.Env :=
  if a.EnvFile = "" then some a.Env
  else (fs.ReadFile (envPath outDir a.EnvFile)).map fun data => merge a.Env (parseDotEnv data)

/-- What loading makes of one app of the file, before the defaults. -/
def OutApp.Loads (a : OutApp) (fs : Files κ) (outDir : List String) (app : App) : Prop :=
  ∃ fa, a.decode = .ok fa ∧ loadEnvFile fs outDir fa = .ok app

/-- A file is loaded app by app, and then prepared. -/
theorem loadFile_ok_iff {apps : List OutApp} {c : Config} :
    loadFile fs outDir apps = .ok c ↔
      ∃ as, List.Forall₂ (fun a app => a.Loads fs outDir app) apps as ∧
        Config.Prepare { apps := as } = .ok c := by
  have hdecoded : ∀ as, (∃ fas, decodeApps apps = .ok fas ∧ loadEnvFiles fs outDir fas = .ok as) ↔
      List.Forall₂ (fun a app => a.Loads fs outDir app) apps as := by
    intro as
    simp only [decodeApps, loadEnvFiles, InOrder.each_ok_iff]
    exact InOrder.forall₂_comp_iff
  simp only [← hdecoded]
  unfold loadFile Load
  cases decodeApps apps with
  | error text => simp [bind, Except.bind]
  | ok fas =>
    simp only [bind, Except.bind, Except.ok.injEq, exists_eq_left']
    cases loadEnvFiles fs outDir fas with
    | error text => simp
    | ok as => simp

/-- Its environment is the effective one, and nothing else depends on files. -/
theorem loads_iff {a : OutApp} {app : App} :
    a.Loads fs outDir app ↔ ∃ fa env, a.decode = .ok fa ∧ a.effectiveEnv fs outDir = some env ∧
      app = { fa.app with env := env } := by
  have hfields : ∀ fa, a.decode = .ok fa → fa.app.env = a.Env ∧ fa.envFile = a.EnvFile := by
    intro fa hdecode
    unfold OutApp.decode at hdecode
    split at hdecode <;> cases hdecode
    exact ⟨rfl, rfl⟩
  have hload : ∀ fa, a.decode = .ok fa → (loadEnvFile fs outDir fa = .ok app ↔
      ∃ env, a.effectiveEnv fs outDir = some env ∧ app = { fa.app with env := env }) := by
    intro fa hdecode
    obtain ⟨henv, hfile⟩ := hfields fa hdecode
    unfold loadEnvFile OutApp.effectiveEnv
    rw [← henv, ← hfile]
    by_cases hnone : fa.envFile = ""
    · simp [hnone, eq_comm]
    · cases fs.ReadFile (envPath outDir fa.envFile) with
      | none => simp [hnone]
      | some data => simp [hnone, eq_comm]
  constructor
  · rintro ⟨fa, hdecode, h⟩
    obtain ⟨env, henv, happ⟩ := (hload fa hdecode).mp h
    exact ⟨fa, env, hdecode, henv, happ⟩
  · rintro ⟨fa, env, hdecode, henv, happ⟩
    exact ⟨fa, hdecode, (hload fa hdecode).mpr ⟨env, henv, happ⟩⟩

end Marshal.Pm2
