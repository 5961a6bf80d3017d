import Marshal.Config.Prepare
import Marshal.Errsig
import Marshal.Lib.InOrder

/-! Env files, and a config loaded from disk.

An app of a file may name an env file. Loading reads it, relative to the config's
directory or as an absolute path, and adds to the app's environment what is not inline.
The defaults and the validation come after that. -/
namespace Marshal.Config

/-! ### Dotenv -/

/-- A map, as its entries. -/
abbrev Env := List (String × String)

/-- The two are the same map. -/
def SameEnv (e e' : Env) : Prop := ∀ k, e.lookup k = e'.lookup k

def put (out : Env) (e : String × String) : Env := e :: out.filter fun d => d.1 ≠ e.1

/-- A pair of quotes around a value is taken off. -/
def unquote (val : List Char) : List Char :=
  if 2 ≤ val.length ∧ val.head? = val.getLast? ∧ (val.head? = some '"' ∨ val.head? = some '\'') then
    val.tail.dropLast
  else val

/-- The entry of one line, if it has one. -/
def parseLine (raw : List Char) : Option (String × String) :=
  let line := Errsig.trimSpace raw
  if line = [] ∨ line.head? = some '#' then none
  else
    let exported := "export ".toList
    let line := Errsig.trimSpace (if exported.isPrefixOf line then line.drop exported.length else line)
    if '=' ∉ line then none
    else
      let key := Errsig.trimSpace (line.takeWhile (· != '='))
      let val := Errsig.trimSpace ((line.dropWhile (· != '=')).drop 1)
      if key = [] then none else some (String.ofList key, String.ofList (unquote val))

/-- Of two lines with one key the later counts. -/
def parseDotEnv (data : String) : Env := ((data.toList.splitOn '\n').filterMap parseLine).foldl put []

/-! ### Files -/

/-- The files that paths lead to. Two paths may lead to one file: by a link, or where names differ in
case only. A file without content cannot be read. -/
structure Files (κ : Type) where
  locate : List String → κ
  content : κ → Option String
  writable : κ → Bool

variable {κ : Type}

/-- Where an env file is looked for. -/
def envPath (baseDir : List String) (envFile : String) : List String :=
  if FilePath.IsAbs envFile then FilePath.split envFile else FilePath.join baseDir envFile

def Files.ReadFile (fs : Files κ) (path : List String) : Option String := fs.content (fs.locate path)

/-! ### Loading -/

/-- An app with its load-time directive. -/
structure FileApp where
  app : App
  envFile : String := ""
  deriving DecidableEq, Repr

/-- What a config file says. -/
structure Document where
  server : Option ServerConfig := none
  apps : List FileApp
  deriving DecidableEq, Repr

/-- What is inline takes precedence. -/
def merge (inline fileEnv : Env) : Env :=
  inline ++ fileEnv.filter fun e => (inline.lookup e.1).isNone

def loadEnvFile (fs : Files κ) (baseDir : List String) (a : FileApp) : Except String App :=
  if a.envFile = "" then .ok a.app
  else match fs.ReadFile (envPath baseDir a.envFile) with
    | none => .error "app %q: read env_file %q"
    | some data => .ok { a.app with env := merge a.app.env (parseDotEnv data) }

def loadEnvFiles (fs : Files κ) (baseDir : List String) (apps : List FileApp) : Except String (List App) :=
  InOrder.each (loadEnvFile fs baseDir) apps

/-- The config of a file in this directory. -/
def Load (fs : Files κ) (baseDir : List String) (doc : Document) : Except String Config := do
  let apps ← loadEnvFiles fs baseDir doc.apps
  Config.Prepare { server := doc.server, apps := apps }

/-- The config of a document alone: env files are not read. -/
def Parse (doc : Document) : Except String Config :=
  Config.Prepare { server := doc.server, apps := doc.apps.map FileApp.app }

/-! ### What a loaded config depends on -/

theorem SameEnv.symm {e e' : Env} (h : SameEnv e e') : SameEnv e' e := fun k => (h k).symm

theorem SameEnv.trans {e e' e'' : Env} (h : SameEnv e e') (h' : SameEnv e' e'') : SameEnv e e'' :=
  fun k => (h k).trans (h' k)

theorem lookup_merge (inline fileEnv : Env) (k : String) :
    (merge inline fileEnv).lookup k = (inline.lookup k).or (fileEnv.lookup k) := by
  unfold merge
  rw [List.lookup_append]
  cases hinline : inline.lookup k with
  | some v => rfl
  | none =>
    rw [Option.none_or, Option.none_or]
    induction fileEnv with
    | nil => rfl
    | cons e rest ih =>
      obtain ⟨k', v⟩ := e
      by_cases hk : k = k'
      · subst hk
        simp [hinline]
      · have hne : (k == k') = false := by simpa using hk
        rw [List.filter_cons]
        split <;> simp [List.lookup_cons, hne, ih]

theorem Prepare_ok_iff {server : Option ServerConfig} {apps : List App} {c : Config} :
    Config.Prepare { server := server, apps := apps } = .ok c ↔
      Config.validate { server := server, apps := apps.map App.applyDefaults } = .ok () ∧
        c = { server := server, apps := apps.map App.applyDefaults } := by
  unfold Config.Prepare Config.applyDefaults
  simp only
  cases Config.validate { server := server, apps := apps.map App.applyDefaults } with
  | error text => simp [bind, Except.bind]
  | ok u => simp [bind, Except.bind, pure, Except.pure, eq_comm]

/-- Only the environment is different. -/
def SameButEnv (x y : App) : Prop := y = { x with env := y.env }

theorem validateApps_sameButEnv {apps apps' : List App} (h : List.Forall₂ SameButEnv apps apps')
    (seen : List String) :
    validateApps seen (apps'.map App.applyDefaults) = validateApps seen (apps.map App.applyDefaults) := by
  induction h generalizing seen with
  | nil => rfl
  | @cons x y rest rest' hxy _ ih =>
    have hname : y.applyDefaults.validateName = x.applyDefaults.validateName := by rw [hxy]; rfl
    have hrest : y.applyDefaults.validateRest = x.applyDefaults.validateRest := by rw [hxy]; rfl
    have hsame : y.applyDefaults.name = x.applyDefaults.name := by rw [hxy]; rfl
    simp only [List.map_cons, validateApps, hname, hrest, hsame, ih]

/-- The validation does not look at environments. -/
theorem Prepare_sameButEnv {apps apps' : List App} {c : Config} (h : List.Forall₂ SameButEnv apps apps')
    (hprepare : Config.Prepare { apps := apps } = .ok c) :
    Config.Prepare { apps := apps' } = .ok { apps := apps'.map App.applyDefaults } := by
  rw [Prepare_ok_iff] at hprepare ⊢
  refine ⟨?_, rfl⟩
  rw [← hprepare.1]
  unfold Config.validate
  have hempty : apps'.map App.applyDefaults = [] ↔ apps.map App.applyDefaults = [] := by
    cases h <;> simp
  simp only [hempty, validateApps_sameButEnv h]

end Marshal.Config
