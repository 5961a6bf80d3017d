import Marshal.Daemon.Selector
import Marshal.Pm2.Convert

/-! An ecosystem file's apps, and their normal form.

Several fields of a PM2 app are a string or a list, a number or a word. `normalize` reads
each by trying one type after the other; what fits none of them is as good as absent. -/
namespace Marshal.Pm2
open Config

/-- A JSON value. -/
inductive Raw (ν : Type) where
  | null
  | bool (b : Bool)
  | num (x : ν)
  | str (s : String)
  | arr (items : List (Raw ν))
  | obj (members : List (String × Raw ν))

/-- How numbers are read, as `float64`, and how values are printed. -/
structure Reading (ν : Type) where
  /-- The number is in `float64`'s range. -/
  fits : ν → Bool
  negative : ν → Bool
  /-- `int(f)` -/
  truncate : ν → Int
  /-- `strconv.FormatFloat(f, 'f', -1, 64)` -/
  format : ν → String
  /-- `fmt.Sprint` -/
  sprint : Raw ν → String

structure RawApp (ν : Type) where
  Name : String := ""
  Script : String := ""
  Args : Option (Raw ν) := none
  Interpreter : String := ""
  InterpreterArgs : Option (Raw ν) := none
  NodeArgs : Option (Raw ν) := none
  Cwd : String := ""
  Env : List (String × Raw ν) := []
  EnvFile : String := ""
  Instances : Option (Raw ν) := none
  ExecMode : String := ""
  Autorestart : Option Bool := none
  MaxRestarts : Option Int := none
  KillTimeout : Option Int := none
  CronRestart : String := ""
  Watch : Option (Raw ν) := none

variable {ν : Type} (lib : Reading ν)

/-- `strings.Fields` -/
def Fields (s : String) : List String :=
  ((s.toList.splitOnP Errsig.unicodeSpace).filter (· ≠ [])).map String.ofList

/-- What `json.Unmarshal` puts into a string. -/
def Raw.asString : Raw ν → Option String
  | .str s => some s
  | .null => some ""
  | _ => none

/-- A list of strings, or a string that is split at its blanks. -/
def stringOrList : Option (Raw ν) → List String
  | some (.arr items) => (items.mapM Raw.asString).getD []
  | some (.str s) => Fields s
  | _ => []

/-- The count, and whether all cores are asked for. -/
def parseInstances : Option (Raw ν) → Int × Bool
  | some (.num x) => if lib.fits x = false then (0, false) else if lib.negative x then (0, true) else (lib.truncate x, false)
  | some (.str s) =>
    if EqualFold s "max" ∨ s = "-1" then (0, true) else ((Daemon.Atoi s).getD 0, false)
  | _ => (0, false)

def truthyWatch : Option (Raw ν) → Bool
  | some (.bool b) => b
  | some (.arr items) => (items.mapM Raw.asString).isSome && items ≠ []
  | _ => false

def stringify : Raw ν → String
  | .str s => s
  | .bool b => if b then "true" else "false"
  | .num x => lib.format x
  | .null => ""
  | v => lib.sprint v

/-- `node_args` and `interpreter_args` are aliases; the first is preferred. -/
def nodeArgs (r : RawApp ν) : List String :=
  if stringOrList r.NodeArgs = [] then stringOrList r.InterpreterArgs else stringOrList r.NodeArgs

def normalize (r : RawApp ν) : PM2App where
  Name := r.Name
  Script := r.Script
  Args := stringOrList r.Args
  Interpreter := r.Interpreter
  NodeArgs := nodeArgs r
  Cwd := r.Cwd
  Env := r.Env.map fun e => (e.1, stringify lib e.2)
  EnvFile := r.EnvFile
  Instances := (parseInstances lib r.Instances).1
  InstancesMax := (parseInstances lib r.Instances).2
  ExecMode := r.ExecMode
  Autorestart := r.Autorestart
  MaxRestarts := r.MaxRestarts.getD 0
  KillTimeoutMs := r.KillTimeout.getD 0
  CronRestart := r.CronRestart
  Watch := truthyWatch r.Watch

/-- The ecosystem of a file's apps. -/
def ecosystem (base : Option FilePath.CleanPath) (raws : List (RawApp ν)) : Ecosystem :=
  ⟨raws.map (normalize lib), base⟩

end Marshal.Pm2
