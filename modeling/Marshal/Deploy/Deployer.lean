import Marshal.Deploy.Browse
import Marshal.Lib.Table

/-! The deployer's state and the directories it owns.

A deployment's checkout is `dir`, the join of the deploy root and a name that comes
from outside: an app's name, a delete's selector, or the app of a browse request. -/
namespace Marshal.Deploy
open FilePath

inductive DeployPhase where
  | cloning
  | building
  | failed
  | committing
  deriving DecidableEq, Repr

structure DeployState where
  phase : DeployPhase
  detail : String := ""
  deriving DecidableEq, Repr

/-- A deploy root: the data directory's `deploys`. -/
def homeDeploys : CleanPath := ⟨["home", "marshal", "deploys"], by decide⟩

/-- The deployer with the file system it works on. -/
structure Deployer where
  deployRoot : CleanPath
  disk : Disk
  states : Table String DeployState := ∅

namespace Deployer

def setState (d : Deployer) (name : String) (phase : DeployPhase) (detail : String) : Deployer :=
  { d with states := d.states.set name ⟨phase, detail⟩ }

def clearState (d : Deployer) (name : String) : Deployer :=
  { d with states := d.states.del name }

def dir (d : Deployer) (name : String) : List String := join d.deployRoot.1 name

/-- The deployer afterwards, and whether a state entry existed. -/
def Forget (d : Deployer) (name : String) : Deployer × Bool :=
  ({ d with states := d.states.del name, disk := d.disk.RemoveAll (d.dir name) },
    (d.states.get name).isSome)

/-- The directory of a known deployment. -/
def Root (d : Deployer) (name : String) : Option (List String) :=
  if name = "" ∨ '/' ∈ name.toList then none
  else match d.disk.Stat (d.dir name) with
    | some .dir => some (d.dir name)
    | _ => none

/-! ### Requests for files -/

def notDeployment : String := "not a git deployment"

inductive FileRequest where
  | listDir (app path : String)
  | readFile (app path : String)
  | commit (app : String) (kind : CommitKind) (path newPath : String)
  deriving DecidableEq, Repr

def FileRequest.app : FileRequest → String
  | .listDir app _ | .readFile app _ | .commit app _ _ _ => app

/-- The locations whose content a request reads or changes; `gitSourced` tells the managed apps
with a repository. -/
def reaches (d : Deployer) (gitSourced : String → Bool) :
    FileRequest → Except String (List (List String))
  | .listDir app path | .readFile app path => match d.Root app with
    | none => .error notDeployment
    | some root => (confine d.disk root path).map fun full => [full]
  | .commit app kind path newPath =>
    if gitSourced app = false then .error "app %q is not git-sourced"
    else match d.Root app with
      | none => .error notDeployment
      | some dir =>
        if (d.states.get app).isSome then .error "app %q is deploying"
        else mutate d.disk dir kind path newPath

end Deployer
end Marshal.Deploy
