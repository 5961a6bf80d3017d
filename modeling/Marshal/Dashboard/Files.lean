import Marshal.Deploy.Mutate
import Marshal.Lib.Utf8

/-! The file view and the write endpoint of the dashboard.

The agent sends a file's bytes; the view shows them as text, which a JSON string has to
be: a byte that is no UTF-8 becomes the replacement character. The write endpoint takes
a text and has the agent write and commit its UTF-8. -/
namespace Marshal.Dashboard.Files
open Deploy

/-! ### The view -/

structure FileContentDTO where
  Path : String
  /-- Empty when binary. -/
  Content : String
  Size : Nat
  Truncated : Bool
  Binary : Bool
  deriving DecidableEq, Repr

/-- The agent's answer; `fault` is an error in reading the file. -/
def readOp (d : Deployer) (app path : String) (fault : Option String) : Except String FileContent :=
  match d.Root app with
  | none => .error Deployer.notDeployment
  | some root => ReadFile d.disk root path fault

/-- The view of what the agent answered. -/
def readFileFiles (agent app : String) (res : Except String FileContent) : Except String FileContentDTO :=
  if agent = "" ∨ app = "" then .error "agent and app required"
  else match res with
    | .error text => .error text
    | .ok f =>
      .ok ⟨f.Path, if f.Binary then "" else String.ofList (Utf8.lossy f.Content), f.Size, f.Truncated, f.Binary⟩

/-! ### The write endpoint -/

def maxCommitBytes : Nat := 1024 * 1024

structure WriteBody where
  Content : String
  Message : String
  Credential : String
  deriving DecidableEq, Repr

structure CommitRequest where
  App : String
  Kind : CommitKind
  Path : String
  Content : List UInt8
  Message : String
  /-- The username that the credential gives. -/
  Username : String
  deriving DecidableEq, Repr

def contentBytes (content : String) : List UInt8 := Utf8.encode content.toList

/-- The request for the agent. -/
def writeFileFiles (resolveCredential : String → Except String String) (agent app path : String)
    (create : Bool) (body : WriteBody) : Except String CommitRequest :=
  if agent = "" ∨ app = "" then .error "agent and app required"
  else if path = "" then .error "path required"
  else if maxCommitBytes < (contentBytes body.Content).length then .error "file too large (max 1 MiB)"
  else match resolveCredential body.Credential with
    | .error text => .error text
    | .ok Username =>
      let kind : CommitKind := if create then .create else .edit
      let default := if create then "Create " ++ path else "Update " ++ path
      .ok ⟨app, kind, path, contentBytes body.Content,
        if body.Message = "" then default else body.Message, Username⟩

/-- What the endpoint and the agent meet besides. -/
structure Site where
  resolveCredential : String → Except String String
  /-- Why the agent is not reached, if it is not. -/
  unreachable : Option String
  gitSourced : String → Bool
  world : World

/-- A save: the answer, and the clone afterwards. -/
def save (site : Site) (d : Deployer) (pre : Repo) (agent app path : String) (create : Bool)
    (body : WriteBody) : Except String CommitResult × Clone :=
  match writeFileFiles site.resolveCredential agent app path create body with
  | .error text => (.error text, checkout d.disk pre)
  | .ok req => match site.unreachable with
    | some text => (.error text, checkout d.disk pre)
    | none =>
      d.Commit site.gitSourced site.world pre req.App req.Kind req.Path "" req.Content req.Message req.Username

end Marshal.Dashboard.Files
