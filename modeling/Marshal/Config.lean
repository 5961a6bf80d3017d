import Mathlib.Algebra.Group.Int.Defs
import Mathlib.Algebra.Group.Nat.Defs
import Marshal.Lib.FilePath

/-! App definitions.

An `App` is what a user's file, a wire spec or the saved list describes. Its `id` is
given by the daemon and kept in the saved list only. -/
namespace Marshal.Config

inductive RestartMode where
  | always
  | onFailure
  | no
  | other (text : String)
  deriving DecidableEq, Repr

/-- Overrides of the log rotation defaults; an absent field falls back to the default. -/
structure LogRetention where
  maxSizeMB : Option Int
  maxBackups : Option Int
  maxAgeDays : Option Int
  compress : Option Bool
  deriving DecidableEq, Repr

structure GitSource where
  repo : String
  ref : String := ""
  build : String := ""
  subdir : String := ""
  credential : String := ""
  deriving DecidableEq, Repr

/-- A source of which no part is an option to git and the subdirectory stays in the clone. -/
def GitSource.Validate (s : GitSource) : Except String Unit :=
  if s.repo = "" then .error "source.repo is required"
  else if s.repo.toList.head? = some '-' then .error "source.repo %q must not start with '-'"
  else if s.ref.toList.head? = some '-' then .error "source.ref %q must not start with '-'"
  else if s.subdir = "" then .ok ()
  else if FilePath.IsAbs s.subdir then .error "source.subdir %q must be relative"
  else if (FilePath.relative s.subdir).1 ≠ 0 then .error "source.subdir %q escapes the repository"
  else .ok ()

/-- The central server an agent connects to. -/
structure ServerConfig where
  address : String
  name : String := ""
  token : String := ""
  fingerprint : String := ""
  ca : String := ""
  deriving DecidableEq, Repr

/-- One app. The environment is a map, listed in any order; the kill timeout is in
nanoseconds and the memory limit in bytes, 0 for none. -/
structure App where
  id : Int := 0
  name : String
  cmd : String := ""
  args : List String := []
  cwd : String := ""
  instances : Int := 1
  env : List (String × String) := []
  restart : RestartMode := .always
  maxRestarts : Int := 0
  killTimeout : Int := 0
  maxMemoryRestart : Nat := 0
  logs : Option LogRetention := none
  source : Option GitSource := none
  deriving DecidableEq, Repr

/-- `[A-Za-z0-9][A-Za-z0-9._-]*`. -/
def validAppName (name : String) : Bool :=
  match name.toList with
  | [] => false
  | c :: rest => c.isAlphanum && rest.all fun d => d.isAlphanum || d == '.' || d == '_' || d == '-'

theorem validAppName_chars {name : String} (h : validAppName name = true) :
    ∀ c ∈ name.toList, c.isAlphanum = true ∨ c = '.' ∨ c = '_' ∨ c = '-' := by
  unfold validAppName at h
  split at h
  · cases h
  · rename_i c rest hlist
    obtain ⟨hc, hrest⟩ := Bool.and_eq_true_iff.mp h
    intro d hd
    rw [hlist] at hd
    rcases List.mem_cons.mp hd with rfl | hd
    · exact .inl hc
    · have hd := List.all_eq_true.mp hrest d hd
      simpa [or_assoc] using hd

end Marshal.Config
