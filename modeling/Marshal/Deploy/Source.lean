import Marshal.Config
import Marshal.Lib.Clean
import Marshal.Lib.Url
import Marshal.Lib.Utf8

/-! What a deploy makes of a git source.

The repository and the ref go into git's arguments, the repository with the credential's username put into
its URL; the subdirectory is joined with the clone's directory. A source that `Validate` accepts gives git
no option for an argument and keeps the build in the clone (`source_confined`). Arguments are strings of
bytes, one character for each. -/
namespace Marshal.Deploy
open Config FilePath

structure GitCredential where
  Username : String := ""
  /-- HTTPS personal-access token. -/
  Token : String := ""
  /-- SSH key authentication. -/
  SSH : Bool := false
  deriving DecidableEq, Repr

def GitCredential.httpsActive (c : GitCredential) : Bool := !c.SSH && c.Token != ""

abbrev Arg := List Char

def bytes (s : String) : Arg := Utf8.bytes s.toList

/-- The repository with a user in its URL. -/
def withUsername (raw user : String) : Arg :=
  if user = "" then bytes raw
  else match Url.Parse (bytes raw) with
    | none => bytes raw
    | some u => if u.Host = [] then bytes raw else { u with User := some (Url.User (bytes user)) }.String

def gitArgs (credActive : Bool) (args : List Arg) : List Arg :=
  if credActive then "-c".toList :: "credential.helper=".toList :: args else args

/-- The commands of a fresh clone or, on a redeploy, of a fetch. -/
def fetch (dir : Arg) (src : GitSource) (cred : GitCredential) (redeploy : Bool) : List (List Arg) :=
  let credActive := cred.httpsActive
  if redeploy then
    let ref := if src.ref = "" then "HEAD".toList else bytes src.ref
    [gitArgs credActive ["fetch".toList, "origin".toList, ref],
      gitArgs credActive ["reset".toList, "--hard".toList, "FETCH_HEAD".toList]]
  else
    let cloneURL := if credActive then withUsername src.repo cred.Username else bytes src.repo
    gitArgs credActive ["clone".toList, cloneURL, dir] ::
      if src.ref = "" then [] else [gitArgs credActive ["checkout".toList, bytes src.ref]]

/-- Where a commit is pushed. -/
def pushURL (src : GitSource) (cred : GitCredential) : Arg :=
  if cred.httpsActive then withUsername src.repo cred.Username else "origin".toList

/-- Where the build runs and the app is launched. -/
def buildDir (dir : String) (src : GitSource) : List Char :=
  if src.subdir = "" then dir.toList else Clean (dir ++ "/" ++ src.subdir)

/-! ### Arguments -/

/-- The argument is not taken for an option. -/
def Operand (a : Arg) : Prop := a.head? ≠ some '-'

instance (a : Arg) : Decidable (Operand a) := inferInstanceAs (Decidable (_ ≠ _))

theorem operand_bytes {s : String} (h : s.toList.head? ≠ some '-') : Operand (bytes s) :=
  fun hhead => h ((Utf8.head_bytes (b := 45) (by decide) (by decide) s.toList).mp hhead)

/-- With a user in it a URL begins with its scheme or with two slashes. -/
theorem operand_withUsername {raw : String} (h : raw.toList.head? ≠ some '-') (user : String) :
    Operand (withUsername raw user) := by
  have hraw := operand_bytes h
  unfold withUsername
  split
  · exact hraw
  · split
    · exact hraw
    · rename_i u hparse
      split
      · exact hraw
      · rename_i hhost
        obtain ⟨c, hc, hkind⟩ := Url.head_String hparse hhost (Url.User (bytes user))
        intro hdash
        rw [hc, Option.some.injEq] at hdash
        subst hdash
        exact absurd hkind (by decide)

/-! ### Validation -/

theorem Validate_ok {s : GitSource} (h : s.Validate = .ok ()) :
    s.repo.toList.head? ≠ some '-' ∧ s.ref.toList.head? ≠ some '-' ∧
      (s.subdir ≠ "" → IsAbs s.subdir = false ∧ (relative s.subdir).1 = 0) := by
  unfold GitSource.Validate at h
  split at h
  · cases h
  · split at h
    · cases h
    · rename_i hrepo
      split at h
      · cases h
      · rename_i href
        refine ⟨hrepo, href, fun hsub => ?_⟩
        rw [if_neg hsub] at h
        split at h
        · cases h
        · rename_i habs
          split at h
          · cases h
          · rename_i hclimb
            exact ⟨by simpa using habs, by simpa using hclimb⟩

/-- The check of the subdirectory is on its cleaned text. -/
theorem Validate_subdir {s : GitSource} (hsub : s.subdir ≠ "") (h : s.Validate = .ok ()) :
    Clean s.subdir ≠ "..".toList ∧ ¬ "../".toList <+: Clean s.subdir := by
  obtain ⟨habs, hclimb⟩ := (Validate_ok h).2.2 hsub
  rw [← not_or, climbs_iff habs]
  exact fun hne => hne hclimb

/-- **An accepted git source stays inside its clone**: the build directory is the clone's or lies under it,
and neither the repository nor the ref is an option to git, also with the username in the URL. -/
theorem source_confined (s : GitSource) (h : s.Validate = .ok ()) (dir : CleanPath) (hdir : dir.1 ≠ []) :
    (buildDir (String.ofList (text dir.1)) s = text dir.1 ∨
      text dir.1 ++ ['/'] <+: buildDir (String.ofList (text dir.1)) s) ∧
    ∀ (cred : GitCredential) (d : Arg), ∃ repo ref : Arg, Operand repo ∧ Operand ref ∧
      Operand (pushURL s cred) ∧
      fetch d s cred false = gitArgs cred.httpsActive ["clone".toList, repo, d] ::
        (if s.ref = "" then [] else [gitArgs cred.httpsActive ["checkout".toList, ref]]) ∧
      fetch d s cred true = [gitArgs cred.httpsActive ["fetch".toList, "origin".toList, ref],
        gitArgs cred.httpsActive ["reset".toList, "--hard".toList, "FETCH_HEAD".toList]] := by
  obtain ⟨hrepo, href, hsubdir⟩ := Validate_ok h
  constructor
  · unfold buildDir
    split
    · exact .inl String.toList_ofList
    · rename_i hsub
      have hclimb := (hsubdir hsub).2
      have hpath : String.ofList (text dir.1) ++ "/" ++ s.subdir =
          String.ofList (text dir.1 ++ '/' :: s.subdir.toList) := by
        simp [← String.toList_inj]
      have hjoin : join dir.1 s.subdir = dir.1 ++ (relative s.subdir).2 := by
        rw [join_eq, reach, hclimb, Nat.sub_zero, List.take_length]
      rw [hpath, Clean_join dir hdir]
      by_cases hsame : join dir.1 s.subdir = dir.1
      · exact .inl (by rw [hsame])
      · refine .inr ((under_iff_text dir.2 (join_clean dir.2 s.subdir)).mp (under_iff.mpr ⟨hdir, ?_, Ne.symm hsame⟩))
        rw [hjoin]
        exact List.prefix_append _ _
  · intro cred d
    have hwith := operand_withUsername hrepo cred.Username
    refine ⟨if cred.httpsActive then withUsername s.repo cred.Username else bytes s.repo,
      if s.ref = "" then "HEAD".toList else bytes s.ref, ?_, ?_, ?_, ?_, rfl⟩
    · split
      · exact hwith
      · exact operand_bytes hrepo
    · split
      · decide
      · exact operand_bytes href
    · unfold pushURL
      split
      · exact hwith
      · decide
    · by_cases hnone : s.ref = ""
      · simp [fetch, hnone]
      · simp [fetch, hnone]

/-- A source below the root of its repository, with a token. -/
def monorepo : GitSource := { repo := "https://example.com/-/r.git", ref := "main", subdir := "a/../web//./app/" }

theorem source_confined_monorepo :
    text ["srv", "web"] ++ ['/'] <+: buildDir "/srv/web" monorepo ∧
    ∃ repo, Operand repo ∧ repo = "https://-x@example.com/-/r.git".toList ∧
      fetch "/srv/web".toList monorepo { Username := "-x", Token := "t" } false =
        [gitArgs true ["clone".toList, repo, "/srv/web".toList], gitArgs true ["checkout".toList, "main".toList]] := by
  have hconfined := source_confined monorepo (by decide +kernel) ⟨["srv", "web"], by decide +kernel⟩ (by decide)
  refine ⟨hconfined.1.resolve_left (by decide +kernel), ?_⟩
  obtain ⟨repo, ref, hrepo, -, -, hclone, -⟩ := hconfined.2 { Username := "-x", Token := "t" } "/srv/web".toList
  have hfetch : fetch "/srv/web".toList monorepo { Username := "-x", Token := "t" } false =
      [gitArgs true ["clone".toList, "https://-x@example.com/-/r.git".toList, "/srv/web".toList],
        gitArgs true ["checkout".toList, "main".toList]] := by decide +kernel
  rw [hfetch] at hclone
  obtain rfl : "https://-x@example.com/-/r.git".toList = repo := by
    simpa [gitArgs, GitCredential.httpsActive] using (List.cons.inj hclone).1
  exact ⟨_, hrepo, rfl, hfetch⟩

end Marshal.Deploy
