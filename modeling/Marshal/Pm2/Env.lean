import Mathlib.Data.List.Sort
import Marshal.Pm2.Convert

/-! Environments split off into files.

`SplitEnvFiles` writes each app's inline environment to a file of its own and puts the
file's name in its place. The name is made from the app's: two names can give one file,
and an app whose own env file is replaced loses what that had. Loading gives every app
the environment it had exactly when the last one written to each file read is that
environment (`split_keeps_env_iff`). -/
namespace Marshal.Pm2
open Config FilePath

/-! ### The files' names -/

def safeFilenameChar (c : Char) : Bool := c.isAlphanum || c == '.' || c == '_' || c == '-'

/-- Each run of other characters is one underscore. -/
def replaceUnsafe (inRun : Bool) : List Char → List Char
  | [] => []
  | c :: cs =>
    if safeFilenameChar c then c :: replaceUnsafe false cs
    else if inRun then replaceUnsafe true cs
    else '_' :: replaceUnsafe true cs

/-- `strings.Trim(s, "._-")` -/
def trimPunctuation (s : List Char) : List Char :=
  let cut (c : Char) : Bool := c == '.' || c == '_' || c == '-'
  ((s.dropWhile cut).reverse.dropWhile cut).reverse

def envFileName (name : String) : String :=
  let s := trimPunctuation (replaceUnsafe false name.toList)
  String.ofList ((if s = [] then "app".toList else s) ++ ".env".toList)

/-- `KEY=VALUE` lines, by key. -/
def renderDotEnv (env : Env) : String :=
  String.ofList ((env.insertionSort fun e e' => e.1 ≤ e'.1).flatMap fun e =>
    e.1.toList ++ '=' :: e.2.toList ++ ['\n'])

/-! ### The split -/

variable {κ : Type} [DecidableEq κ]

def writeFile (fs : Files κ) (path : List String) (data : String) : Files κ :=
  { fs with content := fun f => if f = fs.locate path then some data else fs.content f }

/-- The app with its environment in the file. -/
def OutApp.split (a : OutApp) : OutApp :=
  if a.Env = [] then a else { a with EnvFile := envFileName a.Name, Env := [] }

/-- The files afterwards, and the apps with the names of the files written. -/
def SplitEnvFiles (dir : List String) : Files κ → List OutApp → Files κ × Except String (List OutApp × List String)
  | fs, [] => (fs, .ok ([], []))
  | fs, a :: rest =>
    if a.Env = [] then match SplitEnvFiles dir fs rest with
      | (fs, .error text) => (fs, .error text)
      | (fs, .ok (apps, written)) => (fs, .ok (a :: apps, written))
    else
      let fname := envFileName a.Name
      let path := join dir fname
      if fs.writable (fs.locate path) = false then (fs, .error "write env file for %q")
      else match SplitEnvFiles dir (writeFile fs path (renderDotEnv a.Env)) rest with
        | (fs, .error text) => (fs, .error text)
        | (fs, .ok (apps, written)) =>
          (fs, .ok ({ a with EnvFile := fname, Env := [] } :: apps, fname :: written))

/-- The file an app's environment is written to, if it has one inline. -/
def OutApp.target (a : OutApp) (fs : Files κ) (dir : List String) : Option κ :=
  if a.Env = [] then none else some (fs.locate (join dir (envFileName a.Name)))

/-- The environment written last to a file. -/
def lastWritten (fs : Files κ) (dir : List String) (apps : List OutApp) (f : κ) : Option Env :=
  (apps.reverse.find? fun a => a.target fs dir == some f).map OutApp.Env

/-- What a file holds after the apps' environments were written. -/
def contentAfter (fs : Files κ) (dir : List String) (apps : List OutApp) (f : κ) : Option String :=
  match lastWritten fs dir apps f with
  | some env => some (renderDotEnv env)
  | none => fs.content f

theorem lastWritten_cons (fs : Files κ) (dir : List String) (a : OutApp) (rest : List OutApp) (f : κ) :
    lastWritten fs dir (a :: rest) f =
      (lastWritten fs dir rest f).or (if a.target fs dir = some f then some a.Env else none) := by
  unfold lastWritten
  rw [List.reverse_cons, List.find?_append, Option.map_or]
  by_cases h : a.target fs dir = some f <;> simp [h]

theorem contentAfter_cons {fs : Files κ} {dir : List String} {a : OutApp} {rest : List OutApp} {f : κ}
    (h : a.target fs dir ≠ some f) : contentAfter fs dir (a :: rest) f = contentAfter fs dir rest f := by
  unfold contentAfter
  rw [lastWritten_cons, if_neg h, Option.or_none]

/-- The file of the first app has what the rest writes there, and what it is given otherwise. -/
theorem contentAfter_write (fs : Files κ) (dir : List String) {a : OutApp} (rest : List OutApp)
    (h : a.Env ≠ []) : contentAfter (writeFile fs (join dir (envFileName a.Name)) (renderDotEnv a.Env)) dir rest =
      contentAfter fs dir (a :: rest) := by
  funext f
  have hlast : lastWritten (writeFile fs (join dir (envFileName a.Name)) (renderDotEnv a.Env)) dir rest f =
      lastWritten fs dir rest f := rfl
  have htarget : a.target fs dir = some (fs.locate (join dir (envFileName a.Name))) := if_neg h
  unfold contentAfter
  rw [lastWritten_cons, hlast, htarget]
  cases lastWritten fs dir rest f with
  | some env => rfl
  | none =>
    by_cases hf : f = fs.locate (join dir (envFileName a.Name))
    · simp [writeFile, hf]
    · simp [writeFile, hf, Ne.symm hf]

/-- A split that succeeds puts every environment into its file, the later over the earlier. -/
theorem splitEnvFiles_ok {dir : List String} {fs fs' : Files κ} {apps apps' : List OutApp}
    {written : List String} (h : SplitEnvFiles dir fs apps = (fs', .ok (apps', written))) :
    apps' = apps.map OutApp.split ∧ fs'.locate = fs.locate ∧
      fs'.content = contentAfter fs dir apps := by
  induction apps generalizing fs apps' written with
  | nil =>
    cases h
    exact ⟨rfl, rfl, rfl⟩
  | cons a rest ih =>
    unfold SplitEnvFiles at h
    by_cases hempty : a.Env = []
    · rw [if_pos hempty] at h
      split at h <;> cases h
      rename_i hrest
      obtain ⟨happs, hlocate, hcontent⟩ := ih hrest
      refine ⟨by rw [happs, List.map_cons, OutApp.split, if_pos hempty], hlocate, ?_⟩
      rw [hcontent]
      funext f
      exact (contentAfter_cons (by simp [OutApp.target, hempty])).symm
    · rw [if_neg hempty] at h
      simp only at h
      split at h
      · cases h
      · split at h <;> cases h
        rename_i hrest
        obtain ⟨happs, hlocate, hcontent⟩ := ih hrest
        refine ⟨by rw [happs, List.map_cons, OutApp.split, if_neg hempty], hlocate, ?_⟩
        rw [hcontent, contentAfter_write fs dir rest hempty]

/-! ### What is read back -/

theorem replaceUnsafe_chars {inRun : Bool} {cs : List Char} {c : Char} (h : c ∈ replaceUnsafe inRun cs) :
    c ≠ '/' := by
  induction cs generalizing inRun with
  | nil => cases h
  | cons d cs ih =>
    unfold replaceUnsafe at h
    split at h
    · rename_i hsafe
      rcases List.mem_cons.mp h with rfl | h
      · rintro rfl
        exact absurd hsafe (by decide)
      · exact ih h
    · split at h
      · exact ih h
      · rcases List.mem_cons.mp h with rfl | h
        · decide
        · exact ih h

theorem envFileName_slash (name : String) : '/' ∉ (envFileName name).toList := by
  intro h
  unfold envFileName at h
  simp only [String.toList_ofList, List.mem_append] at h
  rcases h with h | h
  · split at h
    · exact absurd h (by decide)
    · simp only [trimPunctuation, List.mem_reverse] at h
      have hin := (List.dropWhile_suffix _).subset h
      rw [List.mem_reverse] at hin
      exact replaceUnsafe_chars ((List.dropWhile_suffix _).subset hin) rfl
  · exact absurd h (by decide)

/-- An env file of a split is found where it was written. -/
theorem envPath_split (dir : List String) (name : String) :
    envPath dir (envFileName name) = join dir (envFileName name) := by
  have habs : IsAbs (envFileName name) = false := by
    unfold IsAbs
    cases hchars : (envFileName name).toList with
    | nil => rfl
    | cons c rest =>
      have hc : c ≠ '/' := by
        rintro rfl
        exact envFileName_slash name (by simp [hchars])
      simpa using hc
  rw [envPath, habs, if_neg Bool.false_ne_true]

theorem envFileName_ne (name : String) : envFileName name ≠ "" := by
  intro h
  have hchars := congrArg String.toList h
  simp [envFileName] at hchars

/-! ### The environments -/

/-- What is written for an environment is read as it. -/
def Survives (env : Env) : Prop := SameEnv (parseDotEnv (renderDotEnv env)) env

/-- The file that loading reads for an app. -/
def OutApp.reads (a : OutApp) (fs : Files κ) (dir : List String) : Option κ :=
  if a.EnvFile = "" then none else some (fs.locate (envPath dir a.EnvFile))

/-- An app that reads a file after the split has the environment last written there. -/
def KeepsEnv (fs : Files κ) (dir : List String) (apps : List OutApp) (a : OutApp) : Prop :=
  ∀ f ∈ a.split.reads fs dir, ∀ last ∈ lastWritten fs dir apps f, ∀ env ∈ a.effectiveEnv fs dir,
    SameEnv last env

theorem lastWritten_target {fs : Files κ} {dir : List String} {apps : List OutApp} {a : OutApp} {f : κ}
    (ha : a ∈ apps) (h : a.target fs dir = some f) : lastWritten fs dir apps f ≠ none := by
  unfold lastWritten
  rw [ne_eq, Option.map_eq_none_iff, List.find?_eq_none]
  intro hnone
  exact hnone a (List.mem_reverse.mpr ha) (by simp [h])

theorem lastWritten_mem {fs : Files κ} {dir : List String} {apps : List OutApp} {f : κ} {env : Env}
    (h : lastWritten fs dir apps f = some env) : ∃ a ∈ apps, a.Env = env ∧ a.Env ≠ [] := by
  unfold lastWritten at h
  obtain ⟨a, hfind, rfl⟩ := Option.map_eq_some_iff.mp h
  refine ⟨a, List.mem_reverse.mp (List.mem_of_find?_eq_some hfind), rfl, fun hempty => ?_⟩
  have htarget := List.find?_some hfind
  simp [OutApp.target, hempty] at htarget

theorem split_env (a : OutApp) : a.split.Env = [] := by
  unfold OutApp.split
  split
  · assumption
  · rfl

omit [DecidableEq κ] in
theorem split_reads {fs : Files κ} {dir : List String} {a : OutApp} (h : a.Env ≠ []) :
    a.split.reads fs dir = a.target fs dir := by
  have hsplit : a.split.EnvFile = envFileName a.Name := by rw [OutApp.split, if_neg h]
  rw [OutApp.reads, OutApp.target, hsplit, if_neg (envFileName_ne a.Name), if_neg h, envPath_split]

theorem merge_nil (env : Env) : SameEnv (merge [] env) env := fun k => by
  rw [lookup_merge, List.lookup_nil, Option.none_or]

/-- The environment of one app after the split. -/
theorem split_effectiveEnv {fs fs' : Files κ} {dir : List String} {apps : List OutApp} {a : OutApp} {env : Env}
    (hcodec : ∀ b ∈ apps, b.Env ≠ [] → Survives b.Env) (hlocate : fs'.locate = fs.locate)
    (hcontent : fs'.content = contentAfter fs dir apps) (ha : a ∈ apps)
    (henv : a.effectiveEnv fs dir = some env) :
    ∃ env', a.split.effectiveEnv fs' dir = some env' ∧ (SameEnv env env' ↔ KeepsEnv fs dir apps a) := by
  have hread : fs'.ReadFile (envPath dir a.split.EnvFile) =
      contentAfter fs dir apps (fs.locate (envPath dir a.split.EnvFile)) := by
    rw [Files.ReadFile, hcontent, hlocate]
  unfold OutApp.effectiveEnv KeepsEnv
  rw [hread, split_env, henv]
  by_cases hnone : a.split.EnvFile = ""
  · -- No file is read, so none was before and nothing was inline.
    have hempty : a.Env = [] := by
      by_contra hinline
      have hsplit : a.split.EnvFile = envFileName a.Name := by rw [OutApp.split, if_neg hinline]
      exact envFileName_ne a.Name (hsplit.symm.trans hnone)
    have hsame : a.split = a := by rw [OutApp.split, if_pos hempty]
    rw [hsame] at hnone
    rw [OutApp.effectiveEnv, if_pos hnone, Option.some.injEq] at henv
    refine ⟨[], by simp [hsame, hnone], ?_⟩
    rw [← henv, hempty]
    simp [OutApp.reads, hsame, hnone, SameEnv]
  · have hreads : a.split.reads fs dir = some (fs.locate (envPath dir a.split.EnvFile)) := if_neg hnone
    rw [if_neg hnone, hreads]
    simp only [Option.mem_def, Option.some.injEq, forall_eq']
    cases hlast : lastWritten fs dir apps (fs.locate (envPath dir a.split.EnvFile)) with
    | some last =>
      obtain ⟨b, hb, rfl, hne⟩ := lastWritten_mem hlast
      refine ⟨_, by rw [contentAfter, hlast]; rfl, ?_⟩
      have hback : SameEnv (merge [] (parseDotEnv (renderDotEnv b.Env))) b.Env :=
        (merge_nil _).trans (hcodec b hb hne)
      simp only [Option.some.injEq, forall_eq']
      exact ⟨fun h => (h.trans hback).symm, fun h => (hback.trans h).symm⟩
    | none =>
      -- The file is the app's own, and as it was.
      have hempty : a.Env = [] := by
        by_contra hinline
        rw [split_reads hinline] at hreads
        exact lastWritten_target ha hreads hlast
      have hsame : a.split = a := by rw [OutApp.split, if_pos hempty]
      rw [hsame] at hnone hlast
      rw [OutApp.effectiveEnv, if_neg hnone, hempty] at henv
      refine ⟨env, ?_, by simp [SameEnv]⟩
      rw [← henv, hsame, contentAfter, hlast]
      rfl

/-- The apps have the same names and environments, in turn. -/
def SameEnvs (c c' : Config.Config) : Prop :=
  List.Forall₂ (fun x y => y.name = x.name ∧ SameEnv x.env y.env) c.apps c'.apps

omit [DecidableEq κ] in
/-- An app that is decoded is decoded after the split, with its environment apart. -/
theorem split_decode {a : OutApp} {fa : FileApp} (h : a.decode = .ok fa) :
    ∃ fa', a.split.decode = .ok fa' ∧
      ∀ env, { fa'.app with env := env } = { fa.app with env := env } := by
  have hkill : a.split.KillTimeout = a.KillTimeout := by
    unfold OutApp.split
    split <;> rfl
  unfold OutApp.decode at h ⊢
  rw [hkill]
  split at h <;> cases h
  refine ⟨_, rfl, fun env => ?_⟩
  unfold OutApp.split
  split <;> rfl

/-- **After a split every app has the environment it had before exactly when the environment written
last to each file that an app reads is what that app had.** -/
theorem split_keeps_env_iff (fs : Files κ) (dir : List String) (apps : List OutApp)
    (hcodec : ∀ a ∈ apps, a.Env ≠ [] → Survives a.Env) {c : Config.Config}
    (hload : loadFile fs dir apps = .ok c) {fs' : Files κ} {apps' : List OutApp} {written : List String}
    (hsplit : SplitEnvFiles dir fs apps = (fs', .ok (apps', written))) :
    (∃ c', loadFile fs' dir apps' = .ok c' ∧ SameEnvs c c') ↔ ∀ a ∈ apps, KeepsEnv fs dir apps a := by
  obtain ⟨rfl, hlocate, hcontent⟩ := splitEnvFiles_ok hsplit
  obtain ⟨as, hloads, hprepare⟩ := loadFile_ok_iff.mp hload
  obtain ⟨-, rfl⟩ := Prepare_ok_iff.mp hprepare
  constructor
  · rintro ⟨c', hload', hsame⟩ a ha
    obtain ⟨as', hloads', hprepare'⟩ := loadFile_ok_iff.mp hload'
    obtain ⟨-, rfl⟩ := Prepare_ok_iff.mp hprepare'
    rw [List.forall₂_map_left_iff] at hloads'
    unfold SameEnvs at hsame
    rw [List.forall₂_map_left_iff, List.forall₂_map_right_iff] at hsame
    obtain ⟨x, y, hx, hy, -, henvs⟩ := InOrder.mem_forall₂ hloads hloads' hsame ha
    obtain ⟨fa, env, -, henv, rfl⟩ := loads_iff.mp hx
    obtain ⟨fa', env', -, henv', rfl⟩ := loads_iff.mp hy
    obtain ⟨env'', hafter, hiff⟩ := split_effectiveEnv hcodec hlocate hcontent ha henv
    rw [henv', Option.some.injEq] at hafter
    subst hafter
    exact hiff.mp henvs
  · intro hkeeps
    obtain ⟨as', hloads', hsame⟩ := InOrder.exists_forall₂ (T := fun x y => SameButEnv x y ∧ SameEnv x.env y.env)
      (S := fun a app => a.split.Loads fs' dir app) hloads (by
        intro a ha x hx
        obtain ⟨fa, env, hdecode, henv, rfl⟩ := loads_iff.mp hx
        obtain ⟨fa', hdecode', hsame⟩ := split_decode hdecode
        obtain ⟨env', henv', hiff⟩ := split_effectiveEnv hcodec hlocate hcontent ha henv
        exact ⟨{ fa'.app with env := env' }, loads_iff.mpr ⟨fa', env', hdecode', henv', rfl⟩, hsame env',
          hiff.mpr (hkeeps a ha)⟩)
    have hbut : List.Forall₂ SameButEnv as as' := hsame.imp fun _ _ h => h.1
    refine ⟨_, loadFile_ok_iff.mpr ⟨as', ?_, Prepare_sameButEnv hbut hprepare⟩, ?_⟩
    · rwa [List.forall₂_map_left_iff]
    · unfold SameEnvs
      rw [List.forall₂_map_left_iff, List.forall₂_map_right_iff]
      refine hsame.imp ?_
      rintro x y ⟨hxy, henvs⟩
      refine ⟨?_, henvs⟩
      rw [hxy]
      rfl

/-- No files yet, and every path leads to one of its own. -/
def noFiles : Files (List String) := ⟨id, fun _ => none, fun _ => true⟩

/-- A node app with a port. -/
def nodeApp (name port : String) : PM2App := { Name := name, Script := "index.js", Env := [("PORT", port)] }

def twoApps (name name' : String) : List OutApp :=
  (Convert ⟨[nodeApp name "1", nodeApp name' "2"], none⟩).1

def loadedApp (name port : String) : App :=
  { name := name, cmd := "node", args := ["index.js"], instances := 1, env := [("PORT", port)],
    restart := .always, maxRestarts := 16, killTimeout := defaultKillTimeout }

theorem survives_port {port : String} (h : parseDotEnv (renderDotEnv [("PORT", port)]) = [("PORT", port)]) :
    Survives [("PORT", port)] := by
  rw [Survives, h]
  exact fun _ => rfl

theorem survives_twoApps (name name' : String) : ∀ a ∈ twoApps name name', Survives a.Env := by
  intro a ha
  rcases List.mem_cons.mp ha with rfl | ha
  · show Survives [("PORT", "1")]
    exact survives_port (by decide)
  · rw [List.mem_singleton.mp ha]
    show Survives [("PORT", "2")]
    exact survives_port (by decide)

/-- Files of their own. -/
theorem split_keeps_own :
    ∃ c', loadFile (SplitEnvFiles ["etc"] noFiles (twoApps "web" "api")).1 ["etc"]
        ((twoApps "web" "api").map OutApp.split) = .ok c' ∧
      SameEnvs { apps := [loadedApp "web" "1", loadedApp "api" "2"] } c' := by
  refine (split_keeps_env_iff noFiles ["etc"] (twoApps "web" "api")
    (fun a ha _ => survives_twoApps "web" "api" a ha) (by decide)
    (Prod.ext rfl (by decide) : SplitEnvFiles ["etc"] noFiles (twoApps "web" "api") =
      ((SplitEnvFiles ["etc"] noFiles (twoApps "web" "api")).1,
        .ok ((twoApps "web" "api").map OutApp.split, ["web.env", "api.env"])))).mpr ?_
  intro a ha f hf last hlast env henv
  rcases List.mem_cons.mp ha with rfl | ha
  · cases hf
    cases henv
    cases hlast
    exact fun _ => rfl
  · obtain rfl := List.mem_singleton.mp ha
    cases hf
    cases henv
    cases hlast
    exact fun _ => rfl

/-- Both names are valid, and give one file. -/
theorem split_mixes_names :
    validAppName "web" = true ∧ validAppName "web." = true ∧
      (∀ a ∈ twoApps "web" "web.", Survives a.Env) ∧
      loadFile noFiles ["etc"] (twoApps "web" "web.") =
        .ok { apps := [loadedApp "web" "1", loadedApp "web." "2"] } ∧
      (SplitEnvFiles ["etc"] noFiles (twoApps "web" "web.")).2 =
        .ok ((twoApps "web" "web.").map OutApp.split, ["web.env", "web.env"]) ∧
      ¬ ∃ c', loadFile (SplitEnvFiles ["etc"] noFiles (twoApps "web" "web.")).1 ["etc"]
          ((twoApps "web" "web.").map OutApp.split) = .ok c' ∧
        SameEnvs { apps := [loadedApp "web" "1", loadedApp "web." "2"] } c' := by
  have hafter : loadFile (SplitEnvFiles ["etc"] noFiles (twoApps "web" "web.")).1 ["etc"]
      ((twoApps "web" "web.").map OutApp.split) =
        .ok { apps := [loadedApp "web" "2", loadedApp "web." "2"] } := by decide
  refine ⟨by decide, by decide, survives_twoApps "web" "web.", by decide, by decide, ?_⟩
  rintro ⟨c', hload, hsame⟩
  rw [hafter, Except.ok.injEq] at hload
  subst hload
  cases hsame with
  | cons hfirst _ => exact absurd (hfirst.2 "PORT") (by decide)

end Marshal.Pm2
