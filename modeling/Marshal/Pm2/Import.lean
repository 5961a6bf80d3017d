import Marshal.Lib.InOrder
import Marshal.Pm2.Normalize

/-! What an import keeps of the PM2 apps.

An import without a warning gives a file that loads, with the apps as they were, only if
nothing in them is taken for absent: a zero is, and so is a list that is not only of
strings. A relative env file is looked for in the output directory, wherever the
ecosystem was, and a kill timeout has to be a duration (`import_faithful_iff`). -/
namespace Marshal.Pm2
open Config FilePath

variable {ν : Type} (lib : Reading ν)

/-! ### What a PM2 app says -/

/-- The words that an arguments field gives. -/
def words : Option (Raw ν) → List String
  | some (.arr items) => items.map (stringify lib)
  | some (.str s) => Fields s
  | _ => []

def RawApp.interpreterWords (r : RawApp ν) : List String :=
  if words lib r.NodeArgs = [] then words lib r.InterpreterArgs else words lib r.NodeArgs

def RawApp.commandLine (r : RawApp ν) : List String :=
  match interpreterOf r.Interpreter r.Script with
  | none => r.Script :: words lib r.Args
  | some interp => interp :: (r.interpreterWords lib ++ r.Script :: words lib r.Args)

/-- The instance count that is written down, if one is. -/
def explicitInstances : Option (Raw ν) → Option Int
  | some (.num x) => if lib.fits x ∧ lib.negative x = false then some (lib.truncate x) else none
  | some (.str s) => if EqualFold s "max" ∨ s = "-1" then none else Daemon.Atoi s
  | _ => none

def RawApp.inline (r : RawApp ν) : Config.Env := r.Env.map fun e => (e.1, stringify lib e.2)

variable {κ : Type} (fs : Files κ)

/-- The environment where a relative env file is looked for in `home`. -/
def RawApp.environment (home : List String) (r : RawApp ν) : Config.Env :=
  if r.EnvFile = "" then r.inline lib
  else match fs.ReadFile (envPath home r.EnvFile) with
    | none => r.inline lib
    | some data => merge (r.inline lib) (parseDotEnv data)

/-- A loaded app is what the PM2 app says. -/
structure Carries (base : Option CleanPath) (home : List String) (r : RawApp ν) (app : App) : Prop where
  name : app.name = r.Name
  commandLine : app.cmd :: app.args = r.commandLine lib
  cwd : app.cwd = resolveCwd base r.Cwd
  env : SameEnv app.env (r.environment lib fs home)
  instances : ∀ n ∈ explicitInstances lib r.Instances, app.instances = n
  maxRestarts : ∀ n ∈ r.MaxRestarts, app.maxRestarts = n
  killTimeout : ∀ ms ∈ r.KillTimeout, app.killTimeout = ms * 1000000
  restart : app.restart = if r.Autorestart = some false then .no else .always

/-! ### When it is kept -/

/-- All that is in an arguments field is read. -/
def OnlyStrings : Option (Raw ν) → Prop
  | some (.arr items) => ∀ i ∈ items, i.asString ≠ none
  | _ => True

/-- The arguments are of strings only, and with an interpreter so are its own, unless the alias
happens to spell the same line. -/
def CommandKept (r : RawApp ν) : Prop :=
  match interpreterOf r.Interpreter r.Script with
  | none => OnlyStrings r.Args
  | some _ =>
    (OnlyStrings r.NodeArgs ∧ OnlyStrings r.Args ∧ (words lib r.NodeArgs ≠ [] ∨ OnlyStrings r.InterpreterArgs)) ∨
    (¬ OnlyStrings r.NodeArgs ∧ words lib r.NodeArgs ++ r.Script :: words lib r.Args =
      stringOrList r.InterpreterArgs ++ r.Script :: stringOrList r.Args)

/-- The env file can be read where it is looked for, and gives there what it gives in `home`. -/
def EnvFileKept (home outDir : List String) (r : RawApp ν) : Prop :=
  r.EnvFile ≠ "" → ∃ data, fs.ReadFile (envPath outDir r.EnvFile) = some data ∧
    SameEnv (merge (r.inline lib) (parseDotEnv data)) (r.environment lib fs home)

structure Kept (home outDir : List String) (r : RawApp ν) : Prop where
  command : CommandKept lib r
  envFile : EnvFileKept lib fs home outDir r
  instances : explicitInstances lib r.Instances ≠ some 0
  maxRestarts : r.MaxRestarts ≠ some 0
  killTimeout : ∀ ms ∈ r.KillTimeout, 0 < ms ∧ ms * 1000000 < 2 ^ 63

/-! ### Arguments -/

variable {lib} {fs}

theorem asString_stringify {v : Raw ν} {s : String} (h : v.asString = some s) : stringify lib v = s := by
  cases v with
  | null => cases h; rfl
  | str t => cases h; rfl
  | bool | num | arr | obj => cases h

theorem mapM_asString {items : List (Raw ν)} (h : ∀ i ∈ items, i.asString ≠ none) :
    items.mapM Raw.asString = some (items.map (stringify lib)) := by
  induction items with
  | nil => rfl
  | cons v rest ih =>
    obtain ⟨s, hs⟩ := Option.ne_none_iff_exists'.mp (h v List.mem_cons_self)
    have hrest := ih fun i hi => h i (List.mem_cons_of_mem _ hi)
    simp [List.mapM_cons, hs, hrest, asString_stringify hs]

theorem mapM_asString_none {items : List (Raw ν)} {v : Raw ν} (hv : v ∈ items) (h : v.asString = none) :
    items.mapM Raw.asString = none := by
  induction items with
  | nil => cases hv
  | cons w rest ih =>
    rw [List.mapM_cons]
    rcases List.mem_cons.mp hv with rfl | hv
    · rw [h]
      rfl
    · rw [ih hv]
      cases w.asString <;> rfl

theorem stringOrList_of_onlyStrings {field : Option (Raw ν)} (h : OnlyStrings field) :
    stringOrList field = words lib field := by
  match field with
  | some (.arr items) =>
    show (items.mapM Raw.asString).getD [] = items.map (stringify lib)
    rw [mapM_asString h]
    rfl
  | some (.str _) | none | some .null | some (.bool _) | some (.num _) | some (.obj _) => rfl

/-- A list with something else in it is dropped whole, though it gives words. -/
theorem stringOrList_dropped {field : Option (Raw ν)} (h : ¬ OnlyStrings field) :
    stringOrList field = [] ∧ words lib field ≠ [] := by
  match field with
  | some (.arr items) =>
    simp only [OnlyStrings, not_forall, not_not] at h
    obtain ⟨v, hv, hnone⟩ := h
    refine ⟨?_, ?_⟩
    · show (items.mapM Raw.asString).getD [] = []
      rw [mapM_asString_none hv hnone]
      rfl
    · show items.map (stringify lib) ≠ []
      rw [ne_eq, List.map_eq_nil_iff]
      rintro rfl
      cases hv
  | some (.str _) | none | some .null | some (.bool _) | some (.num _) | some (.obj _) => exact absurd trivial h

theorem stringOrList_eq_iff {field : Option (Raw ν)} : stringOrList field = words lib field ↔ OnlyStrings field := by
  refine ⟨fun h => ?_, stringOrList_of_onlyStrings⟩
  by_contra hother
  obtain ⟨hdropped, hwords⟩ := @stringOrList_dropped ν lib field hother
  rw [hdropped] at h
  exact hwords h.symm

theorem stringOrList_length (field : Option (Raw ν)) :
    (stringOrList field).length ≤ (words lib field).length := by
  by_cases h : OnlyStrings field
  · rw [@stringOrList_of_onlyStrings ν lib field h]
  · rw [(@stringOrList_dropped ν lib field h).1]
    exact Nat.zero_le _

/-- Words that are dropped before a script are missing in the line. -/
theorem dropped_words_iff {script : String} {before after : Option (Raw ν)} :
    stringOrList before ++ script :: stringOrList after = words lib before ++ script :: words lib after ↔
      OnlyStrings after ∧ OnlyStrings before := by
  constructor
  · intro h
    have hbefore : OnlyStrings before := by
      by_contra hother
      obtain ⟨hdropped, hwords⟩ := @stringOrList_dropped ν lib before hother
      have hlen := congrArg List.length h
      have hle := @stringOrList_length ν lib after
      have hpos := List.length_pos_iff.mpr hwords
      rw [hdropped] at hlen
      simp only [List.length_append, List.length_cons, List.length_nil] at hlen
      omega
    rw [@stringOrList_of_onlyStrings ν lib before hbefore, List.append_cancel_left_eq, List.cons.injEq,
      stringOrList_eq_iff] at h
    exact ⟨h.2, hbefore⟩
  · rintro ⟨hafter, hbefore⟩
    rw [@stringOrList_of_onlyStrings ν lib before hbefore, @stringOrList_of_onlyStrings ν lib after hafter]

/-- The command line is read as it is written. -/
theorem command_kept_iff {r : RawApp ν} :
    (command (normalize lib r)).1 :: (command (normalize lib r)).2 = r.commandLine lib ↔ CommandKept lib r := by
  unfold command RawApp.commandLine CommandKept
  simp only [normalize]
  cases interpreterOf r.Interpreter r.Script with
  | none => simp [stringOrList_eq_iff]
  | some interp =>
    simp only [List.cons.injEq, true_and]
    unfold nodeArgs RawApp.interpreterWords
    by_cases hnode : OnlyStrings r.NodeArgs
    · have hread : stringOrList r.NodeArgs = words lib r.NodeArgs := stringOrList_of_onlyStrings hnode
      rw [hread]
      simp only [hnode, true_and, not_true_eq_false, false_and, or_false]
      by_cases hnone : words lib r.NodeArgs = []
      · simp only [ne_eq, hnone, not_true_eq_false, false_or]
        exact dropped_words_iff
      · rw [if_neg hnone, if_neg hnone, List.append_cancel_left_eq, List.cons.injEq, stringOrList_eq_iff]
        simp [hnone]
    · obtain ⟨hdropped, hwords⟩ := @stringOrList_dropped ν lib r.NodeArgs hnode
      simp [hdropped, hwords, hnode, eq_comm]

/-! ### Counts and durations -/

theorem explicitInstances_parse {field : Option (Raw ν)} {n : Int} (h : explicitInstances lib field = some n) :
    (parseInstances lib field).1 = n := by
  match field with
  | some (.num x) =>
    simp only [explicitInstances, Option.ite_none_right_eq_some, Option.some.injEq] at h
    simp [parseInstances, h.1.1, h.1.2, h.2]
  | some (.str s) =>
    simp only [explicitInstances, Option.ite_none_left_eq_some] at h
    simp [parseInstances, h.1, h.2]
  | none | some .null | some (.bool _) | some (.arr _) | some (.obj _) => cases h

/-- A count is kept unless it is zero. -/
theorem promoted_iff {stored : Option Int} {n default : Int} (hn : ∀ m ∈ stored, n = m) (hdefault : default ≠ 0) :
    (∀ m ∈ stored, (if n = 0 then default else n) = m) ↔ stored ≠ some 0 := by
  cases stored with
  | none => simp
  | some m =>
    obtain rfl : n = m := hn m rfl
    simp only [Option.mem_def, Option.some.injEq, forall_eq', ne_eq]
    by_cases hzero : n = 0
    · simp [hzero, hdefault]
    · simp [hzero]

theorem milliseconds_range (ms : Int) : -2 ^ 63 ≤ milliseconds ms ∧ milliseconds ms < 2 ^ 63 := by
  have hlow := @Int.le_bmod (ms * 1000000) (2 ^ 64) (by decide)
  have hhigh := @Int.bmod_lt (ms * 1000000) (2 ^ 64) (by decide)
  exact ⟨hlow, hhigh⟩

theorem milliseconds_small {ms : Int} (hpos : 0 < ms) (h : ms * 1000000 < 2 ^ 63) :
    milliseconds ms = ms * 1000000 := by
  unfold milliseconds
  rw [Int.bmod_eq_of_le] <;> omega

/-- The kill timeout that is read from the file. -/
theorem killTimeout_decoded {ms kt : Int}
    (h : (if (if 0 < ms then Duration.text (milliseconds ms) else "") = "" then some 0
      else Duration.ParseDuration (if 0 < ms then Duration.text (milliseconds ms) else "")) = some kt) :
    kt = if 0 < ms then milliseconds ms else 0 := by
  by_cases hpos : 0 < ms
  · obtain ⟨hlow, hhigh⟩ := milliseconds_range ms
    have hparse := Duration.ParseDuration_text hlow hhigh
    have hne : Duration.text (milliseconds ms) ≠ "" := by
      intro hempty
      have hnone : Duration.ParseDuration "" = none := by decide
      rw [hempty, hnone] at hparse
      cases hparse
    simp only [if_pos hpos, if_neg hne, hparse, Option.some.injEq] at h ⊢
    exact h.symm
  · simpa [hpos, eq_comm] using h

/-- A kill timeout is kept if it is positive and its nanoseconds are within 64 bits. -/
theorem killTimeout_iff (ms : Int) :
    (if (if 0 < ms then milliseconds ms else 0) = 0 then defaultKillTimeout
      else if 0 < ms then milliseconds ms else 0) = ms * 1000000 ↔ 0 < ms ∧ ms * 1000000 < 2 ^ 63 := by
  by_cases hpos : 0 < ms
  · simp only [hpos, if_true, true_and]
    constructor
    · intro h
      have hrange := (milliseconds_range ms).2
      unfold defaultKillTimeout at h
      split at h <;> omega
    · intro hsmall
      rw [milliseconds_small hpos hsmall, if_neg (by omega)]
  · simp only [hpos, if_false, if_true, false_and, iff_false]
    unfold defaultKillTimeout
    omega

/-! ### One app -/

variable {base : Option CleanPath} {home outDir : List String} {r : RawApp ν}

/-- What the file's app is read as. -/
theorem convertApp_decode {p : PM2App} {fa : FileApp} (h : (convertApp base p).decode = .ok fa) :
    fa.envFile = p.EnvFile ∧ fa.app =
      { name := (appName p).1, cmd := (command p).1, args := (command p).2, cwd := resolveCwd base p.Cwd,
        instances := p.Instances, env := p.Env, restart := fa.app.restart, maxRestarts := p.MaxRestarts,
        killTimeout := if 0 < p.KillTimeoutMs then milliseconds p.KillTimeoutMs else 0 } ∧
      fa.app.restart = RestartMode.ofText (if p.Autorestart = some false then "no" else "") := by
  unfold OutApp.decode at h
  split at h <;> cases h
  rename_i kt hkill
  refine ⟨rfl, ?_, rfl⟩
  rw [killTimeout_decoded hkill]
  rfl

theorem restart_kept (autorestart : Option Bool) :
    (if RestartMode.ofText (if autorestart = some false then "no" else "") = .other "" then RestartMode.always
      else RestartMode.ofText (if autorestart = some false then "no" else "")) =
      if autorestart = some false then .no else .always := by
  by_cases h : autorestart = some false
  · simp only [h, if_true]
    decide
  · simp only [h, if_false]
    decide

theorem carries_iff {fa : FileApp} {env : Config.Env} (hname : r.Name ≠ "")
    (hdecode : (convertApp base (normalize lib r)).decode = .ok fa) :
    Carries lib fs base home r (App.applyDefaults { fa.app with env := env }) ↔
      CommandKept lib r ∧ SameEnv env (r.environment lib fs home) ∧
        explicitInstances lib r.Instances ≠ some 0 ∧ r.MaxRestarts ≠ some 0 ∧
        ∀ ms ∈ r.KillTimeout, 0 < ms ∧ ms * 1000000 < 2 ^ 63 := by
  obtain ⟨-, happ, hrestart⟩ := convertApp_decode hdecode
  rw [hrestart] at happ
  have hinst := @promoted_iff (explicitInstances lib r.Instances) (parseInstances lib r.Instances).1 1
    (fun m hm => explicitInstances_parse hm) (by decide)
  have hmax := @promoted_iff r.MaxRestarts (r.MaxRestarts.getD 0) 16
    (fun m hm => by rw [Option.mem_def.mp hm]; rfl) (by decide)
  have hkill : (∀ ms ∈ r.KillTimeout, (App.applyDefaults { fa.app with env := env }).killTimeout = ms * 1000000) ↔
      ∀ ms ∈ r.KillTimeout, 0 < ms ∧ ms * 1000000 < 2 ^ 63 := by
    refine forall₂_congr fun ms hms => ?_
    have hvalue : (App.applyDefaults { fa.app with env := env }).killTimeout =
        if (if 0 < ms then milliseconds ms else 0) = 0 then defaultKillTimeout
        else if 0 < ms then milliseconds ms else 0 := by
      rw [happ]
      simp only [App.applyDefaults, normalize, Option.mem_def.mp hms, Option.getD_some]
    rw [hvalue]
    exact killTimeout_iff ms
  constructor
  · intro h
    refine ⟨command_kept_iff.mp ?_, h.env, hinst.mp ?_, hmax.mp ?_, hkill.mp h.killTimeout⟩
    · rw [← h.commandLine, happ]
      rfl
    · have hcount := h.instances
      rw [happ] at hcount
      exact hcount
    · have hlimit := h.maxRestarts
      rw [happ] at hlimit
      exact hlimit
  · rintro ⟨hcommand, henv, hcount, hlimit, htimeout⟩
    refine ⟨?_, ?_, ?_, henv, ?_, ?_, hkill.mpr htimeout, ?_⟩
    · rw [happ]
      simp [App.applyDefaults, appName, normalize, hname]
    · rw [← command_kept_iff.mpr hcommand, happ]
      rfl
    · rw [happ]
      rfl
    · rw [happ]
      exact hinst.mpr hcount
    · rw [happ]
      exact hmax.mpr hlimit
    · rw [happ]
      exact restart_kept r.Autorestart

/-- The environment that loading gives, if it can be read. -/
theorem effectiveEnv_kept_iff :
    (∃ env, (convertApp base (normalize lib r)).effectiveEnv fs outDir = some env ∧
      SameEnv env (r.environment lib fs home)) ↔ EnvFileKept lib fs home outDir r := by
  unfold OutApp.effectiveEnv EnvFileKept
  by_cases hnone : r.EnvFile = ""
  · have henv : SameEnv (r.inline lib) (r.environment lib fs home) := by
      rw [RawApp.environment, if_pos hnone]
      exact fun _ => rfl
    simp only [ne_eq, hnone, not_true_eq_false, false_imp_iff, iff_true]
    exact ⟨_, if_pos hnone, henv⟩
  · simp only [ne_eq, hnone, not_false_eq_true, true_imp_iff]
    show (∃ env, (if r.EnvFile = "" then some _ else _) = some env ∧ _) ↔ _
    rw [if_neg hnone]
    simp only [Option.map_eq_some_iff]
    constructor
    · rintro ⟨env, ⟨data, hdata, rfl⟩, henv⟩
      exact ⟨data, hdata, henv⟩
    · rintro ⟨data, hdata, henv⟩
      exact ⟨_, ⟨data, hdata, rfl⟩, henv⟩

/-! ### The import -/

theorem parseFile_ok {apps : List OutApp} {c : Config.Config} (h : parseFile apps = .ok c) :
    ∃ fas, List.Forall₂ (fun a fa => a.decode = .ok fa) apps fas ∧
      Config.Config.Prepare { apps := fas.map FileApp.app } = .ok c := by
  unfold parseFile Parse at h
  cases hdecode : decodeApps apps with
  | error text => simp [hdecode, bind, Except.bind] at h
  | ok fas =>
    rw [hdecode] at h
    exact ⟨fas, InOrder.each_ok_iff.mp hdecode, h⟩

/-- An app that had to be given a name is warned about. -/
theorem name_of_quiet {raws : List (RawApp ν)} (hquiet : (Convert (ecosystem lib base raws)).2 = [])
    {r : RawApp ν} (hr : r ∈ raws) : r.Name ≠ "" := by
  intro hname
  have hnone : appWarnings (normalize lib r) = [] := by
    simp only [Convert, ecosystem, List.flatMap_map, List.flatMap_eq_nil_iff] at hquiet
    exact hquiet r hr
  simp [appWarnings, appName, normalize, hname] at hnone

/-- **An import without a warning gives a file that loads, with every app as its PM2 app says, exactly
when every app is kept: its arguments are only of strings, no count and no timeout that it gives is
zero, its kill timeout is a duration, and its env file is read.** -/
theorem import_faithful_iff (lib : Reading ν) (fs : Files κ) (base : Option CleanPath)
    (home outDir : List String) (raws : List (RawApp ν))
    (hquiet : (Convert (ecosystem lib base raws)).2 = []) {c : Config.Config}
    (hvalid : parseFile (Convert (ecosystem lib base raws)).1 = .ok c) :
    (∃ loaded, loadFile fs outDir (Convert (ecosystem lib base raws)).1 = .ok loaded ∧
      List.Forall₂ (Carries lib fs base home) raws loaded.apps) ↔
    ∀ r ∈ raws, Kept lib fs home outDir r := by
  have happs : (Convert (ecosystem lib base raws)).1 = raws.map fun r => convertApp base (normalize lib r) := by
    simp [Convert, ecosystem, Function.comp_def]
  rw [happs] at hvalid ⊢
  obtain ⟨fas, hdecode, hprepare⟩ := parseFile_ok hvalid
  rw [List.forall₂_map_left_iff] at hdecode
  constructor
  · rintro ⟨loaded, hload, hcarries⟩ r hr
    obtain ⟨as, hloads, hprepare'⟩ := loadFile_ok_iff.mp hload
    obtain ⟨-, rfl⟩ := Prepare_ok_iff.mp hprepare'
    rw [List.forall₂_map_left_iff] at hloads
    rw [List.forall₂_map_right_iff] at hcarries
    have hself : List.Forall₂ Eq as as := List.forall₂_same.mpr fun _ _ => rfl
    obtain ⟨x, y, hx, hxy, rfl⟩ := InOrder.mem_forall₂ hloads hcarries hself hr
    obtain ⟨fa, env, hfa, henv, rfl⟩ := loads_iff.mp hx
    obtain ⟨hcommand, hsame, hcount, hlimit, htimeout⟩ := (carries_iff (name_of_quiet hquiet hr) hfa).mp hxy
    exact ⟨hcommand, effectiveEnv_kept_iff.mp ⟨env, henv, hsame⟩, hcount, hlimit, htimeout⟩
  · intro hkept
    obtain ⟨as, hboth, hbut⟩ := InOrder.exists_forall₂ (T := fun fa app => SameButEnv fa.app app)
      (S := fun r app => (convertApp base (normalize lib r)).Loads fs outDir app ∧
        Carries lib fs base home r app.applyDefaults) hdecode (by
        intro r hr fa hfa
        have hk := hkept r hr
        obtain ⟨env, henv, hsame⟩ := (@effectiveEnv_kept_iff _ lib _ fs base home outDir r).mpr hk.envFile
        exact ⟨{ fa.app with env := env }, ⟨loads_iff.mpr ⟨fa, env, hfa, henv, rfl⟩,
          (carries_iff (name_of_quiet hquiet hr) hfa).mpr
            ⟨hk.command, hsame, hk.instances, hk.maxRestarts, hk.killTimeout⟩⟩, rfl⟩)
    have hloads := hboth.imp fun _ _ h => h.1
    have hcarries := hboth.imp fun _ _ h => h.2
    rw [← List.forall₂_map_left_iff] at hbut
    refine ⟨_, loadFile_ok_iff.mpr ⟨as, ?_, Prepare_sameButEnv hbut hprepare⟩, ?_⟩
    · rwa [List.forall₂_map_left_iff]
    · rwa [List.forall₂_map_right_iff]

/-- Integers, read as they are. -/
def integers : Reading Int where
  fits _ := true
  negative n := n < 0
  truncate n := n
  format n := toString n
  sprint _ := ""

def appDir : CleanPath := ⟨["srv", "app"], by decide⟩

/-- One env file, beside the ecosystem's. -/
def envBeside : Files (List String) where
  locate := fun p => p.filter (· ≠ "")
  content := fun f => if f = ["srv", "app", ".env"] then some "TOKEN=t\n" else none
  writable _ := true

def importedApp (envFile : String) : RawApp Int where
  Name := "api"
  Script := "index.js"
  Args := some (.arr [.str "--port", .str "3000"])
  Env := [("MODE", .str "prod")]
  EnvFile := envFile
  Instances := some (.str "2")
  Autorestart := some false
  MaxRestarts := some 5
  KillTimeout := some 3000

/-- The same app, loaded. -/
def importedConfig : Config.Config where
  apps :=
    [{ name := "api", cmd := "node", args := ["index.js", "--port", "3000"], cwd := "/srv/app", instances := 2,
       env := [("MODE", "prod")], restart := .no, maxRestarts := 5, killTimeout := 3000000000 }]

/-- An absolute env file is read from any directory. -/
theorem import_keeps_absolute :
    ∃ loaded, loadFile envBeside ["etc"] (Convert (ecosystem integers (some appDir) [importedApp "/srv/app/.env"])).1 =
        .ok loaded ∧
      List.Forall₂ (Carries integers envBeside (some appDir) ["srv", "app"]) [importedApp "/srv/app/.env"]
        loaded.apps := by
  refine (import_faithful_iff (c := importedConfig) integers envBeside (some appDir) ["srv", "app"] ["etc"]
    [importedApp "/srv/app/.env"] (by decide) (by decide +kernel)).mpr ?_
  intro r hr
  obtain rfl := List.mem_singleton.mp hr
  refine ⟨?_, ?_, by decide, by decide, ?_⟩
  · have hnode : interpreterOf "" "index.js" = some "node" := by decide
    unfold CommandKept
    rw [show interpreterOf (importedApp "/srv/app/.env").Interpreter (importedApp "/srv/app/.env").Script =
      some "node" from hnode]
    refine .inl ⟨trivial, fun i hi => ?_, .inr trivial⟩
    rcases List.mem_cons.mp hi with rfl | hi
    · exact Option.some_ne_none _
    · rw [List.mem_singleton.mp hi]
      exact Option.some_ne_none _
  · intro _
    exact ⟨"TOKEN=t\n", by decide, fun _ => rfl⟩
  · rintro ms ⟨⟩
    decide

/-- A relative one is looked for in the output directory, and not found. -/
theorem import_loses_relative :
    (Convert (ecosystem integers (some appDir) [importedApp ".env"])).2 = [] ∧
      parseFile (Convert (ecosystem integers (some appDir) [importedApp ".env"])).1 = .ok importedConfig ∧
      loadFile envBeside ["etc"] (Convert (ecosystem integers (some appDir) [importedApp ".env"])).1 =
        .error "app %q: read env_file %q" ∧
      ¬ ∃ loaded, loadFile envBeside ["etc"]
          (Convert (ecosystem integers (some appDir) [importedApp ".env"])).1 = .ok loaded ∧
        List.Forall₂ (Carries integers envBeside (some appDir) ["srv", "app"]) [importedApp ".env"]
          loaded.apps := by
  have hfails : loadFile envBeside ["etc"]
      (Convert (ecosystem integers (some appDir) [importedApp ".env"])).1 =
        .error "app %q: read env_file %q" := by decide +kernel
  refine ⟨by decide, by decide +kernel, hfails, ?_⟩
  rintro ⟨loaded, hload, -⟩
  rw [hfails] at hload
  simp only [reduceCtorEq] at hload

end Marshal.Pm2
