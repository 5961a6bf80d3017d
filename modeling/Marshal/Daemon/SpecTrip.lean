import Marshal.Config.EnvFile
import Marshal.Daemon.Convert
import Marshal.Daemon.Fleet

/-! From an app to its wire spec and back.

The CLI sends the apps of a config file to the daemon, which fills in and validates each of
them again. The spec has 32-bit counts and the CLI leaves the git source out, so an app
comes back as it was exactly if it has no source and its counts fit (`spec_trip_iff`). -/
namespace Marshal.Daemon
open Config

/-- `int32(*p)` of each number that is there. -/
def retentionToWire (l : LogRetention) : LogRetention where
  maxSizeMB := l.maxSizeMB.map int32
  maxBackups := l.maxBackups.map int32
  maxAgeDays := l.maxAgeDays.map int32
  compress := l.compress

/-- The signed reading of a 64-bit number. -/
def int64 (n : Nat) : Int := (n : Int).bmod (2 ^ 64)

def appToSpec (a : App) : AppSpec where
  name := a.name
  cmd := a.cmd
  args := a.args
  cwd := a.cwd
  instances := int32 a.instances
  env := a.env
  restart := a.restart.text
  maxRestarts := int32 a.maxRestarts
  killTimeout := Duration.text a.killTimeout
  maxMemoryRestart := int64 a.maxMemoryRestart
  logs := a.logs.map retentionToWire
  -- no field of the spec is set from `a.source`
  source := none

/-! ### Numbers -/

/-- A signed 32-bit number. -/
def FitsInt32 (n : Int) : Prop := -2 ^ 31 ≤ n ∧ n < 2 ^ 31

instance (n : Int) : Decidable (FitsInt32 n) := inferInstanceAs (Decidable (_ ∧ _))

theorem int32_eq_self_iff (n : Int) : int32 n = n ↔ FitsInt32 n := by
  unfold int32 FitsInt32
  rw [Int.bmod_def]
  omega

theorem uint64_int64 {n : Nat} (h : n < 2 ^ 64) : uint64 (int64 n) = n := by
  unfold uint64 int64
  have hmod : ((n : Int).bmod (2 ^ 64)) % 2 ^ 64 = (n : Int) % 2 ^ 64 := Int.bmod_emod
  rw [hmod]
  omega

/-- The counts that are there are signed 32-bit numbers. -/
def RetentionFitsInt32 (l : LogRetention) : Prop :=
  (∀ n, l.maxSizeMB = some n → FitsInt32 n) ∧ (∀ n, l.maxBackups = some n → FitsInt32 n) ∧
    ∀ n, l.maxAgeDays = some n → FitsInt32 n

theorem map_int32_eq_self_iff (x : Option Int) : x.map int32 = x ↔ ∀ n, x = some n → FitsInt32 n := by
  cases x with
  | none => simp
  | some n => simp [int32_eq_self_iff]

theorem retentionToWire_eq_self_iff (l : LogRetention) : retentionToWire l = l ↔ RetentionFitsInt32 l := by
  obtain ⟨size, backups, age, compress⟩ := l
  simp only [retentionToWire, LogRetention.mk.injEq, and_true, RetentionFitsInt32, map_int32_eq_self_iff]

/-! ### Accepted apps -/

theorem validateApps_mem {seen : List String} {apps : List App} (h : validateApps seen apps = .ok ()) :
    ∀ a ∈ apps, a.validateName = .ok () ∧ a.validateRest = .ok () := by
  induction apps generalizing seen with
  | nil => exact fun a ha => absurd ha List.not_mem_nil
  | cons b rest ih =>
    simp only [validateApps, bind, Except.bind] at h
    split at h
    · cases h
    · rename_i hname
      split at h
      · cases h
      · split at h
        · cases h
        · rename_i hrest
          intro a ha
          rcases List.mem_cons.mp ha with rfl | ha
          · exact ⟨hname, hrest⟩
          · exact ih h a ha

theorem validate_mem {c : Config} (h : c.validate = .ok ()) :
    ∀ a ∈ c.apps, a.validateName = .ok () ∧ a.validateRest = .ok () := by
  unfold Config.validate at h
  cases hserver : c.server with
  | none =>
    by_cases hempty : c.apps = []
    · simp [hempty]
    · simp only [hserver, if_neg hempty] at h
      exact validateApps_mem h
  | some server =>
    cases hvalid : server.validate with
    | error text =>
      simp only [hserver, hvalid] at h
      cases h
    | ok u =>
      simp only [hserver, hvalid] at h
      exact validateApps_mem h

/-- An app of a config file that was accepted: filled in, valid, and with numbers of the Go types. -/
structure Accepted (a : App) : Prop where
  filled : a.applyDefaults = a
  name : a.validateName = .ok ()
  rest : a.validateRest = .ok ()
  fits : a.Fits

theorem loadEnvFile_fits {κ : Type} {fs : Files κ} {baseDir : List String} {d : FileApp} {b : App}
    (hfits : d.app.Fits) (h : loadEnvFile fs baseDir d = .ok b) : b.Fits := by
  unfold loadEnvFile at h
  split at h
  · cases h
    exact hfits
  · split at h
    · cases h
    · cases h
      exact ⟨hfits.id, hfits.instances, hfits.maxRestarts, hfits.killTimeout, hfits.maxMemoryRestart, hfits.logs⟩

theorem applyDefaults_fits {a : App} (h : a.Fits) : a.applyDefaults.Fits := by
  refine ⟨h.id, ?_, ?_, ?_, h.maxMemoryRestart, h.logs⟩
  · have hinstances := h.instances
    simp only [App.applyDefaults]
    split <;> omega
  · have hrestarts := h.maxRestarts
    simp only [App.applyDefaults]
    split <;> omega
  · have htimeout := h.killTimeout
    simp only [App.applyDefaults, defaultKillTimeout]
    split <;> omega

theorem Load_accepted {κ : Type} {fs : Files κ} {baseDir : List String} {doc : Document} {c : Config} {a : App}
    (hdoc : ∀ d ∈ doc.apps, d.app.Fits) (hload : Load fs baseDir doc = .ok c) (ha : a ∈ c.apps) : Accepted a := by
  unfold Load at hload
  cases hfiles : loadEnvFiles fs baseDir doc.apps with
  | error text =>
    rw [hfiles] at hload
    cases hload
  | ok apps =>
    rw [hfiles] at hload
    obtain ⟨hvalid, rfl⟩ := Prepare_ok_iff.mp hload
    obtain ⟨b, hb, rfl⟩ := List.mem_map.mp ha
    obtain ⟨d, hd, hread⟩ := InOrder.mem_each hfiles hb
    obtain ⟨hname, hrest⟩ := validate_mem hvalid _ ha
    exact ⟨b.applyDefaults_applyDefaults, hname, hrest, applyDefaults_fits (loadEnvFile_fits (hdoc d hd) hread)⟩

/-! ### The way back -/

/-- The app a spec describes, before it is filled in. -/
def specApp (s : AppSpec) (killTimeout : Int) : App where
  name := s.name
  cmd := s.cmd
  args := s.args
  cwd := s.cwd
  instances := s.instances
  env := s.env
  restart := .ofText s.restart
  maxRestarts := s.maxRestarts
  killTimeout := killTimeout
  maxMemoryRestart := uint64 s.maxMemoryRestart
  logs := s.logs
  source := s.source

theorem appSpecToConfig_eq {s : AppSpec} {killTimeout : Int} (h : specKillTimeout s.killTimeout = .ok killTimeout) :
    appSpecToConfig s = (validateApps [] [(specApp s killTimeout).applyDefaults]).map
      fun _ => (specApp s killTimeout).applyDefaults := by
  unfold appSpecToConfig
  rw [h]
  show (Config.Prepare { apps := [specApp s killTimeout] }).bind _ = _
  rw [Prepare_single]
  cases validateApps [] [(specApp s killTimeout).applyDefaults] <;> rfl

variable {a : App}

/-- An accepted app's own fields are back before anything is filled in. -/
theorem specApp_appToSpec (h : Accepted a) : specApp (appToSpec a) a.killTimeout =
    { a with
      id := 0
      instances := int32 a.instances
      maxRestarts := int32 a.maxRestarts
      logs := a.logs.map retentionToWire
      source := none } := by
  have hrestart : RestartMode.ofText a.restart.text = a.restart := by
    have hrest := h.rest
    unfold App.validateRest at hrest
    split at hrest
    · cases hrest
    · split at hrest
      · cases hrest
      · rename_i hmode
        by_contra hne
        refine hmode ⟨fun h => hne ?_, fun h => hne ?_, fun h => hne ?_⟩ <;> rw [h] <;> rfl
  have hmemory := uint64_int64 h.fits.maxMemoryRestart
  simp only [specApp, appToSpec, hrestart, hmemory]

theorem specKillTimeout_appToSpec (h : Accepted a) :
    specKillTimeout (appToSpec a).killTimeout = .ok a.killTimeout := by
  have hparse := Duration.ParseDuration_text h.fits.killTimeout.1 h.fits.killTimeout.2
  have hne : Duration.text a.killTimeout ≠ "" := by
    intro hempty
    rw [hempty] at hparse
    cases hparse
  simp only [specKillTimeout, appToSpec, if_neg hne, hparse]

/-- **Every accepted app comes back from its spec as it was, up to its id, exactly if it has no git
source and its counts are 32-bit numbers.** -/
theorem spec_trip_iff {κ : Type} (fs : Files κ) (baseDir : List String) (doc : Document) (c : Config) (a : App)
    (hdoc : ∀ d ∈ doc.apps, d.app.Fits) (hload : Load fs baseDir doc = .ok c) (ha : a ∈ c.apps) :
    appSpecToConfig (appToSpec a) = .ok { a with id := 0 } ↔
      a.source = none ∧ FitsInt32 a.instances ∧ FitsInt32 a.maxRestarts ∧
        ∀ l, a.logs = some l → RetentionFitsInt32 l := by
  have hacc := Load_accepted hdoc hload ha
  have hlogs : a.logs.map retentionToWire = a.logs ↔ ∀ l, a.logs = some l → RetentionFitsInt32 l := by
    cases a.logs with
    | none => simp
    | some l => simp [retentionToWire_eq_self_iff]
  have hback := specApp_appToSpec hacc
  rw [appSpecToConfig_eq (specKillTimeout_appToSpec hacc)]
  constructor
  · intro h
    cases hvalid : validateApps [] [(specApp (appToSpec a) a.killTimeout).applyDefaults] with
    | error text =>
      rw [hvalid] at h
      cases h
    | ok u =>
      rw [hvalid, hback] at h
      have hsame := Except.ok.inj h
      simp only [App.applyDefaults, App.mk.injEq, true_and] at hsame
      obtain ⟨hinstances, -, hrestarts, -, hretention, hsource⟩ := hsame
      refine ⟨hsource.symm, ?_, ?_, hlogs.mp hretention⟩
      · by_cases hzero : int32 a.instances = 0
        · rw [if_pos hzero] at hinstances
          rw [← hinstances]
          decide
        · rw [if_neg hzero] at hinstances
          exact (int32_eq_self_iff _).mp hinstances
      · by_cases hzero : int32 a.maxRestarts = 0
        · rw [if_pos hzero] at hrestarts
          rw [← hrestarts]
          decide
        · rw [if_neg hzero] at hrestarts
          exact (int32_eq_self_iff _).mp hrestarts
  · rintro ⟨hsource, hinstances, hrestarts, hretention⟩
    rw [(int32_eq_self_iff _).mpr hinstances, (int32_eq_self_iff _).mpr hrestarts, hlogs.mpr hretention,
      ← hsource] at hback
    have hdefaults : (specApp (appToSpec a) a.killTimeout).applyDefaults = { a with id := 0 } := by
      rw [hback]
      show { a.applyDefaults with id := 0 } = _
      rw [hacc.filled]
    have hvalid : validateApps [] [{ a with id := 0 }] = .ok () := by
      have hname : App.validateName { a with id := 0 } = .ok () := hacc.name
      have hrest : App.validateRest { a with id := 0 } = .ok () := hacc.rest
      simp [validateApps, hname, hrest, bind, Except.bind]
    rw [hdefaults, hvalid]
    rfl

/-- No files. -/
def noFiles : Files Unit where
  locate _ := ()
  content _ := none
  writable _ := false

/-- A config file with one app. -/
def oneApp (a : App) : Document := { apps := [{ app := a }] }

/-- An app with every field set but the source. -/
def plainApp : App where
  name := "web"
  cmd := "./web"
  args := ["-v"]
  cwd := "/srv"
  instances := 2
  env := [("K", "v")]
  restart := .onFailure
  maxRestarts := 3
  killTimeout := 2000000000
  maxMemoryRestart := 300 * 2 ^ 20
  logs := some { maxSizeMB := some 5, maxBackups := none, maxAgeDays := none, compress := some true }

theorem plainApp_fits : plainApp.Fits := by
  refine ⟨by decide, by decide, by decide, by decide, by decide, ?_⟩
  rintro l ⟨⟩
  exact ⟨by rintro n ⟨⟩; decide, nofun, nofun⟩

theorem spec_trip_plain : appSpecToConfig (appToSpec plainApp) = .ok plainApp := by
  have hdoc : ∀ d ∈ (oneApp plainApp).apps, d.app.Fits := by
    intro d hd
    rw [List.mem_singleton.mp hd]
    exact plainApp_fits
  refine (spec_trip_iff noFiles [] (oneApp plainApp) { apps := [plainApp] } plainApp hdoc (by decide +kernel)
    List.mem_cons_self).mpr ⟨rfl, by decide, by decide, ?_⟩
  rintro l ⟨⟩
  exact ⟨by rintro n ⟨⟩; decide, nofun, nofun⟩

/-- An app that is deployed from a repository, and 2^32 + 1 instances of it. -/
def gitApp : App := { plainApp with instances := 2 ^ 32 + 1, source := some { repo := "https://example/r.git" } }

/-- It is accepted from a file, and comes back without its source and as one instance. -/
theorem spec_trip_drops :
    Load noFiles [] (oneApp gitApp) = .ok { apps := [gitApp] } ∧
    appSpecToConfig (appToSpec gitApp) = .ok { gitApp with instances := 1, source := none } ∧
    appSpecToConfig (appToSpec gitApp) ≠ .ok { gitApp with id := 0 } := by
  have htrip : appSpecToConfig (appToSpec gitApp) = .ok { gitApp with instances := 1, source := none } := by
    decide +kernel
  refine ⟨by decide +kernel, htrip, ?_⟩
  rw [htrip]
  decide +kernel

end Marshal.Daemon
