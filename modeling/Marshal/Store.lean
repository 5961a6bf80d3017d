import Marshal.Config
import Marshal.Duration
import Marshal.Errsig
import Marshal.Lib.Json
import Marshal.Lib.Trim

/-! The state directory.

The saved list of apps (`dump.json`), the server record (`fleet.json`) and the
per-agent token are three files. A file of JSON text stands for its value. What is
written for an app is read back as the same app. -/
namespace Marshal.Config
open Json

/-! ### Restart modes -/

def RestartMode.text : RestartMode → String
  | .always => "always"
  | .onFailure => "on-failure"
  | .no => "no"
  | .other t => t

def RestartMode.ofText (t : String) : RestartMode :=
  if t = "always" then .always else if t = "on-failure" then .onFailure
  else if t = "no" then .no else .other t

/-! ### Sizes -/

/-- The size without its suffix, and what the suffix stands for. -/
def sizeUnit (upper : List Char) : Nat × List Char :=
  let suffixes : List (List Char × Nat) := [(['G', 'B'], 2 ^ 30), (['G'], 2 ^ 30),
    (['M', 'B'], 2 ^ 20), (['M'], 2 ^ 20), (['K', 'B'], 2 ^ 10), (['K'], 2 ^ 10), (['B'], 1)]
  match suffixes.find? fun s => s.1.isSuffixOf upper with
  | some s => (s.2, upper.take (upper.length - s.1.length))
  | none => (1, upper)

def trimSpace (s : List Char) : List Char :=
  ((s.dropWhile Char.isWhitespace).reverse.dropWhile Char.isWhitespace).reverse

/-- `strconv.ParseUint` in base ten. -/
def ParseUint (s : List Char) : Option Nat :=
  if s = [] ∨ s.any (!·.isDigit) then none
  else if Decimal.value s < 2 ^ 64 then some (Decimal.value s) else none

/-- A size with or without a unit; the product wraps. No letter outside ASCII has one of the units'
letters as its upper case. -/
def parseByteSize (s : List Char) : Option Nat :=
  let s := Errsig.trimSpace s
  if s = [] then some 0
  else
    let (mult, upper) := sizeUnit (s.map Char.toUpper)
    (ParseUint (Errsig.trimSpace upper)).map fun n => n * mult % 2 ^ 64

/-- `ByteSize.UnmarshalJSON`: the text of a number, or a string. -/
def unmarshalSize : Json → Option Nat
  | .num n => parseByteSize (toString n).toList
  | .str s => parseByteSize s.toList
  | _ => none

/-- `Duration.UnmarshalJSON` -/
def unmarshalDuration : Json → Option Int
  | .str s => Duration.ParseDuration s
  | _ => none

/-! ### Records -/

def LogRetention.MarshalJSON (l : LogRetention) : Json :=
  .obj (omitempty "max_size_mb" (l.maxSizeMB.map .num) ++
    omitempty "max_backups" (l.maxBackups.map .num) ++
    omitempty "max_age_days" (l.maxAgeDays.map .num) ++
    omitempty "compress" (l.compress.map .bool))

def LogRetention.UnmarshalJSON : Json → Option LogRetention
  | .obj ms => do
    let maxSizeMB ← field ms "max_size_mb" none (pointer int64)
    let maxBackups ← field ms "max_backups" none (pointer int64)
    let maxAgeDays ← field ms "max_age_days" none (pointer int64)
    let compress ← field ms "compress" none (pointer boolean)
    pure { maxSizeMB, maxBackups, maxAgeDays, compress }
  | _ => none

/-- A text that is left out where it is empty. -/
def nonempty (s : String) : Option Json := if s = "" then none else some (.str s)

def GitSource.MarshalJSON (s : GitSource) : Json :=
  .obj (omitempty "repo" (some (.str s.repo)) ++ omitempty "ref" (nonempty s.ref) ++
    omitempty "build" (nonempty s.build) ++ omitempty "subdir" (nonempty s.subdir) ++
    omitempty "credential" (nonempty s.credential))

def GitSource.UnmarshalJSON : Json → Option GitSource
  | .obj ms => do
    let repo ← field ms "repo" "" string
    let ref ← field ms "ref" "" string
    let build ← field ms "build" "" string
    let subdir ← field ms "subdir" "" string
    let credential ← field ms "credential" "" string
    pure { repo, ref, build, subdir, credential }
  | _ => none

def ServerConfig.MarshalJSON (s : ServerConfig) : Json :=
  .obj (omitempty "address" (some (.str s.address)) ++ omitempty "name" (nonempty s.name) ++
    omitempty "token" (nonempty s.token) ++ omitempty "fingerprint" (nonempty s.fingerprint) ++
    omitempty "ca" (nonempty s.ca))

def ServerConfig.UnmarshalJSON : Json → Option ServerConfig
  | .null => some { address := "" }
  | .obj ms => do
    let address ← field ms "address" "" string
    let name ← field ms "name" "" string
    let token ← field ms "token" "" string
    let fingerprint ← field ms "fingerprint" "" string
    let ca ← field ms "ca" "" string
    pure { address, name, token, fingerprint, ca }
  | _ => none

def App.members (a : App) : Members :=
  omitempty "id" (if a.id = 0 then none else some (.num a.id)) ++
  omitempty "name" (some (.str a.name)) ++
  omitempty "cmd" (some (.str a.cmd)) ++
  omitempty "args" (some (.arr (a.args.map .str))) ++
  omitempty "cwd" (some (.str a.cwd)) ++
  omitempty "instances" (some (.num a.instances)) ++
  omitempty "env" (some (.obj (a.env.map fun m => (m.1, .str m.2)))) ++
  omitempty "restart" (some (.str a.restart.text)) ++
  omitempty "max_restarts" (some (.num a.maxRestarts)) ++
  omitempty "kill_timeout" (some (.str (Duration.text a.killTimeout))) ++
  omitempty "max_memory_restart" (some (.num a.maxMemoryRestart)) ++
  omitempty "logs" (a.logs.map LogRetention.MarshalJSON) ++
  omitempty "source" (a.source.map GitSource.MarshalJSON)

/-- The fields' tags leave out an id of 0 and what is not there; a size is no such field. -/
def App.MarshalJSON (a : App) : Json := .obj a.members

/-- An `App` with every field zero. -/
def App.zero : App := { name := "", instances := 0, restart := .other "" }

def App.UnmarshalJSON : Json → Option App
  | .null => some App.zero
  | .obj ms => do
    let id ← field ms "id" 0 int64
    let name ← field ms "name" "" string
    let cmd ← field ms "cmd" "" string
    let args ← field ms "args" [] strings
    let cwd ← field ms "cwd" "" string
    let instances ← field ms "instances" 0 int64
    let env ← field ms "env" [] stringMap
    let restart ← field ms "restart" "" string
    let maxRestarts ← field ms "max_restarts" 0 int64
    let killTimeout ← field ms "kill_timeout" 0 unmarshalDuration
    let maxMemoryRestart ← field ms "max_memory_restart" 0 unmarshalSize
    let logs ← field ms "logs" none (pointer LogRetention.UnmarshalJSON)
    let source ← field ms "source" none (pointer GitSource.UnmarshalJSON)
    pure { id, name, cmd, args, cwd, instances, env, restart := .ofText restart, maxRestarts,
           killTimeout, maxMemoryRestart, logs, source }
  | _ => none

/-! ### What is written is read back -/

/-- The numbers are of the Go types. -/
structure LogRetention.Fits (l : LogRetention) : Prop where
  maxSizeMB : ∀ n, l.maxSizeMB = some n → -2 ^ 63 ≤ n ∧ n < 2 ^ 63
  maxBackups : ∀ n, l.maxBackups = some n → -2 ^ 63 ≤ n ∧ n < 2 ^ 63
  maxAgeDays : ∀ n, l.maxAgeDays = some n → -2 ^ 63 ≤ n ∧ n < 2 ^ 63

/-- The numbers are of the Go types. -/
structure App.Fits (a : App) : Prop where
  id : -2 ^ 63 ≤ a.id ∧ a.id < 2 ^ 63
  instances : -2 ^ 63 ≤ a.instances ∧ a.instances < 2 ^ 63
  maxRestarts : -2 ^ 63 ≤ a.maxRestarts ∧ a.maxRestarts < 2 ^ 63
  killTimeout : -2 ^ 63 ≤ a.killTimeout ∧ a.killTimeout < 2 ^ 63
  maxMemoryRestart : a.maxMemoryRestart < 2 ^ 64
  logs : ∀ l, a.logs = some l → l.Fits

theorem space_range {c : Char} (h : Errsig.unicodeSpace c = true) : c.toNat ≤ 32 ∨ 133 ≤ c.toNat := by
  simp only [Errsig.unicodeSpace, Bool.or_eq_true, decide_eq_true_eq, List.mem_cons, List.not_mem_nil,
    or_false] at h
  rcases h with h | h
  · rcases h with rfl | rfl | rfl | rfl | rfl | rfl | rfl | rfl | rfl | rfl | rfl | rfl | rfl | rfl <;> decide
  · have hlow : 8192 ≤ c.toNat := h.1
    exact .inr (Nat.le_trans (by decide) hlow)

theorem digit_plain {c : Char} (h : c.isDigit = true) :
    Errsig.unicodeSpace c = false ∧ c.toUpper = c := by
  simp only [Char.isDigit, Bool.and_eq_true, decide_eq_true_eq] at h
  refine ⟨?_, ?_⟩
  · have hlow : 48 ≤ c.toNat := h.1
    have hhigh : c.toNat ≤ 57 := h.2
    by_contra hspace
    have hrange := space_range (Bool.not_eq_false _ ▸ hspace)
    omega
  · unfold Char.toUpper
    rw [dif_neg]
    intro hlower
    exact absurd (UInt32.le_trans hlower.1 h.2) (by decide)

section Digits
variable {s : List Char} (hs : ∀ c ∈ s, c.isDigit = true)
include hs

theorem trimSpace_digits : Errsig.trimSpace s = s :=
  Trim.trim_eq_self ⟨fun c hc => (digit_plain (hs c (List.mem_of_mem_head? hc))).1,
    fun c hc => (digit_plain (hs c (List.mem_of_getLast? hc))).1⟩

theorem sizeUnit_digits : sizeUnit s = (1, s) := by
  have hsuffix : ∀ (l : List Char) (c : Char), c ∈ l → c.isDigit = false →
      l.isSuffixOf s = false := by
    intro l c hc hdigit
    rw [Bool.eq_false_iff]
    intro hsuffix
    rw [hs c ((List.isSuffixOf_iff_suffix.mp hsuffix).subset hc)] at hdigit
    cases hdigit
  unfold sizeUnit
  simp [List.find?, hsuffix _ 'G' _ rfl, hsuffix ['B'] 'B' _ rfl, hsuffix _ 'M' _ rfl,
    hsuffix _ 'K' _ rfl]

theorem toUpper_digits : s.map Char.toUpper = s := by
  conv_rhs => rw [← List.map_id s]
  apply List.map_congr_left
  intro c hc
  exact (digit_plain (hs c hc)).2

end Digits

theorem parseByteSize_digits {n : Nat} (h : n < 2 ^ 64) :
    parseByteSize (Nat.toDigits 10 n) = some n := by
  have hdigits := Decimal.isDigit_toDigits n
  have hsome := Decimal.toDigits_ne_nil n
  have hall : ¬ (Nat.toDigits 10 n = [] ∨ (Nat.toDigits 10 n).any (!·.isDigit) = true) := by
    rw [not_or, List.any_eq_true]
    refine ⟨hsome, ?_⟩
    intro hother
    obtain ⟨c, hc, hnot⟩ := hother
    rw [hdigits c hc] at hnot
    cases hnot
  unfold parseByteSize
  simp only [trimSpace_digits hdigits, toUpper_digits hdigits, sizeUnit_digits hdigits]
  rw [if_neg hsome, ParseUint, if_neg hall, Decimal.value_toDigits, if_pos h, Option.map_some,
    Nat.mul_one, Nat.mod_eq_of_lt h]

theorem unmarshalSize_num {n : Nat} (h : n < 2 ^ 64) : unmarshalSize (.num n) = some n := by
  show parseByteSize (toString n).toList = some n
  rw [Nat.toString_eq_repr, Nat.toList_repr]
  exact parseByteSize_digits h

theorem field_nonempty {ms : Members} {key s : String} (h : ms.lookup key = nonempty s) :
    field ms key "" string = some s := by
  refine field_optional h ?_ ?_
  · intro hnone
    by_contra hs
    rw [nonempty, if_neg hs] at hnone
    cases hnone
  · intro w hw
    simp only [nonempty, Option.ite_none_left_eq_some, Option.some.injEq] at hw
    rw [← hw.2]
    rfl

/-- A pointer field: left out if it is nil, else the value it points to. -/
theorem field_pointer {α : Type*} {ms : Members} {key : String} {x : Option α} {encode : α → Json}
    {decode : Json → Option α} (h : ms.lookup key = x.map encode)
    (hnull : ∀ y, encode y ≠ .null) (hdecode : ∀ y, x = some y → decode (encode y) = some y) :
    field ms key none (pointer decode) = some x := by
  refine field_optional h (fun hnone => by simpa using hnone) ?_
  intro w hw
  obtain ⟨y, rfl, rfl⟩ := Option.map_eq_some_iff.mp hw
  exact pointer_some (hnull y) (hdecode y rfl)

theorem LogRetention.decode_encode {l : LogRetention} (h : l.Fits) :
    LogRetention.UnmarshalJSON l.MarshalJSON = some l := by
  unfold MarshalJSON UnmarshalJSON
  simp only
  rw [field_pointer (x := l.maxSizeMB) (by simp [List.lookup_append]) (by simp)
      fun n hn => int64_num (h.maxSizeMB n hn),
    field_pointer (x := l.maxBackups) (by simp [List.lookup_append]) (by simp)
      fun n hn => int64_num (h.maxBackups n hn),
    field_pointer (x := l.maxAgeDays) (by simp [List.lookup_append]) (by simp)
      fun n hn => int64_num (h.maxAgeDays n hn),
    @field_pointer _ _ _ l.compress .bool _ (by simp [List.lookup_append]) (by simp) fun b _ => rfl]
  rfl

theorem GitSource.decode_encode (s : GitSource) : GitSource.UnmarshalJSON s.MarshalJSON = some s := by
  unfold MarshalJSON UnmarshalJSON
  simp only
  rw [field_some (x := s.repo) (v := .str s.repo) (by simp [List.lookup_append]) rfl,
    field_nonempty (s := s.ref) (by simp [List.lookup_append]),
    field_nonempty (s := s.build) (by simp [List.lookup_append]),
    field_nonempty (s := s.subdir) (by simp [List.lookup_append]),
    field_nonempty (s := s.credential) (by simp [List.lookup_append])]
  rfl

/-- The mode a text stands for; a mode is written by its text. -/
def App.restartRead (a : App) : App := { a with restart := .ofText a.restart.text }

theorem App.decode_encode {a : App} (h : a.Fits) :
    App.UnmarshalJSON a.MarshalJSON = some a.restartRead := by
  unfold MarshalJSON UnmarshalJSON
  simp only
  rw [field_optional (x := a.id) (v := if a.id = 0 then none else some (.num a.id))
      (by simp [members, List.lookup_append]) (by simp) (by simpa using fun _ => int64_num h.id),
    field_some (x := a.name) (v := .str a.name) (by simp [members, List.lookup_append]) rfl,
    field_some (x := a.cmd) (v := .str a.cmd) (by simp [members, List.lookup_append]) rfl,
    field_some (x := a.args) (v := .arr (a.args.map .str))
      (by simp [members, List.lookup_append]) (strings_arr a.args),
    field_some (x := a.cwd) (v := .str a.cwd) (by simp [members, List.lookup_append]) rfl,
    field_some (x := a.instances) (v := .num a.instances)
      (by simp [members, List.lookup_append]) (int64_num h.instances),
    field_some (x := a.env) (v := .obj (a.env.map fun m => (m.1, .str m.2)))
      (by simp [members, List.lookup_append]) (stringMap_obj a.env),
    field_some (x := a.restart.text) (v := .str a.restart.text)
      (by simp [members, List.lookup_append]) rfl,
    field_some (x := a.maxRestarts) (v := .num a.maxRestarts)
      (by simp [members, List.lookup_append]) (int64_num h.maxRestarts),
    field_some (x := a.killTimeout) (v := .str (Duration.text a.killTimeout))
      (by simp [members, List.lookup_append])
      (Duration.ParseDuration_text h.killTimeout.1 h.killTimeout.2),
    field_some (x := a.maxMemoryRestart) (v := .num a.maxMemoryRestart)
      (by simp [members, List.lookup_append]) (unmarshalSize_num h.maxMemoryRestart),
    @field_pointer _ _ _ a.logs LogRetention.MarshalJSON _ (by simp [members, List.lookup_append])
      (by simp [LogRetention.MarshalJSON]) fun l hl => LogRetention.decode_encode (h.logs l hl),
    @field_pointer _ _ _ a.source GitSource.MarshalJSON _ (by simp [members, List.lookup_append])
      (by simp [GitSource.MarshalJSON]) fun s _ => s.decode_encode]
  rfl

theorem ServerConfig.decode_encode (s : ServerConfig) :
    ServerConfig.UnmarshalJSON s.MarshalJSON = some s := by
  unfold MarshalJSON UnmarshalJSON
  simp only
  rw [field_some (x := s.address) (v := .str s.address) (by simp [List.lookup_append]) rfl,
    field_nonempty (s := s.name) (by simp [List.lookup_append]),
    field_nonempty (s := s.token) (by simp [List.lookup_append]),
    field_nonempty (s := s.fingerprint) (by simp [List.lookup_append]),
    field_nonempty (s := s.ca) (by simp [List.lookup_append])]
  rfl

end Marshal.Config

namespace Marshal
open Config

/-- The files of the state directory, as far as they are there. -/
structure Store where
  /-- `dump.json` -/
  dump : Option Json := none
  /-- `fleet.json` -/
  server : Option Json := none
  /-- `fleet-token` -/
  token : Option String := none

namespace Store

def Save (s : Store) (apps : List App) : Store :=
  { s with dump := some (.arr (apps.map App.MarshalJSON)) }

/-- The saved apps, none without a file. -/
def Load (s : Store) : Except String (List App) :=
  match s.dump with
  | none | some .null => .ok []
  | some (.arr items) => match items.mapM App.UnmarshalJSON with
    | some apps => .ok apps
    | none => .error "decode dump: %w"
  | some _ => .error "decode dump: %w"

theorem Load_Save (s : Store) {apps : List App} (h : ∀ a ∈ apps, a.Fits) :
    (s.Save apps).Load = .ok (apps.map App.restartRead) := by
  have hmap : (apps.map App.MarshalJSON).mapM App.UnmarshalJSON =
      some (apps.map App.restartRead) := by
    induction apps with
    | nil => rfl
    | cons a rest ih =>
      have hrest := ih fun b hb => h b (List.mem_cons_of_mem a hb)
      simp only [List.map_cons, List.mapM_cons, App.decode_encode (h a List.mem_cons_self), hrest]
      rfl
  simp only [Load, Save, hmap]

/-! ### The server record and the token -/

def SaveServer (s : Store) (sc : ServerConfig) : Store := { s with server := some sc.MarshalJSON }

/-- The server record, none without a file. -/
def LoadServer (s : Store) : Except String (Option ServerConfig) :=
  match s.server with
  | none => .ok none
  | some v => match ServerConfig.UnmarshalJSON v with
    | some sc => .ok (some sc)
    | none => .error "decode fleet config: %w"

def SaveFleetToken (s : Store) (token : String) : Store := { s with token := some token }

/-- The per-agent token without the blanks around it, empty without a file. -/
def LoadFleetToken (s : Store) : String :=
  match s.token with
  | none => ""
  | some t => String.ofList (trimSpace t.toList)

def removeServer (s : Store) : Store := { s with server := none }

def removeToken (s : Store) : Store := { s with token := none }

/-- One file after the other. -/
def ClearServer (s : Store) : Store := s.removeServer.removeToken

@[simp] theorem LoadServer_SaveServer (s : Store) (sc : ServerConfig) :
    (s.SaveServer sc).LoadServer = .ok (some sc) := by
  simp only [LoadServer, SaveServer, ServerConfig.decode_encode]

@[simp] theorem LoadServer_removeServer (s : Store) : s.removeServer.LoadServer = .ok none := rfl

@[simp] theorem LoadFleetToken_removeToken (s : Store) : s.removeToken.LoadFleetToken = "" := rfl

/-- A token without blanks is read as it was written. -/
theorem LoadFleetToken_SaveFleetToken (s : Store) {t : String}
    (h : ∀ c ∈ t.toList, c.isWhitespace = false) : (s.SaveFleetToken t).LoadFleetToken = t := by
  have hfront : t.toList.dropWhile Char.isWhitespace = t.toList := by
    cases hlist : t.toList with
    | nil => rfl
    | cons c rest => rw [List.dropWhile_cons, if_neg (by simp [h c (by simp [hlist])])]
  have hback : t.toList.reverse.dropWhile Char.isWhitespace = t.toList.reverse := by
    cases hlist : t.toList.reverse with
    | nil => rfl
    | cons c rest =>
      have hmem : c ∈ t.toList := List.mem_reverse.mp (by simp [hlist])
      rw [List.dropWhile_cons, if_neg (by simp [h c hmem])]
  simp [LoadFleetToken, SaveFleetToken, trimSpace, hfront, hback]

end Store
end Marshal
