import Marshal.Lib.JsonText
import Marshal.Lib.Rfc3339
import Marshal.Lib.Lines
import Marshal.Lib.Utf8
import Mathlib.Algebra.Group.Int.Defs
import Mathlib.Data.List.Induction

/-! The audit log: every login attempt on a line of its own.

The log is appended to, and is put aside as its companion when it has grown to a limit; both
are read back line by line. The writer's lines have no bound and the reader's buffer has, so the
log is read back whole exactly as long as no line outgrows the buffer (`readable_iff`). -/
namespace Marshal.Audit
open JsonText (Value)
open Rfc3339 (Time)

/-! ### Events and their lines -/

def OutcomeSuccess : String := "success"
def OutcomeInvalid : String := "invalid_credentials"
def OutcomeRateLimited : String := "rate_limited"

structure Event where
  time : Time
  user : String
  ip : String
  outcome : String
  deriving DecidableEq

/-- The JSON of an event; there is none if its time has no text. -/
def Event.json (ev : Event) : Option (List Char) := do
  let time ← ev.time.format
  return JsonText.object
    [("time".toList, time), ("user".toList, JsonText.escape ev.user.toList),
      ("ip".toList, JsonText.escape ev.ip.toList), ("outcome".toList, JsonText.escape ev.outcome.toList)]

def zeroTime : Time where
  year := 1
  month := 1
  day := 1
  hour := 0
  minute := 0
  second := 0
  nanosecond := 0
  offset := 0
  month_valid := by decide
  day_valid := by decide
  clock_valid := by decide

def zeroEvent : Event := { time := zeroTime, user := "", ip := "", outcome := "" }

/-- Keys are compared without regard to case: two characters beyond ASCII have an ASCII letter
for their other case. -/
def foldRune (c : Char) : Char :=
  if 'A' ≤ c ∧ c ≤ 'Z' then Char.ofNat (c.toNat + 32)
  else if c = '\u017f' then 's'
  else if c = '\u212a' then 'k'
  else c

def named (name : String) (key : List Char) : Bool := key.map foldRune == name.toList

/-- A null leaves what was there. -/
def timeField (old : Time) : Value → Option Time
  | .null => some old
  | .str raw => Rfc3339.parse raw
  | _ => none

def stringField (old : String) : Value → Option String
  | .null => some old
  | .str raw => some (String.ofList (JsonText.unquote raw))
  | _ => none

/-- A member with the name of no field is left out. -/
def Event.set (ev : Event) (m : List Char × Value) : Option Event :=
  let key := JsonText.unquote m.1
  if named "time" key then (timeField ev.time m.2).map fun v => { ev with time := v }
  else if named "user" key then (stringField ev.user m.2).map fun v => { ev with user := v }
  else if named "ip" key then (stringField ev.ip m.2).map fun v => { ev with ip := v }
  else if named "outcome" key then (stringField ev.outcome m.2).map fun v => { ev with outcome := v }
  else some ev

def unmarshal (line : List Char) : Option Event :=
  match JsonText.read line with
  | some .null => some zeroEvent
  | some (.obj members) => members.foldlM Event.set zeroEvent
  | _ => none

/-! ### The log -/

def DefaultMaxBytes : Int := 5 * 2 ^ 20

structure Log where
  maxBytes : Int

def New (maxBytes : Int) : Log := { maxBytes := if maxBytes ≤ 0 then DefaultMaxBytes else maxBytes }

/-- The file at the log's path and its companion (`path.1`), where they are there. -/
structure Files where
  current : Option (List UInt8)
  rotated : Option (List UInt8)

/-- The log becomes its companion when it has grown to the limit. -/
def Log.rotate (l : Log) (d : Files) : Files :=
  match d.current with
  | some bs => if l.maxBytes ≤ bs.length then { current := none, rotated := some bs } else d
  | none => d

def Record : Option Log → Event → Files → Files
  | none, _, d => d
  | some l, ev, d => match ev.json with
    | none => d
    | some text =>
      let d := l.rotate d
      { d with current := some (d.current.getD [] ++ (Utf8.encode text ++ [10])) }

structure ReadOptions where
  Limit : Int
  FailuresOnly : Bool

/-- The scanner's buffer. -/
def maxLine : Nat := 2 ^ 20

def readFile : Option (List UInt8) → Option (List Event)
  | none => some []
  | some bs =>
    let (lines, tooLong) := Scanner.scan maxLine bs
    if tooLong then none
    else some (lines.filterMap fun line => if line = [] then none else unmarshal (Utf8.lossy line))

def Read (d : Files) (opts : ReadOptions) : Option (List Event) := do
  let rotated ← readFile d.rotated
  let current ← readFile d.current
  let out := rotated ++ current
  let out := if opts.FailuresOnly then out.filter fun e => e.outcome ≠ OutcomeSuccess else out
  return if 0 < opts.Limit ∧ opts.Limit < out.length then out.drop (out.length - opts.Limit.toNat) else out

/-! ### A line is read back -/

/-- The line of an event, without its newline. -/
def Event.line (ev : Event) : List UInt8 := Utf8.encode (ev.json.getD [])

theorem literal_escape (s : String) : JsonText.Literal (JsonText.escape s.toList) :=
  JsonText.literal_escape s.toList

theorem literal_time {t : Time} {s : List Char} (h : t.format = some s) : JsonText.Literal s := by
  refine JsonText.literal_plain fun c hc => ?_
  rcases Rfc3339.plain_format h c hc with hdigit | hmark
  · have hrange := Char.isDigit_iff_toNat.mp hdigit
    refine ⟨?_, ?_, Nat.le_trans (by decide) hrange.1⟩
    · intro heq
      exact absurd (heq ▸ hdigit) (by decide)
    · intro heq
      exact absurd (heq ▸ hdigit) (by decide)
  · simp only [List.mem_cons, List.not_mem_nil, or_false] at hmark
    rcases hmark with rfl | rfl | rfl | rfl | rfl | rfl <;> decide

theorem set_time (ev : Event) (v : Value) :
    ev.set ("time".toList, v) = (timeField ev.time v).map fun t => { ev with time := t } := rfl

theorem set_user (ev : Event) (v : Value) :
    ev.set ("user".toList, v) = (stringField ev.user v).map fun s => { ev with user := s } := rfl

theorem set_ip (ev : Event) (v : Value) :
    ev.set ("ip".toList, v) = (stringField ev.ip v).map fun s => { ev with ip := s } := rfl

theorem set_outcome (ev : Event) (v : Value) :
    ev.set ("outcome".toList, v) = (stringField ev.outcome v).map fun s => { ev with outcome := s } := rfl

theorem stringField_escape (old s : String) :
    stringField old (.str (JsonText.escape s.toList)) = some s := by
  rw [stringField, JsonText.unquote_escape, String.ofList_toList]

theorem unmarshal_json {ev : Event} {text : List Char} (h : ev.json = some text) :
    unmarshal text = some ev := by
  obtain ⟨time, htime, hobject⟩ := Option.bind_eq_some_iff.mp h
  cases hobject
  have hread := Rfc3339.parse_format htime
  have hkey : ∀ key ∈ ["time", "user", "ip", "outcome"], JsonText.Literal key.toList := by
    intro key hkey
    refine JsonText.literal_plain ?_
    revert key
    decide
  rw [unmarshal, JsonText.read_object]
  · simp only [List.map_cons, List.map_nil, List.foldlM_cons, List.foldlM_nil, set_time, set_user, set_ip,
      set_outcome, timeField, stringField_escape, hread, Option.map_some, Option.bind_eq_bind, Option.bind_some,
      Option.pure_def]
  · simp only [List.forall_mem_cons]
    exact ⟨⟨hkey _ (by decide), literal_time htime⟩, ⟨hkey _ (by decide), literal_escape _⟩,
      ⟨hkey _ (by decide), literal_escape _⟩, ⟨hkey _ (by decide), literal_escape _⟩,
      fun m hm => absurd hm List.not_mem_nil⟩

theorem printable_time {t : Time} {s : List Char} (h : t.format = some s) : JsonText.Printable s := by
  intro c hc
  rcases Rfc3339.plain_format h c hc with hdigit | hmark
  · exact Nat.le_trans (by decide) (Char.isDigit_iff_toNat.mp hdigit).1
  · simp only [List.mem_cons, List.not_mem_nil, or_false] at hmark
    rcases hmark with rfl | rfl | rfl | rfl | rfl | rfl <;> decide

/-- The JSON of an event is one line that ends with its brace. -/
theorem json_line {ev : Event} {text : List Char} (h : ev.json = some text) :
    JsonText.Printable text ∧ ∃ s, text = s ++ ['}'] := by
  obtain ⟨time, htime, hobject⟩ := Option.bind_eq_some_iff.mp h
  cases hobject
  have hkey : ∀ key ∈ ["time", "user", "ip", "outcome"], JsonText.Printable key.toList := by decide
  refine ⟨JsonText.printable_object ?_, JsonText.object_end _⟩
  simp only [List.forall_mem_cons]
  exact ⟨⟨hkey _ (by decide), printable_time htime⟩, ⟨hkey _ (by decide), JsonText.printable_escape _⟩,
    ⟨hkey _ (by decide), JsonText.printable_escape _⟩, ⟨hkey _ (by decide), JsonText.printable_escape _⟩,
    fun m hm => absurd hm List.not_mem_nil⟩

/-! ### The events in a file -/

/-- An event that can be written. -/
def Event.Written (ev : Event) : Prop := ev.json.isSome

instance (ev : Event) : Decidable ev.Written := inferInstanceAs (Decidable (ev.json.isSome = true))

/-- The line with its newline fits the reader's buffer. -/
def Event.Fits (ev : Event) : Prop := (ev.line ++ [10]).length ≤ maxLine

instance (ev : Event) : Decidable ev.Fits := inferInstanceAs (Decidable (_ ≤ _))

/-- The file that holds the lines of the events. -/
def fileOf (evs : List Event) : List UInt8 := Lines.joined 10 (evs.map Event.line)

theorem line_spec {ev : Event} (h : ev.Written) : 10 ∉ ev.line ∧ ev.line.getLast? ≠ some 13 ∧
    ev.line ≠ [] ∧ unmarshal (Utf8.lossy ev.line) = some ev := by
  obtain ⟨text, htext⟩ := Option.isSome_iff_exists.mp h
  obtain ⟨hprint, s, hend⟩ := json_line htext
  have hline : ev.line = Utf8.encode text := by rw [Event.line, htext, Option.getD_some]
  have hlast : Utf8.encode text = Utf8.encode s ++ [125] := by
    rw [hend, Utf8.encode, List.flatMap_append]
    rfl
  refine ⟨?_, ?_, ?_, ?_⟩
  · rw [hline]
    intro hmem
    obtain ⟨c, hc, hnewline⟩ := Utf8.mem_encode (by decide) hmem
    have hcontrol := hprint c hc
    rw [hnewline] at hcontrol
    exact absurd hcontrol (by decide)
  · rw [hline, hlast, List.getLast?_concat]
    decide
  · rw [hline, hlast]
    exact List.concat_ne_nil _ _
  · rw [hline, Utf8.lossy_encode, unmarshal_json htext]

theorem fits_iff (ev : Event) : ev.Fits ↔ ev.line.length < maxLine := by
  rw [Event.Fits, List.length_append, List.length_singleton]
  exact Nat.succ_le_iff

theorem filterMap_lines {evs : List Event} (h : ∀ ev ∈ evs, ev.Written) :
    ((evs.map Event.line).filterMap fun l => if l = [] then none else unmarshal (Utf8.lossy l)) = evs := by
  rw [List.filterMap_map]
  conv_rhs => rw [← List.filterMap_some (l := evs)]
  refine List.filterMap_congr fun ev hev => ?_
  obtain ⟨-, -, hne, hread⟩ := line_spec (h ev hev)
  rw [Function.comp_apply, if_neg hne, hread]

/-- A file of events is read back whole, unless a line does not fit. -/
theorem readFile_fileOf {evs : List Event} (h : ∀ ev ∈ evs, ev.Written) :
    readFile (some (fileOf evs)) = if ∀ ev ∈ evs, ev.Fits then some evs else none := by
  have hscan := Scanner.scan_joined maxLine (evs.map Event.line)
    (List.forall_mem_map.mpr fun ev hev => (line_spec (h ev hev)).1)
    (List.forall_mem_map.mpr fun ev hev => (line_spec (h ev hev)).2.1)
  simp only [readFile, fileOf, hscan]
  by_cases hfit : ∀ ev ∈ evs, ev.Fits
  · have hshort : ∀ l ∈ evs.map Event.line, l.length < maxLine :=
      List.forall_mem_map.mpr fun ev hev => (fits_iff ev).mp (hfit ev hev)
    have hnone : (evs.map Event.line).any (fun l => maxLine ≤ l.length) = false :=
      List.any_eq_false.mpr fun l hl => by simpa using hshort l hl
    have hall : ((evs.map Event.line).takeWhile fun l => l.length < maxLine) = evs.map Event.line :=
      List.takeWhile_eq_self_iff.mpr fun l hl => decide_eq_true (hshort l hl)
    rw [if_pos hfit, hnone, if_neg Bool.false_ne_true, hall, filterMap_lines h]
  · have hlong : (evs.map Event.line).any (fun l => maxLine ≤ l.length) = true := by
      simp only [not_forall] at hfit
      obtain ⟨ev, hev, hnot⟩ := hfit
      refine List.any_eq_true.mpr ⟨ev.line, List.mem_map_of_mem hev, ?_⟩
      exact decide_eq_true (Nat.le_of_not_lt fun hlt => hnot ((fits_iff ev).mpr hlt))
    rw [if_neg hfit, hlong, if_pos rfl]

/-! ### The events held -/

/-- The events whose lines the log and its companion hold. -/
structure Trail where
  rotated : List Event
  current : List Event

def Trail.events (t : Trail) : List Event := t.rotated ++ t.current

/-- The files hold the lines of these events, and nothing else. -/
structure Trail.Holds (t : Trail) (d : Files) : Prop where
  rotated : d.rotated.getD [] = fileOf t.rotated
  current : d.current.getD [] = fileOf t.current
  written : ∀ ev ∈ t.events, ev.Written

theorem readFile_getD (file : Option (List UInt8)) : readFile file = readFile (some (file.getD [])) := by
  cases file with
  | none => rfl
  | some bs => rfl

theorem read_holds {t : Trail} {d : Files} (h : t.Holds d) :
    Read d { Limit := 0, FailuresOnly := false } = if ∀ ev ∈ t.events, ev.Fits then some t.events else none := by
  have hwritten := h.written
  rw [Trail.events, List.forall_mem_append] at hwritten
  have hrotated : readFile d.rotated = if ∀ ev ∈ t.rotated, ev.Fits then some t.rotated else none := by
    rw [readFile_getD, h.rotated, readFile_fileOf hwritten.1]
  have hcurrent : readFile d.current = if ∀ ev ∈ t.current, ev.Fits then some t.current else none := by
    rw [readFile_getD, h.current, readFile_fileOf hwritten.2]
  simp only [Read, hrotated, hcurrent, Trail.events, List.forall_mem_append]
  by_cases hr : ∀ ev ∈ t.rotated, ev.Fits
  · by_cases hc : ∀ ev ∈ t.current, ev.Fits
    · rw [if_pos hr, if_pos hc, if_pos ⟨hr, hc⟩]
      simp
    · simp [hc]
  · simp [hr]

/-! ### A run of the log -/

/-- A log that is put aside: its events are those of the companion now. -/
def Trail.record (rotates : Bool) (t : Trail) (ev : Event) : Trail :=
  if rotates then { rotated := t.current, current := [ev] } else { t with current := t.current ++ [ev] }

theorem fileOf_concat (evs : List Event) (ev : Event) : fileOf (evs ++ [ev]) = fileOf evs ++ (ev.line ++ [10]) := by
  rw [fileOf, List.map_append, Lines.joined_append]
  simp [fileOf]

/-- The events held end with the one just recorded; what stands before it was held already. -/
theorem record_events (rotates : Bool) (t : Trail) (ev : Event) :
    ∃ evs, (t.record rotates ev).events = evs ++ [ev] ∧ evs <:+ t.events := by
  cases rotates with
  | true => exact ⟨t.current, rfl, List.suffix_append t.rotated t.current⟩
  | false => exact ⟨t.events, (List.append_assoc ..).symm, List.suffix_rfl⟩

/-- An event goes to the end of the log, put aside before or not. -/
theorem record_holds {t : Trail} {d : Files} (h : t.Holds d) (l : Log) {ev : Event} (hev : ev.Written) :
    ∃ rotates, (t.record rotates ev).Holds (Record (some l) ev d) := by
  obtain ⟨text, htext⟩ := Option.isSome_iff_exists.mp hev
  have hline : Utf8.encode text = ev.line := by rw [Event.line, htext, Option.getD_some]
  have hwritten : ∀ rotates, ∀ ev' ∈ (t.record rotates ev).events, ev'.Written := by
    intro rotates ev' hev'
    obtain ⟨evs, hevents, hsuffix⟩ := record_events rotates t ev
    rw [hevents, List.mem_append, List.mem_singleton] at hev'
    rcases hev' with hold | rfl
    · exact h.written ev' (hsuffix.subset hold)
    · exact hev
  have hkept : (t.record false ev).Holds { d with current := some (d.current.getD [] ++ (ev.line ++ [10])) } :=
    { rotated := h.rotated
      current := by rw [Trail.record, if_neg Bool.false_ne_true, fileOf_concat, Option.getD_some, h.current]
      written := hwritten false }
  have hrotated : ∀ bs, d.current = some bs →
      (t.record true ev).Holds { current := some (ev.line ++ [10]), rotated := some bs } := by
    intro bs hbs
    have hcurrent := h.current
    rw [hbs] at hcurrent
    exact
      { rotated := hcurrent
        current := (fileOf_concat [] ev).symm
        written := hwritten true }
  simp only [Record, htext, hline, Log.rotate]
  cases hfile : d.current with
  | none => exact ⟨false, by simpa [hfile] using hkept⟩
  | some bs =>
    by_cases hfull : l.maxBytes ≤ bs.length
    · exact ⟨true, by simpa [hfull] using hrotated bs hfile⟩
    · exact ⟨false, by simpa [hfull, hfile] using hkept⟩

/-- Each event with the limit of the log that records it. -/
abbrev Steps := List (Int × Event)

def run (steps : Steps) : Files :=
  steps.foldl (fun d step => Record (some (New step.1)) step.2 d) { current := none, rotated := none }

/-- The events of a run that could be written. -/
def recorded (steps : Steps) : List Event := (steps.map Prod.snd).filter fun ev => ev.Written

theorem run_concat (steps : Steps) (step : Int × Event) :
    run (steps ++ [step]) = Record (some (New step.1)) step.2 (run steps) := by
  rw [run, List.foldl_append]
  rfl

theorem recorded_concat (steps : Steps) (step : Int × Event) :
    recorded (steps ++ [step]) = recorded steps ++ if step.2.Written then [step.2] else [] := by
  rw [recorded, List.map_append, List.filter_append]
  by_cases h : step.2.Written <;> simp [recorded, h]

theorem Record_unwritten {ev : Event} (h : ¬ ev.Written) (l : Log) (d : Files) : Record (some l) ev d = d := by
  rw [Event.Written, Option.not_isSome_iff_eq_none] at h
  simp only [Record, h]

/-- The files hold the last of the recorded events, and the very last is among them. -/
theorem run_holds (steps : Steps) : ∃ t : Trail, t.Holds (run steps) ∧ t.events <:+ recorded steps ∧
    ∀ ev, (recorded steps).getLast? = some ev → ev ∈ t.events := by
  induction steps using List.reverseRecOn with
  | nil =>
    have hholds : Trail.Holds { rotated := [], current := [] } (run []) :=
      { rotated := rfl, current := rfl, written := fun ev hev => absurd hev List.not_mem_nil }
    exact ⟨_, hholds, List.suffix_rfl, fun ev hev => absurd hev (by simp [recorded])⟩
  | append_singleton steps step ih =>
    obtain ⟨t, hholds, hsuffix, hlast⟩ := ih
    rw [run_concat, recorded_concat]
    by_cases hev : step.2.Written
    · obtain ⟨rotates, hrecord⟩ := record_holds hholds (New step.1) hev
      obtain ⟨evs, hevents, hevs⟩ := record_events rotates t step.2
      refine ⟨t.record rotates step.2, hrecord, ?_, ?_⟩
      · obtain ⟨before, hbefore⟩ := hevs.trans hsuffix
        rw [if_pos hev, hevents]
        exact ⟨before, by rw [← List.append_assoc, hbefore]⟩
      · intro ev hmem
        rw [if_pos hev, List.getLast?_concat] at hmem
        cases hmem
        simp [hevents]
    · rw [Record_unwritten hev, if_neg hev, List.append_nil]
      exact ⟨t, hholds, hsuffix, hlast⟩

/-! ### When the log stays readable -/

/-- The log is read, and what is read ends the recorded events and has all that the files hold. -/
def Readable (d : Files) (events : List Event) : Prop :=
  ∃ out t, Read d { Limit := 0, FailuresOnly := false } = some out ∧ out <:+ events ∧
    Trail.Holds t d ∧ t.events <:+ out

/-- A run leaves a log that is read exactly if every line it holds fits. -/
theorem run_readable_iff (steps : Steps) : ∃ t : Trail, t.Holds (run steps) ∧ t.events <:+ recorded steps ∧
    (∀ ev, (recorded steps).getLast? = some ev → ev ∈ t.events) ∧
    (Readable (run steps) (recorded steps) ↔ ∀ ev ∈ t.events, ev.Fits) := by
  obtain ⟨t, hholds, hsuffix, hlast⟩ := run_holds steps
  refine ⟨t, hholds, hsuffix, hlast, ?_⟩
  have hread := read_holds hholds
  constructor
  · intro h
    obtain ⟨out, -, hout, -⟩ := h
    by_contra hfit
    rw [hread, if_neg hfit] at hout
    cases hout
  · intro hfit
    rw [if_pos hfit] at hread
    exact ⟨t.events, t, hread, hsuffix, hholds, List.suffix_rfl⟩

/-- Every recorded event was the last one at some time. -/
theorem recorded_last {steps : Steps} {ev : Event} (h : ev ∈ recorded steps) :
    ∃ n, (recorded (steps.take n)).getLast? = some ev := by
  obtain ⟨hmem, hwritten⟩ := List.mem_filter.mp h
  obtain ⟨step, hstep, rfl⟩ := List.mem_map.mp hmem
  obtain ⟨before, after, rfl⟩ := List.append_of_mem hstep
  have htake : (before ++ step :: after).take (before.length + 1) = before ++ [step] := by
    rw [List.take_length_add_append]
    rfl
  refine ⟨before.length + 1, ?_⟩
  rw [htake, recorded_concat, if_pos (of_decide_eq_true hwritten), List.getLast?_concat]

/-- **The log is readable after every step of a run exactly if the line of every recorded event
fits the reader's buffer with its newline.** -/
theorem readable_iff (steps : Steps) :
    (∀ n, Readable (run (steps.take n)) (recorded (steps.take n))) ↔ ∀ ev ∈ recorded steps, ev.Fits := by
  constructor
  · intro h ev hev
    obtain ⟨n, hn⟩ := recorded_last hev
    obtain ⟨t, -, -, hlast, hiff⟩ := run_readable_iff (steps.take n)
    exact hiff.mp (h n) ev (hlast ev hn)
  · intro h n
    obtain ⟨t, -, hsuffix, -, hiff⟩ := run_readable_iff (steps.take n)
    have hsub := ((List.take_sublist n steps).map Prod.snd).filter fun ev => decide ev.Written
    exact hiff.mpr fun ev hev => h ev (hsub.subset (hsuffix.subset hev))

/-- A line is as long as the name in it. -/
theorem length_le_line {ev : Event} (h : ev.Written) : ev.user.length ≤ ev.line.length := by
  obtain ⟨text, htext⟩ := Option.isSome_iff_exists.mp h
  have hline : ev.line = Utf8.encode text := by rw [Event.line, htext, Option.getD_some]
  obtain ⟨time, -, hobject⟩ := Option.bind_eq_some_iff.mp htext
  have hescape : (JsonText.escape ev.user.toList).length ≤ text.length := by
    cases hobject
    simp only [JsonText.object, JsonText.member, List.flatMap_cons, List.length_append, List.length_cons]
    omega
  calc ev.user.length = ev.user.toList.length := String.length_toList.symm
    _ ≤ (JsonText.escape ev.user.toList).length := JsonText.length_le_escape _
    _ ≤ text.length := hescape
    _ ≤ ev.line.length := hline ▸ Utf8.length_le_encode text

/-! A login with a name of a megabyte. -/

def noon : Time where
  year := 2026
  month := 6
  day := 24
  hour := 12
  minute := 0
  second := 0
  nanosecond := 0
  offset := 0
  month_valid := by decide
  day_valid := by decide
  clock_valid := by decide

def login (user : String) : Event := { time := noon, user, ip := "203.0.113.9", outcome := OutcomeInvalid }

example : Utf8.lossy (login "a<b\n").line =
    ("\x7b\"time\":\"2026-06-24T12:00:00Z\",\"user\":\"a\\u003cb\\n\",\"ip\":\"203.0.113.9\"," ++
      "\"outcome\":\"invalid_credentials\"\x7d").toList := by decide +kernel

theorem login_written (user : String) : (login user).Written := by
  have htime : noon.format = some "2026-06-24T12:00:00Z".toList := by decide +kernel
  have hlogin : (login user).time.format = noon.format := rfl
  rw [Event.Written, Event.json, hlogin, htime]
  rfl

theorem login_unreadable : ¬ Readable
    (run [(0, login (String.ofList (List.replicate (2 ^ 20) 'a')))])
    (recorded [(0, login (String.ofList (List.replicate (2 ^ 20) 'a')))]) := by
  generalize huser : String.ofList (List.replicate (2 ^ 20) 'a') = user
  have hlength : user.length = maxLine := by
    rw [← huser, String.length_ofList, List.length_replicate, maxLine]
  have hrecorded : recorded [(0, login user)] = [login user] := by
    simp [recorded, login_written]
  obtain ⟨t, -, -, hlast, hiff⟩ := run_readable_iff [(0, login user)]
  intro hreadable
  have hfits := hiff.mp hreadable (login user) (hlast _ (by rw [hrecorded]; rfl))
  rw [fits_iff] at hfits
  have hline := length_le_line (login_written user)
  exact absurd (hlength ▸ Nat.lt_of_le_of_lt hline hfits) (Nat.lt_irrefl _)

end Marshal.Audit
