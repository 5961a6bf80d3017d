import Marshal.Fleet.Shipping
import Marshal.Logs

/-! Log shipping on one live connection.

A tick reads the sinks' rings one by one, in the order of the map, and then sends what
is newer than the watermark; lines are emitted and batches stored in between. The last
three fields of the state are history: nothing the code does depends on them. -/
namespace Marshal.Fleet
open Proto Server Logs

/-! ### State -/

/-- A ring line as `logsSince` puts it on the wire. -/
def shipLine (ln : LabeledLine) : LogShipLine := ⟨ln.ts / 1000000, ln.label, ln.stderr, ln.text⟩

/-- The wire form of an emitted line. -/
def lineOf (label : String) (ln : Line) : LogShipLine := ⟨ln.unixMilli, label, ln.stderr, ln.text⟩

/-- The lines of a list past a timestamp. -/
def past (ms : Int) (ls : List LogShipLine) : List LogShipLine := ls.filter fun l => decide (ms < l.tsMs)

/-- The lines of a list from one sink. -/
def ofSink (label : String) (ls : List LogShipLine) : List LogShipLine := ls.filter fun l => decide (l.label = label)

/-- A `RingSince` under way: the rings still to be read, and what was found. -/
structure Reading where
  pending : List String
  out : List LabeledLine := []
deriving DecidableEq

structure LogShipping where
  agent : String
  reg : Logs.Registry := {}
  /-- The latest reading of the clock. -/
  clock : Int := 0
  /-- The watermark the connection started from. -/
  start : Int := 0
  logWM : Int := 0
  reading : Option Reading := none
  sent : List (List LogShipLine) := []
  /-- How many of them the server has received. -/
  delivered : Nat := 0
  data : DataDir := {}
  /-- Every line emitted. -/
  emitted : List LogShipLine := []
  /-- Those past the start whose ring has not been read since. -/
  unread : List LogShipLine := []
  /-- Those not past the watermark when their ring was first read. -/
  late : List LogShipLine := []

namespace LogShipping

/-- The server's lines for the agent. -/
def stored (s : LogShipping) : List LogStore.Line := s.data.logLines s.agent

/-- The sinks a running tick has yet to read. -/
def pending (s : LogShipping) : List String := match s.reading with
  | none => []
  | some r => r.pending

/-- What a running tick has found. -/
def collected (s : LogShipping) : List LogShipLine := match s.reading with
  | none => []
  | some r => r.out.map shipLine

end LogShipping

/-! ### Steps -/

inductive LogAct where
  /-- An instance emits a line, on a clock that does not go back. -/
  | emit (label : String) (ln : Line)
  /-- A tick starts: the map of sinks is snapshot, in some order. -/
  | begin (order : List String)
  /-- The next ring is read. -/
  | read
  /-- `pushLogs` sends what was read. -/
  | finish
  /-- The server receives the next batch. -/
  | deliver (o : Opening) (appends : Bool)

namespace LogShipping

def emitLine (s : LogShipping) (label : String) (ln : Line) : LogShipping :=
  { s with
    reg := s.reg.emit label ln
    clock := ln.ts
    emitted := s.emitted ++ [lineOf label ln]
    unread := s.unread ++ past s.start [lineOf label ln] }

/-- Read the ring of `label`; `rest` is left, and `out` was found before. -/
def readRing (s : LogShipping) (label : String) (rest : List String) (out : List LabeledLine) : LogShipping :=
  { s with
    reading := some ⟨rest, out ++ newer s.logWM label ((s.reg.sinkFor label).backfill 0)⟩
    unread := s.unread.filter fun l => !decide (l.label = label)
    late := s.late ++ (ofSink label s.unread).filter fun l => !decide (s.logWM < l.tsMs) }

end LogShipping

def LogShipping.step (s : LogShipping) : LogAct → Option LogShipping
  | .emit label ln =>
    if s.clock ≤ ln.ts then some (s.emitLine label ln) else none
  | .begin order => match s.reading with
    | some _ => none
    | none => if order.Perm s.reg.sinks.keys then some { s with reading := some { pending := order } } else none
  | .read => match s.reading with
    | some ⟨label :: rest, out⟩ => some (s.readRing label rest out)
    | _ => none
  | .finish => match s.reading with
    | some ⟨[], out⟩ => match pushLogs ((merged out).map shipLine) true s.logWM with
      | none => none
      | some (batches, w) => some { s with reading := none, logWM := w, sent := s.sent ++ batches }
    | _ => none
  | .deliver o appends => match s.sent[s.delivered]? with
    | none => none
    | some batch => some { s with
        data := s.data.storeLogBatch s.agent batch o appends
        delivered := s.delivered + 1 }

/-- A connection just acknowledged: whatever the server stored and answered before. -/
def logSystem : Transition.System LogShipping LogAct where
  init s := s.reg.sinks = ∅ ∧ s.logWM = s.start ∧ s.reading = none ∧ s.sent = [] ∧ s.delivered = 0 ∧
    s.emitted = [] ∧ s.unread = [] ∧ s.late = []
  step := LogShipping.step

/-! ### What a step does -/

namespace LogShipping
variable {s t : LogShipping}

theorem step_emit {label : String} {ln : Line} (h : s.step (.emit label ln) = some t) :
    s.clock ≤ ln.ts ∧ t = s.emitLine label ln := by
  simp only [step] at h
  split at h
  · next hclock => exact ⟨hclock, (Option.some.inj h).symm⟩
  · cases h

theorem step_begin {order : List String} (h : s.step (.begin order) = some t) :
    s.reading = none ∧ order.Perm s.reg.sinks.keys ∧ t = { s with reading := some { pending := order } } := by
  simp only [step] at h
  split at h
  · cases h
  · next hnone =>
    split at h
    · next hperm => exact ⟨hnone, hperm, (Option.some.inj h).symm⟩
    · cases h

theorem step_read (h : s.step .read = some t) :
    ∃ label rest out, s.reading = some ⟨label :: rest, out⟩ ∧ t = s.readRing label rest out := by
  simp only [step] at h
  split at h
  · next label rest out hreading => exact ⟨label, rest, out, hreading, (Option.some.inj h).symm⟩
  · cases h

/-- What was read goes out, and nothing of it is past the watermark it moves to. -/
theorem step_finish (h : s.step .finish = some t) : ∃ out batches w, s.reading = some ⟨[], out⟩ ∧
    batches.flatten.Perm (out.map shipLine) ∧ s.logWM ≤ w ∧ (∀ l ∈ out.map shipLine, l.tsMs ≤ w) ∧
    t = { s with reading := none, logWM := w, sent := s.sent ++ batches } := by
  simp only [step] at h
  split at h
  · next out hreading =>
    obtain ⟨batches, w, hpush, hflat, hw, hle⟩ := push_sent LogShipLine.tsMs ((merged out).map shipLine) s.logWM
    have hperm : ((merged out).map shipLine).Perm (out.map shipLine) := (List.mergeSort_perm out _).map _
    rw [pushLogs, hpush] at h
    refine ⟨out, batches, w, hreading, hflat ▸ hperm, hw, fun l hl => hle l (hperm.mem_iff.mpr hl), ?_⟩
    exact (Option.some.inj h).symm
  · cases h

theorem step_deliver {o : Opening} {appends : Bool} (h : s.step (.deliver o appends) = some t) :
    ∃ batch, s.sent[s.delivered]? = some batch ∧ t = { s with
      data := s.data.storeLogBatch s.agent batch o appends
      delivered := s.delivered + 1 } := by
  simp only [step] at h
  split at h
  · cases h
  · next batch hbatch => exact ⟨batch, hbatch, (Option.some.inj h).symm⟩

end LogShipping

end Marshal.Fleet
