import Marshal.Lib.RingBuffer
import Marshal.Lib.Table
import Marshal.Memguard

/-! The agent's captured output: one sink per instance, keyed by `app#instance`.

`RingSince` snapshots the map of sinks and then reads one ring after another, so lines
may arrive between two of its reads; `newer` is one read and `merged` what follows them.
The rotated files and the live followers are left out.

The registry keeps one policy for each app it was told of, by name, and one for all others; a sink
is created with the policy of its label's app. -/
namespace Marshal.Logs

/-- About 1000 lines per instance are kept in memory. -/
def ringCap : Nat := 1000

/-- One captured line; `ts` is in nanoseconds. -/
structure Line where
  ts : Int
  stderr : Bool
  text : String
deriving DecidableEq, Inhabited

/-- `Ts.UnixMilli()`. -/
def Line.unixMilli (ln : Line) : Int := ln.ts / 1000000

/-- One instance's sink: its ring. -/
abbrev Sink := RingBuffer Line ringCap

def newSink : Sink := RingBuffer.new (by decide)

def Sink.emit (s : Sink) (ln : Line) : Sink := RingBuffer.add s ln

/-- The last `n` captured lines, in order; all for 0. -/
def Sink.backfill (s : Sink) (n : Nat) : List Line := RingBuffer.last s n

structure Registry where
  sinks : Table String Sink := ∅

namespace Registry

/-- The sink for a label, created on first use. -/
def sinkFor (r : Registry) (label : String) : Sink := (r.sinks.get label).getD newSink

/-- An instance's writer emits a line. -/
def emit (r : Registry) (label : String) (ln : Line) : Registry :=
  ⟨r.sinks.set label ((r.sinkFor label).emit ln)⟩

theorem sinkFor_emit (r : Registry) (label label' : String) (ln : Line) :
    (r.emit label ln).sinkFor label' = if label' = label then (r.sinkFor label).emit ln else r.sinkFor label' := by
  simp only [sinkFor, emit, Table.get_set]
  split <;> rfl

/-- A label without a sink has no lines. -/
theorem sinkFor_of_notMem (r : Registry) {label : String} (h : label ∉ r.sinks.keys) :
    (r.sinkFor label).backfill 0 = [] := by
  have hnone : r.sinks.get label = none := AList.lookup_eq_none.mpr h
  simp [sinkFor, hnone, newSink, Sink.backfill]

end Registry

/-! ### `RingSince` -/

/-- One ring line tagged with its instance label. -/
structure LabeledLine where
  label : String
  ts : Int
  stderr : Bool
  text : String
deriving DecidableEq

/-- The lines of one ring strictly newer than `sinceMs`. -/
def newer (sinceMs : Int) (label : String) (lines : List Line) : List LabeledLine :=
  (lines.filter fun ln => decide (sinceMs < ln.unixMilli)).map fun ln => ⟨label, ln.ts, ln.stderr, ln.text⟩

/-- All that was read, ascending by timestamp; the sort is stable. -/
def merged (out : List LabeledLine) : List LabeledLine := out.mergeSort fun a b => decide (a.ts ≤ b.ts)

/-! ### Policies -/

/-- Rotation, retention and compression of one sink's files. -/
structure Policy where
  maxSizeMB : Int
  maxBackups : Int
  maxAgeDays : Int
  compress : Bool
  deriving DecidableEq, Repr

def DefaultPolicy : Policy := ⟨10, 5, 14, true⟩

/-- The registry's policies, by app name, and the fallback. -/
structure Policies where
  policies : Table String Policy := ∅
  default : Policy := DefaultPolicy

namespace Policies

def SetDefaultPolicy (r : Policies) (p : Policy) : Policies := { r with default := p }

def SetPolicy (r : Policies) (app : String) (p : Policy) : Policies :=
  { r with policies := r.policies.set app p }

/-- The policy of the label's part up to its last `#`. -/
def policyFor (r : Policies) (label : String) : Policy :=
  (r.policies.get (Memguard.appName label)).getD r.default

theorem policyFor_SetPolicy (r : Policies) (app label : String) (p : Policy) :
    (r.SetPolicy app p).policyFor label =
      if Memguard.appName label = app then p else r.policyFor label := by
  unfold policyFor SetPolicy
  rw [Table.get_set]
  split <;> rfl

end Policies
end Marshal.Logs
