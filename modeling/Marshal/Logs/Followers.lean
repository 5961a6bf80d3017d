import Marshal.Lib.System
import Marshal.Logs

/-! A sink and its live followers.

A write holds the sink's lock while it cuts lines off what has come in and hands each of
them to the ring and to the channels of the subscribers. A subscriber receives without
the lock, also between two lines of one write. Bytes are kept as characters below 256.
`World` has, beside the sink, what was emitted and what each subscriber has got so far.
The rotated files are left out, and nothing truncates. -/
namespace Marshal.Logs

/-! ### The sink -/

/-- A subscriber's channel takes so many lines that were not received yet. -/
def subBuffer : Nat := 256

/-- A line without a newline is cut off at this size. -/
def maxLineBytes : Nat := 64 * 1024

structure Chan where
  buf : List Line := []
  closed : Bool := false

/-- `subs` has the channels, by their place in `chans`, that lines are sent to. -/
structure LiveSink where
  ring : Sink := newSink
  outPart : List UInt8 := []
  errPart : List UInt8 := []
  subs : Table Nat Nat := ∅
  nextID : Nat := 0
  closed : Bool := false
  /-- The stream of the write that holds the lock. -/
  writing : Option Bool := none
  chans : List Chan := []
  /-- A closed channel was sent to, or closed again. -/
  panicked : Bool := false

namespace LiveSink

def part (s : LiveSink) (stderr : Bool) : List UInt8 := if stderr then s.errPart else s.outPart

def setPart (s : LiveSink) (stderr : Bool) (p : List UInt8) : LiveSink :=
  if stderr then { s with errPart := p } else { s with outPart := p }

/-- A line is dropped where the channel is full. -/
def send (s : LiveSink) (c : Nat) (ln : Line) : LiveSink :=
  match s.chans[c]? with
  | none => s
  | some ch =>
    if ch.closed then { s with panicked := true }
    else if ch.buf.length < subBuffer then
      { s with chans := s.chans.set c { ch with buf := ch.buf ++ [ln] } }
    else s

def closeChan (s : LiveSink) (c : Nat) : LiveSink :=
  match s.chans[c]? with
  | none => s
  | some ch =>
    if ch.closed then { s with panicked := true }
    else { s with chans := s.chans.set c { ch with closed := true } }

def emit (s : LiveSink) (ln : Line) : LiveSink :=
  s.subs.toList.foldl (fun s e => s.send e.2 ln) { s with ring := s.ring.emit ln }

def text (p : List UInt8) : String := String.ofList (p.map fun b => Char.ofNat b.toNat)

/-- The next line and what is left: up to a newline, or a piece of a line that is too long. -/
def cut (p : List UInt8) : Option (String × List UInt8) :=
  if 10 ∈ p then some (text (p.takeWhile (· != 10)), (p.dropWhile (· != 10)).tail)
  else if maxLineBytes ≤ p.length then some (text (p.take maxLineBytes), p.drop maxLineBytes)
  else none

/-- A write takes the lock, unless the sink is closed. -/
def write (s : LiveSink) (stderr : Bool) (p : List UInt8) : LiveSink :=
  if s.closed then s else { s.setPart stderr (s.part stderr ++ p) with writing := some stderr }

/-- A subscriber's id; a closed sink gives a closed channel and none. -/
def subscribe (s : LiveSink) : LiveSink × Option Nat :=
  if s.closed then ({ s with chans := s.chans ++ [{ closed := true }] }, none)
  else
    ({ s with
        chans := s.chans ++ [{}]
        subs := s.subs.set s.nextID s.chans.length
        nextID := s.nextID + 1 }, some s.nextID)

def cancel (s : LiveSink) (id : Option Nat) : LiveSink :=
  match id with
  | none => s
  | some id => match s.subs.get id with
    | none => s
    | some c => { s with subs := s.subs.del id }.closeChan c

def Close (s : LiveSink) : LiveSink :=
  if s.closed then s
  else s.subs.toList.foldl (fun s e => { s with subs := s.subs.del e.1 }.closeChan e.2)
    { s with closed := true }

end LiveSink

/-! ### The sink among its users -/

/-- A subscriber. With `Subscribe` nothing is asked for, with `SubscribeWithRing` the last `n` lines. -/
structure Follower where
  asked : Option Int
  /-- How many lines had been emitted. -/
  start : Nat
  backfill : List Line
  id : Option Nat
  received : List Line := []

structure World where
  sink : LiveSink := {}
  emitted : List Line := []
  followers : List Follower := []

inductive Act where
  | write (stderr : Bool) (p : List UInt8)
  /-- The write cuts off a line, at a time, or ends. -/
  | turn (now : Int)
  | subscribe (n : Option Int)
  | cancel (c : Nat)
  | close
  | recv (c : Nat)

namespace World

/-- One action. All but a receive need the lock. -/
def step (w : World) : Act → Option World
  | .write stderr p =>
    if w.sink.writing.isSome then none else some { w with sink := w.sink.write stderr p }
  | .turn now => match w.sink.writing with
    | none => none
    | some stderr => match LiveSink.cut (w.sink.part stderr) with
      | none => some { w with sink := { w.sink with writing := none } }
      | some (text, rest) =>
        let ln : Line := ⟨now, stderr, text⟩
        some { w with sink := (w.sink.setPart stderr rest).emit ln, emitted := w.emitted ++ [ln] }
  | .subscribe n =>
    if w.sink.writing.isSome then none
    else
      let backfill := match n with
        | none => []
        | some n => w.sink.ring.backfill n.toNat
      let r := w.sink.subscribe
      let f : Follower := { asked := n, start := w.emitted.length, backfill, id := r.2 }
      some { w with sink := r.1, followers := w.followers ++ [f] }
  | .cancel c => match w.followers[c]? with
    | none => none
    | some f =>
      if w.sink.writing.isSome then none else some { w with sink := w.sink.cancel f.id }
  | .close => if w.sink.writing.isSome then none else some { w with sink := w.sink.Close }
  | .recv c => match w.sink.chans[c]?, w.followers[c]? with
    | some ch, some f => match ch.buf with
      | [] => none
      | ln :: buf =>
        let chans := w.sink.chans.set c { ch with buf := buf }
        let followers := w.followers.set c { f with received := f.received ++ [ln] }
        some { w with sink := { w.sink with chans := chans }, followers := followers }
    | _, _ => none

/-- A new sink that nobody follows yet. -/
def machine : Transition.System World Act where
  init w := w = {}
  step := step

/-- Whether lines are still sent to the subscriber. -/
def Following (w : World) (c : Nat) : Prop := ∃ id, w.sink.subs.get id = some c

end World

/-- How many lines a subscriber is given that were emitted before: as many as it asked for, or all
the ring has. -/
def Follower.back (f : Follower) : Nat :=
  match f.asked with
  | none => 0
  | some n => if n ≤ 0 then min f.start ringCap else min n.toNat (min f.start ringCap)

end Marshal.Logs
