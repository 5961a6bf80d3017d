import Marshal.Logs

/-! The ring of captured lines, cell by cell.

`Ring` has the cells, the index arithmetic and the two copies of the source, and panics
where it would. It runs as the circular buffer of the sinks does (`add_ofBuffer`), so any
number of additions to a ring of at least one cell leaves the last of them
(`ring_keeps_last`). -/
namespace Marshal.Logs

/-- `copy(dst[start:], src)` -/
def copyInto {α : Type} (dst : List α) (start : Nat) (src : List α) : List α :=
  dst.take start ++ src.take (dst.length - start) ++ dst.drop (start + src.length)

structure Ring where
  buf : List Line
  size : Nat
  head : Nat
  full : Bool
  deriving DecidableEq

def newRing (n : Nat) : Ring where
  buf := List.replicate n default
  size := n
  head := 0
  full := false

namespace Ring

/-- A write outside of the cells panics, and so does a remainder by no cells. -/
def add (r : Ring) (l : Line) : Option Ring :=
  if r.head < r.buf.length ∧ r.size ≠ 0 then
    let head := (r.head + 1) % r.size
    some { r with buf := r.buf.set r.head l, head := head, full := if head = 0 then true else r.full }
  else none

def snapshot (r : Ring) : List Line :=
  if r.full = false then copyInto (List.replicate r.head default) 0 (r.buf.take r.head)
  else
    let out := copyInto (List.replicate r.size default) 0 (r.buf.drop r.head)
    copyInto out (r.size - r.head) (r.buf.take r.head)

def last (r : Ring) (n : Int) : List Line :=
  let all := r.snapshot
  if 0 < n ∧ n < all.length then all.drop (all.length - n.toNat) else all

def addAll (r : Ring) (lines : List Line) : Option Ring := lines.foldlM add r

/-! ### The copies -/

theorem copyInto_front {α : Type} (dst src : List α) (h : src.length ≤ dst.length) :
    copyInto dst 0 src = src ++ dst.drop src.length := by
  rw [copyInto, List.take_zero, List.nil_append, Nat.sub_zero, Nat.zero_add, List.take_of_length_le h]

theorem copyInto_back {α : Type} (front back src : List α) (h : src.length = back.length) :
    copyInto (front ++ back) front.length src = front ++ src := by
  have hroom : (front ++ back).length - front.length = src.length := by
    rw [List.length_append, Nat.add_sub_cancel_left, h]
  have hrest : (front ++ back).drop (front.length + src.length) = [] :=
    List.drop_of_length_le (by rw [List.length_append, h])
  rw [copyInto, hroom, hrest, List.take_left, List.take_length, List.append_nil]

/-! ### As the circular buffer -/

section Buffer
variable {size : Nat}

def ofBuffer (b : RingBuffer Line size) : Ring := ⟨b.buf, size, b.head, b.full⟩

theorem newRing_ofBuffer (h : 0 < size) : newRing size = ofBuffer (RingBuffer.new h) := rfl

theorem add_ofBuffer (b : RingBuffer Line size) (l : Line) : (ofBuffer b).add l = some (ofBuffer (b.add l)) := by
  have hcells : (ofBuffer b).head < (ofBuffer b).buf.length ∧ (ofBuffer b).size ≠ 0 := by
    have hlength := b.length_buf
    have hlt := b.head_lt
    simp only [ofBuffer]
    omega
  rw [add, if_pos hcells]
  by_cases hzero : (b.head + 1) % size = 0
  · simp [ofBuffer, RingBuffer.add, hzero]
  · simp [ofBuffer, RingBuffer.add, hzero]

theorem snapshot_ofBuffer (b : RingBuffer Line size) : (ofBuffer b).snapshot = b.snapshot := by
  have hlength := b.length_buf
  have hlt := b.head_lt
  have htake : (b.buf.take b.head).length = b.head := by
    rw [List.length_take]
    omega
  have hdrop : (b.buf.drop b.head).length = size - b.head := by rw [List.length_drop, hlength]
  cases hfull : b.full with
  | false =>
    have hfront := copyInto_front (List.replicate b.head default) (b.buf.take b.head)
      (by rw [htake, List.length_replicate])
    rw [htake, List.drop_of_length_le (by rw [List.length_replicate]), List.append_nil] at hfront
    have hopen : (ofBuffer b).full = false := hfull
    rw [snapshot, if_pos hopen, RingBuffer.snapshot, if_neg (by rw [hfull]; exact Bool.false_ne_true)]
    exact hfront
  | true =>
    have hfront := copyInto_front (List.replicate size (default : Line)) (b.buf.drop b.head)
      (by rw [hdrop, List.length_replicate]; exact Nat.sub_le _ _)
    have hback := copyInto_back (b.buf.drop b.head)
      ((List.replicate size default).drop (b.buf.drop b.head).length) (b.buf.take b.head)
      (by rw [List.length_drop, List.length_replicate, hdrop, htake]; omega)
    rw [← hfront, hdrop] at hback
    have hclosed : ¬ (ofBuffer b).full = false := by simp [ofBuffer, hfull]
    rw [snapshot, if_neg hclosed, RingBuffer.snapshot, if_pos hfull]
    exact hback

theorem last_ofBuffer (b : RingBuffer Line size) (n : Int) : (ofBuffer b).last n = b.last n.toNat := by
  rw [last, RingBuffer.last, snapshot_ofBuffer]
  by_cases hn : 0 < n ∧ n < b.snapshot.length
  · rw [if_pos hn, if_pos (by omega)]
  · rw [if_neg hn, if_neg (by omega)]

/-- After any run the buffer behind the ring shows the last of what was added. -/
theorem addAll_ofBuffer {b : RingBuffer Line size} {added : List Line} (h : b.Shows added) (lines : List Line) :
    ∃ b' : RingBuffer Line size, (ofBuffer b).addAll lines = some (ofBuffer b') ∧ b'.Shows (added ++ lines) := by
  induction lines generalizing b added with
  | nil => exact ⟨b, rfl, by rw [List.append_nil]; exact h⟩
  | cons l lines ih =>
    obtain ⟨b', hrun, hshows⟩ := ih (h.add l)
    refine ⟨b', ?_, by rw [← List.singleton_append, ← List.append_assoc]; exact hshows⟩
    rw [addAll, List.foldlM_cons, add_ofBuffer]
    exact hrun

end Buffer

end Ring

/-! ### The last lines -/

/-- The last `k` lines of a queue, in order. -/
def lastLines (k : Nat) (lines : List Line) : List Line := lines.drop (lines.length - k)

/-- **Whatever is added to a ring of at least one cell, it shows the last lines of it that fit, and
`last` the last `n` of these, or all for no positive `n`.** -/
theorem ring_keeps_last {capacity : Nat} (hcapacity : 1 ≤ capacity) (lines : List Line) :
    ∃ r, (newRing capacity).addAll lines = some r ∧
      r.snapshot = lastLines (min capacity lines.length) lines ∧
      ∀ n : Int, r.last n =
        if 0 < n then lastLines (min n.toNat (min capacity lines.length)) lines
        else lastLines (min capacity lines.length) lines := by
  obtain ⟨b, hrun, hshows⟩ := Ring.addAll_ofBuffer (RingBuffer.shows_new hcapacity) lines
  rw [← Ring.newRing_ofBuffer] at hrun
  rw [List.nil_append] at hshows
  refine ⟨Ring.ofBuffer b, hrun, ?_, fun n => ?_⟩
  · rw [Ring.snapshot_ofBuffer, hshows, lastLines]
    congr 1
    omega
  · rw [Ring.last_ofBuffer, hshows.last, RingBuffer.count]
    by_cases hn : 0 < n
    · rw [if_neg (by omega), if_pos hn, lastLines, Nat.min_comm lines.length]
    · rw [if_pos (by omega), if_neg hn, lastLines, Nat.min_comm lines.length]

/-- Three lines in a ring of two. -/
theorem ring_keeps_last_two :
    ∃ r, (newRing 2).addAll [⟨1, false, "a"⟩, ⟨2, false, "b"⟩, ⟨3, true, "c"⟩] = some r ∧
      r.snapshot = lastLines (min 2 3) [⟨1, false, "a"⟩, ⟨2, false, "b"⟩, ⟨3, true, "c"⟩] ∧
      ∀ n : Int, r.last n =
        if 0 < n then lastLines (min n.toNat (min 2 3)) [⟨1, false, "a"⟩, ⟨2, false, "b"⟩, ⟨3, true, "c"⟩]
        else lastLines (min 2 3) [⟨1, false, "a"⟩, ⟨2, false, "b"⟩, ⟨3, true, "c"⟩] :=
  ring_keeps_last (by decide) [⟨1, false, "a"⟩, ⟨2, false, "b"⟩, ⟨3, true, "c"⟩]

end Marshal.Logs
