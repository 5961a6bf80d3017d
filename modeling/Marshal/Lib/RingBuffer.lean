import Mathlib.Data.List.Basic

/-! A circular buffer that keeps the last `size` elements added to it.

The cells are written in a circle from `head` on; once the circle has closed, the
oldest element lies at `head`. Its `snapshot` is all that a reader sees, and adding
an element appends it there, dropping the oldest from a full buffer. -/

structure RingBuffer (α : Type) (size : Nat) where
  buf : List α
  /-- The next cell to write. -/
  head : Nat
  /-- Every cell has been written. -/
  full : Bool
  length_buf : buf.length = size
  head_lt : head < size
deriving DecidableEq

namespace RingBuffer
variable {α : Type} {size : Nat}

def new [Inhabited α] (h : 0 < size) : RingBuffer α size where
  buf := List.replicate size default
  head := 0
  full := false
  length_buf := List.length_replicate
  head_lt := h

def add (r : RingBuffer α size) (x : α) : RingBuffer α size where
  buf := r.buf.set r.head x
  head := (r.head + 1) % size
  full := r.full || (r.head + 1) % size == 0
  length_buf := by rw [List.length_set, r.length_buf]
  head_lt := Nat.mod_lt _ (Nat.zero_lt_of_lt r.head_lt)

/-- The elements, oldest first. -/
def snapshot (r : RingBuffer α size) : List α :=
  if r.full then r.buf.drop r.head ++ r.buf.take r.head else r.buf.take r.head

/-- The last `n` elements; all of them for `n = 0`. -/
def last (r : RingBuffer α size) (n : Nat) : List α :=
  if 0 < n ∧ n < r.snapshot.length then r.snapshot.drop (r.snapshot.length - n) else r.snapshot

@[simp] theorem last_zero (r : RingBuffer α size) : r.last 0 = r.snapshot := by simp [last]

@[simp] theorem snapshot_new [Inhabited α] (h : 0 < size) : (new h : RingBuffer α size).snapshot = [] := rfl

theorem length_snapshot (r : RingBuffer α size) :
    r.snapshot.length = if r.full then size else r.head := by
  have hlength := r.length_buf
  have hlt := r.head_lt
  unfold snapshot
  split
  · rw [List.length_append, List.length_drop, List.length_take]
    omega
  · rw [List.length_take]
    omega

/-- The cells up to the one just written. -/
theorem take_written (r : RingBuffer α size) (x : α) :
    (r.buf.set r.head x).take (r.head + 1) = r.buf.take r.head ++ [x] := by
  have hlt : r.head < r.buf.length := r.length_buf.symm ▸ r.head_lt
  rw [List.take_succ_eq_append_getElem (by rwa [List.length_set]), List.getElem_set_self,
    List.take_set_of_le (Nat.le_refl _)]

/-- Before the circle closes, an element is appended. -/
theorem snapshot_add_of_not_full (r : RingBuffer α size) (x : α) (h : r.full = false) :
    (r.add x).snapshot = r.snapshot ++ [x] := by
  have hlength := r.length_buf
  have hlt := r.head_lt
  have htake := r.take_written x
  rw [snapshot, snapshot, h]
  show (if (r.add x).full then _ else _) = _
  by_cases hwrap : r.head + 1 = size
  · have hzero : (r.head + 1) % size = 0 := by rw [hwrap, Nat.mod_self]
    have hall : (r.buf.set r.head x).take (r.head + 1) = r.buf.set r.head x :=
      List.take_of_length_le (by rw [List.length_set]; omega)
    simp only [add, h, hzero]
    simpa [hall] using htake
  · have hnext : (r.head + 1) % size = r.head + 1 := Nat.mod_eq_of_lt (by omega)
    simp only [add, h, hnext]
    simpa using htake

/-- After it, the oldest element goes. -/
theorem snapshot_add_of_full (r : RingBuffer α size) (x : α) (h : r.full = true) :
    (r.add x).snapshot = r.snapshot.tail ++ [x] := by
  have hlength := r.length_buf
  have hlt := r.head_lt
  have htake := r.take_written x
  have hdrop : (r.buf.set r.head x).drop (r.head + 1) = r.buf.drop (r.head + 1) :=
    List.drop_set_of_lt (Nat.lt_succ_self _)
  have htail : r.snapshot.tail = r.buf.drop (r.head + 1) ++ r.buf.take r.head := by
    rw [snapshot, if_pos h, List.drop_eq_getElem_cons (by omega), List.cons_append, List.tail_cons]
  rw [htail, List.append_assoc, ← htake, ← hdrop]
  by_cases hwrap : r.head + 1 = size
  · have hzero : (r.head + 1) % size = 0 := by rw [hwrap, Nat.mod_self]
    have hend : (r.buf.set r.head x).drop (r.head + 1) = [] :=
      List.drop_of_length_le (by rw [List.length_set]; omega)
    have hall : (r.buf.set r.head x).take (r.head + 1) = r.buf.set r.head x :=
      List.take_of_length_le (by rw [List.length_set]; omega)
    simp only [snapshot, add, h, hzero, hend, hall]
    simp
  · have hnext : (r.head + 1) % size = r.head + 1 := Nat.mod_eq_of_lt (by omega)
    simp only [snapshot, add, h, hnext]
    simp

/-- What a reader sees of an added element: all it saw before, less the oldest if that
was `size` elements, and then the new one. -/
theorem snapshot_add (r : RingBuffer α size) (x : α) :
    (r.add x).snapshot = r.snapshot ++ [x] ∨
      r.snapshot.length = size ∧ (r.add x).snapshot = r.snapshot.tail ++ [x] := by
  cases h : r.full with
  | false => exact .inl (r.snapshot_add_of_not_full x h)
  | true => exact .inr ⟨by rw [length_snapshot, if_pos h], r.snapshot_add_of_full x h⟩

/-! ### The last elements of a list -/

/-- The buffer shows the last `size` elements of all that was added. -/
def Shows (r : RingBuffer α size) (l : List α) : Prop := r.snapshot = l.drop (l.length - size)

theorem shows_new [Inhabited α] (h : 0 < size) : Shows (new h : RingBuffer α size) [] := by
  simp [Shows]

theorem Shows.add {r : RingBuffer α size} {l : List α} (h : Shows r l) (x : α) :
    Shows (r.add x) (l ++ [x]) := by
  have hpos : 0 < size := Nat.zero_lt_of_lt r.head_lt
  have hlen : r.snapshot.length = min l.length size := by
    rw [show r.snapshot = _ from h, List.length_drop]
    omega
  unfold Shows
  rw [List.length_append, List.length_singleton]
  rcases r.snapshot_add x with hadd | ⟨hfull, hadd⟩
  · rw [hadd, show r.snapshot = _ from h]
    have hshort : (r.add x).snapshot.length ≤ size := by
      rw [length_snapshot]
      split
      · exact Nat.le_refl size
      · exact Nat.le_of_lt (r.add x).head_lt
    rw [hadd, List.length_append, hlen, List.length_singleton] at hshort
    rw [Nat.sub_eq_zero_of_le (by omega : l.length ≤ size),
      Nat.sub_eq_zero_of_le (by omega : l.length + 1 ≤ size)]
    rfl
  · rw [hadd, show r.snapshot = _ from h, List.tail_drop,
      List.drop_append_of_le_length (by omega : l.length + 1 - size ≤ l.length)]
    congr 2
    omega

/-- How many elements a reader gets who asks for `n`; all there are for `n = 0`. -/
def count (size n length : Nat) : Nat := if n = 0 then min length size else min n (min length size)

theorem Shows.last {r : RingBuffer α size} {l : List α} (h : Shows r l) (n : Nat) :
    r.last n = l.drop (l.length - count size n l.length) := by
  have hlen : r.snapshot.length = min l.length size := by
    rw [show r.snapshot = _ from h, List.length_drop]
    omega
  unfold RingBuffer.last count
  rw [hlen, show r.snapshot = _ from h]
  split
  · rw [List.drop_drop, if_neg (by omega)]
    congr 1
    omega
  · split
    · congr 1
      omega
    · congr 1
      omega

end RingBuffer
