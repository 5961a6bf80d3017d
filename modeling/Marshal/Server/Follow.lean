import Marshal.Lib.Following
import Marshal.Lib.System
import Marshal.Server.History

/-! Following an agent's log.

A reader polls for the lines of a selector, each time with the cursor it was given last.
What is stored past the cursor is a queue to it, as long as new lines get larger ids than
the cursor and a reader that has seen nothing yet is not given a part only (`InReach`).
Then every line stored after the first poll is returned once (`follow_exactly_once`). -/
namespace Marshal.Server
open Transition LogStore

/-! ### The reader -/

/-- What every poll of a reader asks for. -/
structure Query where
  agent : String
  selector : String
  filter : StreamFilter
  text : String

/-- The agent's store and one reader of it. -/
structure Follower where
  /-- Whether the agent has a store. -/
  known : Bool := false
  store : LogStore.Store := {}
  cursor : Int := 0
  /-- The first poll is made. -/
  polled : Bool := false
  /-- What each poll returned. -/
  returned : List (List StoredLine) := []

inductive FollowAction where
  | append (lines : List Line)
  | prune (beforeMs : Int)
  | poll (limit : Int)

namespace Follower

/-- `logStores.Since` with the reader's cursor. -/
def answer (q : Query) (f : Follower) (limit : Int) : List StoredLine × Int :=
  if f.known then
    sinceOf f.store {
      agent := q.agent, selector := q.selector, afterRowID := f.cursor, limit,
      filter := q.filter, text := q.text }
  else ([], 0)

def step (q : Query) (f : Follower) : FollowAction → Option Follower
  | .append lines => some { f with known := true, store := append f.store lines }
  | .prune beforeMs => some { f with store := prune f.store beforeMs }
  | .poll limit =>
    if 0 < limit then
      let (lines, cursor) := f.answer q limit
      some { f with cursor, polled := true, returned := f.returned ++ [lines] }
    else none

end Follower

def following (q : Query) : System Follower FollowAction where
  init f := f = {}
  step := Follower.step q

/-! ### What is found -/

def wanted (q : Query) (r : StoredLine) : Bool := selects q.selector r.label && matching q.filter q.text r

theorem mem_labels {st : LogStore.Store} {l : String} :
    l ∈ labels st ↔ ∃ r ∈ st.rows, r.label = l := by
  simp only [labels, List.mem_mergeSort, List.mem_eraseDups, List.mem_map]

namespace Follower

/-- The lines the query asks for, in rowid order. -/
def found (q : Query) (f : Follower) : List StoredLine := f.store.rows.filter (wanted q)

/-- Those the reader has still to get. -/
def ahead (q : Query) (f : Follower) : List StoredLine :=
  Following.ahead StoredLine.rowID f.cursor (f.found q)

/-- What a poll returns, without the labels. -/
def read (q : Query) (f : Follower) (limit : Int) : List StoredLine :=
  if 0 < f.cursor then (f.ahead q).take limit.toNat
  else ((f.found q).reverse.take limit.toNat).reverse

theorem found_labels (q : Query) (f : Follower) :
    (f.store.rows.filter fun r => decide (r.label ∈ (labels f.store).filter (selects q.selector)) &&
      matching q.filter q.text r) = f.found q := by
  refine List.filter_congr fun r hr => ?_
  unfold wanted
  congr 1
  have hmem : r.label ∈ labels f.store := mem_labels.mpr ⟨r, hr, rfl⟩
  simp [hmem]

theorem answer_eq (q : Query) (f : Follower) {limit : Int} (hlimit : 0 < limit) :
    f.answer q limit = if f.known then
      (f.read q limit, Following.past StoredLine.rowID f.cursor (f.read q limit)) else ([], 0) := by
  unfold answer
  split
  · unfold sinceOf since
    split
    · rename_i hempty
      have hfound : f.found q = [] := by
        rw [← found_labels]
        simp [List.isEmpty_iff.mp hempty]
      simp [read, ahead, hfound, Following.ahead, Following.past]
    · simp only [found_labels, limited, if_pos hlimit]
      rfl
  · rfl

/-! ### What every run keeps -/

structure Inv (f : Follower) : Prop where
  rows : Following.Ascending StoredLine.rowID f.store.rows
  pos : ∀ r ∈ f.store.rows, 0 < r.rowID
  cursor : 0 ≤ f.cursor
  unknown : f.known = false → f.store.rows = [] ∧ f.cursor = 0
  unpolled : f.polled = false → f.cursor = 0
  /-- The lines returned so far come in the order of their ids and none beyond the cursor. -/
  ordered : Following.Ascending StoredLine.rowID f.returned.flatten
  reached : ∀ r ∈ f.returned.flatten, 0 < r.rowID ∧ r.rowID ≤ f.cursor

theorem inv_empty : Inv {} where
  rows := List.Pairwise.nil
  pos r hr := by cases hr
  cursor := Int.le_refl 0
  unknown _ := ⟨rfl, rfl⟩
  unpolled _ := rfl
  ordered := List.Pairwise.nil
  reached r hr := by cases hr

theorem Inv.found_ascending {q : Query} {f : Follower} (h : f.Inv) :
    Following.Ascending StoredLine.rowID (f.found q) :=
  List.Pairwise.filter _ h.rows

theorem mem_of_read {q : Query} {f : Follower} {limit : Int} {r : StoredLine}
    (h : r ∈ f.read q limit) : r ∈ f.store.rows := by
  unfold read at h
  split at h
  · exact (List.mem_filter.mp (List.mem_filter.mp (List.mem_of_mem_take h)).1).1
  · have hmem := List.mem_of_mem_take (List.mem_reverse.mp h)
    exact (List.mem_filter.mp (List.mem_reverse.mp hmem)).1

theorem Inv.read_ascending {q : Query} {f : Follower} (h : f.Inv) (limit : Int) :
    Following.Ascending StoredLine.rowID (f.read q limit) := by
  unfold read
  split
  · exact (Following.ahead_ascending h.found_ascending _).sublist (List.take_sublist _ _)
  · have hsub := (List.take_sublist limit.toNat (f.found q).reverse).reverse
    rw [List.reverse_reverse] at hsub
    exact (@Inv.found_ascending q f h).sublist hsub

theorem Inv.cursor_lt_read {q : Query} {f : Follower} (h : f.Inv) {limit : Int} {r : StoredLine}
    (hr : r ∈ f.read q limit) : f.cursor < r.rowID := by
  by_cases hcursor : 0 < f.cursor
  · rw [read, if_pos hcursor] at hr
    simpa [ahead, Following.ahead] using (List.mem_filter.mp (List.mem_of_mem_take hr)).2
  · have hpos := h.pos r (mem_of_read hr)
    omega

theorem inv_poll {q : Query} {f : Follower} (h : f.Inv) {limit : Int} :
    Inv { f with
      cursor := Following.past StoredLine.rowID f.cursor (f.read q limit)
      polled := true
      returned := f.returned ++ [f.read q limit] } where
  rows := h.rows
  pos := h.pos
  cursor := Int.le_trans h.cursor (Following.le_past _ _)
  unknown hunknown := by
    obtain ⟨hrows, hcursor⟩ := h.unknown hunknown
    refine ⟨hrows, ?_⟩
    have hread : f.read q limit = [] :=
      List.eq_nil_iff_forall_not_mem.mpr fun r hr => by simpa [hrows] using mem_of_read hr
    simpa [hread, Following.past] using hcursor
  unpolled hpolled := by cases hpolled
  ordered := by
    simp only [List.flatten_append, List.flatten_cons, List.flatten_nil, List.append_nil]
    refine List.pairwise_append.mpr ⟨h.ordered, h.read_ascending limit, fun a ha b hb => ?_⟩
    have hle := (h.reached a ha).2
    have hlt := h.cursor_lt_read hb
    omega
  reached r hr := by
    simp only [List.flatten_append, List.flatten_cons, List.flatten_nil, List.append_nil,
      List.mem_append] at hr
    rcases hr with hr | hr
    · obtain ⟨hpos, hle⟩ := h.reached r hr
      exact ⟨hpos, Int.le_trans hle (Following.le_past _ _)⟩
    · exact ⟨h.pos r (mem_of_read hr), Following.key_le_past hr⟩

theorem inv_append {f : Follower} (h : f.Inv) (lines : List Line) :
    Inv { f with known := true, store := append f.store lines } where
  rows := by
    rw [rows_append]
    refine List.pairwise_append.mpr ⟨h.rows, numbered_ascending _ _, fun a ha b hb => ?_⟩
    exact Nat.lt_of_lt_of_le (rowID_lt_next ha) (le_of_numbered hb)
  pos r hr := by
    rw [rows_append, List.mem_append] at hr
    rcases hr with hr | hr
    · exact h.pos r hr
    · exact Nat.lt_of_lt_of_le (Nat.succ_pos _) (le_of_numbered hr)
  cursor := h.cursor
  unknown hunknown := by cases hunknown
  unpolled := h.unpolled
  ordered := h.ordered
  reached := h.reached

theorem inv_prune {f : Follower} (h : f.Inv) (beforeMs : Int) :
    Inv { f with store := prune f.store beforeMs } where
  rows := List.Pairwise.filter _ h.rows
  pos r hr := h.pos r (List.mem_filter.mp hr).1
  cursor := h.cursor
  unknown hunknown := by
    obtain ⟨hrows, hcursor⟩ := h.unknown hunknown
    exact ⟨by simp [prune, hrows], hcursor⟩
  unpolled := h.unpolled
  ordered := h.ordered
  reached := h.reached

/-- A poll of an agent without a store reads as one of an empty store. -/
theorem Inv.answer {q : Query} {f : Follower} (h : f.Inv) {limit : Int} (hlimit : 0 < limit) :
    f.answer q limit =
      (f.read q limit, Following.past StoredLine.rowID f.cursor (f.read q limit)) := by
  rw [answer_eq q f hlimit]
  split
  · rfl
  · rename_i hunknown
    obtain ⟨hrows, hcursor⟩ := h.unknown (by simpa using hunknown)
    have hread : f.read q limit = [] :=
      List.eq_nil_iff_forall_not_mem.mpr fun r hr => by simpa [hrows] using mem_of_read hr
    simp [hread, Following.past, hcursor]

theorem inv_step {q : Query} {f g : Follower} {a : FollowAction} (h : f.Inv)
    (hstep : f.step q a = some g) : g.Inv := by
  cases a with
  | append lines =>
    cases hstep
    exact inv_append h lines
  | prune beforeMs =>
    cases hstep
    exact inv_prune h beforeMs
  | poll limit =>
    simp only [step] at hstep
    split at hstep <;> cases hstep
    rename_i hlimit
    rw [h.answer hlimit]
    exact inv_poll h

/-! ### What is ahead is a queue -/

/-- A new line that the query asks for gets an id beyond the cursor, and a reader that has not
been given a line since its first poll is given all there are. -/
def InReach (q : Query) (f : Follower) : FollowAction → Prop
  | .append lines => f.polled = true →
    ∀ r ∈ numbered (nextRowID f.store) lines, wanted q r = true → f.cursor < r.rowID
  | .poll limit => f.polled = true → f.cursor ≤ 0 → (f.found q).length ≤ limit
  | .prune _ => True

def op (q : Query) (f : Follower) : FollowAction → Following.Op StoredLine
  | .append lines => .put ((numbered (nextRowID f.store) lines).filter (wanted q))
  | .prune beforeMs => .keep fun r => decide (beforeMs ≤ r.tsMs)
  | .poll limit => .take limit.toNat

theorem ahead_append {q : Query} {f : Follower} {lines : List Line}
    (hreach : ∀ r ∈ numbered (nextRowID f.store) lines, wanted q r = true → f.cursor < r.rowID) :
    ahead q { f with known := true, store := append f.store lines } =
      f.ahead q ++ (numbered (nextRowID f.store) lines).filter (wanted q) := by
  simp only [ahead, found, Following.ahead, rows_append, List.filter_append]
  congr 1
  refine List.filter_eq_self.mpr fun r hr => ?_
  obtain ⟨hmem, hwanted⟩ := List.mem_filter.mp hr
  simpa using hreach r hmem hwanted

theorem ahead_prune (q : Query) (f : Follower) (beforeMs : Int) :
    ahead q { f with store := prune f.store beforeMs } =
      (f.ahead q).filter fun r => decide (beforeMs ≤ r.tsMs) := by
  simp only [ahead, found, Following.ahead, prune, List.filter_filter]
  refine List.filter_congr fun r _ => ?_
  rw [Bool.and_comm (wanted q r), Bool.and_left_comm]

theorem Inv.ahead_zero {q : Query} {f : Follower} (h : f.Inv) (hcursor : f.cursor ≤ 0) :
    f.ahead q = f.found q := by
  refine List.filter_eq_self.mpr fun r hr => ?_
  have hpos := h.pos r (List.mem_filter.mp hr).1
  rw [decide_eq_true_eq]
  omega

theorem queue_poll {q : Query} {f : Follower} (h : f.Inv) {limit : Int}
    (hreach : f.cursor ≤ 0 → (f.found q).length ≤ limit) :
    f.read q limit = (f.ahead q).take limit.toNat ∧
    Following.ahead StoredLine.rowID (Following.past StoredLine.rowID f.cursor (f.read q limit))
      (f.found q) = (f.ahead q).drop limit.toNat := by
  by_cases hcursor : 0 < f.cursor
  · rw [read, if_pos hcursor]
    exact ⟨rfl, Following.ahead_past_take h.found_ascending _ _⟩
  · have hle : f.cursor ≤ 0 := Int.not_lt.mp hcursor
    have hall : (f.found q).length ≤ limit.toNat := by
      have hlimit := hreach hle
      omega
    have hread : f.read q limit = f.found q := by
      rw [read, if_neg hcursor, List.take_of_length_le (by simpa using hall), List.reverse_reverse]
    rw [hread, h.ahead_zero hle, List.take_of_length_le hall, List.drop_eq_nil_of_le hall]
    exact ⟨rfl, Following.ahead_past_last h.found_ascending _ fun r hr => List.mem_of_getLast? hr⟩

/-- After the first poll every step is one of the queue. -/
theorem queue_step {q : Query} {f g : Follower} {a : FollowAction} (h : f.Inv)
    (hpolled : f.polled = true) (hrule : f.InReach q a) (hstep : f.step q a = some g) :
    g.polled = true ∧ g.ahead q = (Following.step (f.ahead q) (f.op q a)).1 ∧
    ∃ later, g.returned = f.returned ++ later ∧
      later.flatten = (Following.step (f.ahead q) (f.op q a)).2 := by
  cases a with
  | append lines =>
    cases hstep
    exact ⟨hpolled, ahead_append (hrule hpolled), [], by simp, rfl⟩
  | prune beforeMs =>
    cases hstep
    exact ⟨hpolled, ahead_prune q f beforeMs, [], by simp, rfl⟩
  | poll limit =>
    simp only [step] at hstep
    split at hstep <;> cases hstep
    rename_i hlimit
    rw [h.answer hlimit]
    obtain ⟨hread, hahead⟩ := queue_poll h (hrule hpolled)
    exact ⟨rfl, hahead, [f.read q limit], rfl, (List.append_nil _).trans hread⟩

/-! ### Runs -/

/-- The queue's side of a run. -/
def ops (q : Query) (f : Follower) : List FollowAction → List (Following.Op StoredLine)
  | [] => []
  | a :: rest => f.op q a :: match f.step q a with
    | none => []
    | some g => ops q g rest

def polls : List FollowAction → Nat
  | [] => 0
  | .poll _ :: rest => polls rest + 1
  | _ :: rest => polls rest

/-- The line is not pruned before the cursor has reached it. -/
def Spares (r : StoredLine) (f : Follower) : FollowAction → Prop
  | .prune beforeMs => f.cursor < r.rowID → beforeMs ≤ r.tsMs
  | _ => True

theorem queue_run {q : Query} {f g : Follower} {as : List FollowAction} (h : f.Inv)
    (hpolled : f.polled = true) (hrun : (following q).run f as = some g)
    (hrule : (following q).Along (InReach q) f as) : ∃ later, g.returned = f.returned ++ later ∧
      later.flatten = Following.outputs (f.ahead q) (f.ops q as) := by
  induction as generalizing f with
  | nil =>
    obtain rfl : f = g := by simpa using hrun
    exact ⟨[], by simp, rfl⟩
  | cons a rest ih =>
    obtain ⟨u, hstep, hrest⟩ := (following q).run_cons.mp hrun
    obtain ⟨hreach, hrule⟩ := hrule
    simp only [hstep] at hrule
    have hstep : f.step q a = some u := hstep
    obtain ⟨hpolled', hahead, first, hfirst, hout⟩ := queue_step h hpolled hreach hstep
    obtain ⟨later, hlater, hlaterOut⟩ := ih (inv_step h hstep) hpolled' hrest hrule
    refine ⟨first ++ later, by rw [hlater, hfirst, List.append_assoc], ?_⟩
    simp only [List.flatten_append, hout, hlaterOut, hahead, ops, hstep, Following.outputs]

theorem spared_run {q : Query} {f g : Follower} {r : StoredLine} {as : List FollowAction} (h : f.Inv)
    (hpolled : f.polled = true) (hrun : (following q).run f as = some g)
    (hrule : (following q).Along (InReach q) f as) (hspares : (following q).Along (Spares r) f as) :
    Following.Spared r (f.ahead q) (f.ops q as) := by
  induction as generalizing f with
  | nil => trivial
  | cons a rest ih =>
    obtain ⟨u, hstep, hrest⟩ := (following q).run_cons.mp hrun
    obtain ⟨hreach, hrule⟩ := hrule
    obtain ⟨hspare, hspares⟩ := hspares
    simp only [hstep] at hrule hspares
    have hstep : f.step q a = some u := hstep
    obtain ⟨hpolled', hahead, -⟩ := queue_step h hpolled hreach hstep
    have hnext := ih (inv_step h hstep) hpolled' hrest hrule hspares
    rw [hahead] at hnext
    simp only [ops, hstep]
    refine ⟨fun p hp hr => ?_, hnext⟩
    cases a with
    | append lines => cases hp
    | poll limit => cases hp
    | prune beforeMs =>
      cases hp
      have hcursor : f.cursor < r.rowID := by
        simpa [ahead, Following.ahead] using (List.mem_filter.mp hr).2
      simpa using hspare hcursor

theorem takes_ops {q : Query} {f g : Follower} {as : List FollowAction}
    (hrun : (following q).run f as = some g) : Following.takes (f.ops q as) = polls as := by
  induction as generalizing f with
  | nil => rfl
  | cons a rest ih =>
    obtain ⟨u, hstep, hrest⟩ := (following q).run_cons.mp hrun
    have hstep : f.step q a = some u := hstep
    have hnext := ih hrest
    cases a with
    | append lines => simpa only [ops, op, hstep, Following.takes, polls] using hnext
    | prune beforeMs => simpa only [ops, op, hstep, Following.takes, polls] using hnext
    | poll limit =>
      have hlimit : 0 < limit := by
        by_contra hnot
        simp [step, hnot] at hstep
      obtain ⟨n, hn⟩ : ∃ n, limit.toNat = n + 1 := ⟨limit.toNat - 1, by omega⟩
      simp only [ops, op, hstep, hn, Following.takes, polls, hnext]

/-- A line ahead of the cursor comes in one of the next polls, once. -/
theorem returned_once {q : Query} {f g : Follower} {as : List FollowAction} (h : f.Inv)
    (hpolled : f.polled = true) (hrun : (following q).run f as = some g)
    (hrule : (following q).Along (InReach q) f as) {r : StoredLine} (hr : r ∈ f.ahead q)
    (hspares : (following q).Along (Spares r) f as) (henough : (f.ahead q).length ≤ polls as) :
    ∃ later, g.returned = f.returned ++ later ∧ later.flatten.count r = 1 := by
  obtain ⟨later, hlater, hout⟩ := queue_run h hpolled hrun hrule
  refine ⟨later, hlater, ?_⟩
  have hmem : r ∈ later.flatten := by
    have hspared := spared_run h hpolled hrun hrule hspares
    obtain ⟨front, back, hsplit⟩ := List.append_of_mem hr
    rw [hout]
    rw [hsplit] at hspared henough ⊢
    refine Following.mem_outputs hspared ?_
    rw [takes_ops hrun]
    simp only [List.length_append, List.length_cons] at henough
    omega
  have hg : g.Inv := (following q).run_invariant (fun _ _ _ hI hstep => inv_step hI hstep) h hrun
  have hascending := hg.ordered
  rw [hlater, List.flatten_append] at hascending
  have hnodup : later.flatten.Nodup :=
    (List.pairwise_append.mp hascending).2.1.imp fun hlt heq => by
      rw [heq] at hlt
      exact Nat.lt_irrefl _ hlt
  exact List.count_eq_one_of_mem hnodup hmem

/-- **A reader gets every line once: in a run in which new lines come in reach of the cursor, the
lines of all polls come in the order of their ids, none twice, and a line stored after the first
poll and not pruned before the cursor is there comes in exactly one later poll, once there are as
many polls as lines ahead.** -/
theorem follow_exactly_once {q : Query} {f t : Follower} {as : List FollowAction}
    (hinit : (following q).init f) (hrun : (following q).run f as = some t)
    (hrule : (following q).Along (InReach q) f as) :
    Following.Ascending StoredLine.rowID t.returned.flatten ∧
    ∀ before lines after s u, as = before ++ .append lines :: after →
      (following q).run f before = some s → s.polled = true → s.step q (.append lines) = some u →
      ∀ r ∈ u.store.rows, r ∉ s.store.rows → wanted q r = true →
      (following q).Along (Spares r) u after → (u.ahead q).length ≤ polls after →
      ∃ later, t.returned = u.returned ++ later ∧ later.flatten.count r = 1 := by
  have hf : f = {} := hinit
  rw [hf] at hrun hrule ⊢
  have hreached : ∀ {as : List FollowAction} {g : Follower}, (following q).run {} as = some g → g.Inv :=
    (following q).run_invariant (fun _ _ _ hI hstep => inv_step hI hstep) inv_empty
  refine ⟨(hreached hrun).ordered, ?_⟩
  intro before lines after s u hsplit hs hpolled hu r hr hnew hwanted hspares henough
  rw [hsplit] at hrun hrule
  obtain ⟨s', hs', hrest⟩ := (following q).run_append.mp hrun
  obtain rfl : s = s' := by
    rw [hs] at hs'
    exact Option.some.inj hs'
  obtain ⟨u', hu', hafter⟩ := (following q).run_cons.mp hrest
  have hu' : s.step q (.append lines) = some u' := hu'
  obtain rfl : u = u' := by
    rw [hu] at hu'
    exact Option.some.inj hu'
  obtain ⟨hreach, hruleAfter⟩ := ((following q).along_append hs).mp hrule |>.2
  have hstep : (following q).step s (.append lines) = some u := hu
  simp only [hstep] at hruleAfter
  have hsInv := hreached hs
  obtain ⟨hupolled, -⟩ := queue_step hsInv hpolled hreach hu
  refine returned_once (inv_step hsInv hu) hupolled hafter hruleAfter ?_ hspares henough
  cases hu
  have hnumbered : r ∈ numbered (nextRowID s.store) lines := by
    rw [rows_append, List.mem_append] at hr
    exact hr.resolve_left hnew
  refine List.mem_filter.mpr ⟨List.mem_filter.mpr ⟨hr, hwanted⟩, ?_⟩
  simpa using hreach hpolled r hnumbered hwanted

/-! ### In reach and out of it -/

/-- The same steps with what a poll returns read off the rows. -/
def reading (q : Query) : System Follower FollowAction where
  init f := f = {}
  step f
    | .poll limit =>
      if 0 < limit then
        let lines := if f.known then f.read q limit else []
        let cursor := if f.known then Following.past StoredLine.rowID f.cursor lines else 0
        some { f with cursor, polled := true, returned := f.returned ++ [lines] }
      else none
    | a => f.step q a

theorem following_reading (q : Query) : following q = reading q := by
  unfold following reading
  congr 1
  funext f a
  cases a with
  | append lines => rfl
  | prune beforeMs => rfl
  | poll limit =>
    simp only [step]
    split
    · rename_i hlimit
      rw [answer_eq q f hlimit]
      split <;> rfl
    · rfl

instance (q : Query) (f : Follower) (a : FollowAction) : Decidable (f.InReach q a) := by
  cases a <;> unfold InReach <;> infer_instance

instance (r : StoredLine) (f : Follower) (a : FollowAction) : Decidable (Spares r f a) := by
  cases a <;> unfold Spares <;> infer_instance

/-- Nothing that the cursor has passed is returned any more. -/
theorem later_beyond {q : Query} {f g : Follower} {as : List FollowAction} (h : f.Inv)
    (hrun : (following q).run f as = some g) :
    ∃ later, g.returned = f.returned ++ later ∧ ∀ r ∈ later.flatten, f.cursor < r.rowID := by
  induction as generalizing f with
  | nil =>
    obtain rfl : f = g := by simpa using hrun
    exact ⟨[], by simp, by simp⟩
  | cons a rest ih =>
    obtain ⟨u, hstep, hrest⟩ := (following q).run_cons.mp hrun
    have hstep : f.step q a = some u := hstep
    obtain ⟨later, hlater, hbeyond⟩ := ih (inv_step h hstep) hrest
    cases a with
    | append lines | prune beforeMs =>
      cases hstep
      exact ⟨later, hlater, hbeyond⟩
    | poll limit =>
      simp only [step] at hstep
      split at hstep <;> cases hstep
      rename_i hlimit
      simp only [h.answer hlimit, List.append_assoc] at hlater hbeyond
      refine ⟨_, hlater, fun r hr => ?_⟩
      simp only [List.singleton_append, List.flatten_cons, List.mem_append] at hr
      rcases hr with hr | hr
      · exact h.cursor_lt_read hr
      · exact Int.lt_of_le_of_lt (Following.le_past _ _) (hbeyond r hr)

def apiLogs : Query := ⟨"dev-1", "api", .any, ""⟩

def apiLine (tsMs : Int) (text : String) : Line := ⟨tsMs, "api#0", false, text⟩

/-- Two lines come after the first poll, one of them at a time. -/
def followed : List FollowAction :=
  [.append [apiLine 1 "a"], .poll 5, .append [apiLine 2 "b", apiLine 3 "c"], .prune 2, .poll 1, .poll 1]

theorem followed_inReach : (following apiLogs).Along (InReach apiLogs) {} followed := by
  rw [following_reading]
  decide

def afterFirst : Follower where
  known := true
  store := ⟨[⟨1, 1, "api#0", false, "a"⟩]⟩
  cursor := 1
  polled := true
  returned := [[⟨1, 1, "api#0", false, "a"⟩]]

theorem follow_exactly_once_followed :
    ∃ t, (following apiLogs).run {} followed = some t ∧
      t.returned.map (fun lines => lines.map StoredLine.text) = [["a"], ["b"], ["c"]] ∧
      Following.Ascending StoredLine.rowID t.returned.flatten ∧
      ∃ later, t.returned = afterFirst.returned ++ later ∧
        later.flatten.count ⟨2, 2, "api#0", false, "b"⟩ = 1 := by
  have hrun : ∃ t, (following apiLogs).run {} followed = some t ∧
      t.returned.map (fun lines => lines.map StoredLine.text) = [["a"], ["b"], ["c"]] := by
    rw [following_reading]
    exact ⟨_, rfl, by decide⟩
  have hfirst : (following apiLogs).run {} [.append [apiLine 1 "a"], .poll 5] = some afterFirst := by
    rw [following_reading]
    rfl
  obtain ⟨t, hrun, htexts⟩ := hrun
  obtain ⟨hascending, honce⟩ := follow_exactly_once rfl hrun followed_inReach
  refine ⟨t, hrun, htexts, hascending, ?_⟩
  refine honce [.append [apiLine 1 "a"], .poll 5] [apiLine 2 "b", apiLine 3 "c"]
    [.prune 2, .poll 1, .poll 1] afterFirst _ rfl hfirst rfl rfl ⟨2, 2, "api#0", false, "b"⟩
    (by decide) (by decide) (by decide) ?_ (by decide)
  rw [following_reading]
  decide

/-- The first poll finds nothing, and the next one is given the newest line of two only. -/
def burst : List FollowAction := [.poll 1, .append [apiLine 1 "a", apiLine 2 "b"], .poll 1]

/-- The line the cursor is at is pruned, and a new line takes its id. -/
def reused : List FollowAction :=
  [.append [apiLine 1 "a"], .poll 1, .prune 2, .append [apiLine 3 "c"]]

theorem missed {q : Query} {as : List FollowAction} {s : Follower} {r : StoredLine}
    (hs : (following q).run {} as = some s) (hid : r.rowID ≤ s.cursor)
    (hnot : r ∉ s.returned.flatten) : ∀ bs t, (following q).run s bs = some t →
      r ∉ t.returned.flatten := by
  intro bs t ht hr
  have hinv : s.Inv := (following q).run_invariant (fun _ _ _ hI hstep => inv_step hI hstep) inv_empty hs
  obtain ⟨later, hlater, hbeyond⟩ := later_beyond hinv ht
  rw [hlater, List.flatten_append, List.mem_append] at hr
  rcases hr with hr | hr
  · exact hnot hr
  · have hlt := hbeyond r hr
    omega

/-- A line stored after the first poll that no later poll returns, however many there are. -/
theorem lines_missed :
    (∃ s, (following apiLogs).run {} burst = some s ∧ ∃ r ∈ s.store.rows, wanted apiLogs r = true ∧
      ∀ bs t, (following apiLogs).run s bs = some t → r ∉ t.returned.flatten) ∧
    ∃ s, (following apiLogs).run {} reused = some s ∧ ∃ r ∈ s.store.rows, wanted apiLogs r = true ∧
      ∀ bs t, (following apiLogs).run s bs = some t → r ∉ t.returned.flatten := by
  have hburst : ∃ s, (following apiLogs).run {} burst = some s ∧
      ⟨1, 1, "api#0", false, "a"⟩ ∈ s.store.rows ∧ 1 ≤ s.cursor ∧
      ⟨1, 1, "api#0", false, "a"⟩ ∉ s.returned.flatten := by
    rw [following_reading]
    exact ⟨_, rfl, by decide, by decide, by decide⟩
  have hreused : ∃ s, (following apiLogs).run {} reused = some s ∧
      ⟨1, 3, "api#0", false, "c"⟩ ∈ s.store.rows ∧ 1 ≤ s.cursor ∧
      ⟨1, 3, "api#0", false, "c"⟩ ∉ s.returned.flatten := by
    rw [following_reading]
    exact ⟨_, rfl, by decide, by decide, by decide⟩
  constructor
  · obtain ⟨s, hs, hr, hid, hnot⟩ := hburst
    exact ⟨s, hs, _, hr, by decide, missed hs hid hnot⟩
  · obtain ⟨s, hs, hr, hid, hnot⟩ := hreused
    exact ⟨s, hs, _, hr, by decide, missed hs hid hnot⟩

end Follower
end Marshal.Server
