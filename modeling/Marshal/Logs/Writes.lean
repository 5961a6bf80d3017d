import Marshal.Lib.Blocks
import Marshal.Lib.Lines
import Marshal.Logs.Followers

/-! What a sink's writes cut off.

A write appends to its stream's part, cuts off every line that a newline ends, and only
then blocks of a part that is too long. No byte is lost, and none gets to the other stream
(`bytes_kept`). A line that is as long as the cap depends on the writes it came in by
(`chunking_free_iff`). The sink is open; its subscribers are sent the same lines
(`write_shown`). -/
namespace Marshal.Logs
open Transition

/-! ### A write -/

/-- The part is cut at its newlines, the first one first. -/
def newlineLoop (p : List UInt8) : List (List UInt8) × List UInt8 :=
  if 10 ∈ p then
    let r := newlineLoop (p.dropWhile (· != 10)).tail
    (p.takeWhile (· != 10) :: r.1, r.2)
  else ([], p)
termination_by p.length
decreasing_by
  have hsuffix := (List.dropWhile_suffix (· != 10) (l := p)).length_le
  have hne : p.dropWhile (· != 10) ≠ [] := by
    rw [ne_eq, List.dropWhile_eq_nil_iff]
    intro hall
    exact absurd (hall 10 ‹_›) (by decide)
  have hpos := List.length_pos_of_ne_nil hne
  rw [List.length_tail]
  omega

/-- The lines that a write of these bytes cuts off, each with whether a newline ended it, and the part
that stays. -/
def pieces (p : List UInt8) : List (List UInt8 × Bool) × List UInt8 :=
  let lines := newlineLoop p
  let blocks := Blocks.cut maxLineBytes lines.2
  (lines.1.map (·, true) ++ blocks.1.map (·, false), blocks.2)

/-- A line that was emitted. Whether a newline ended it the sink does not tell. -/
structure Emitted where
  stderr : Bool
  text : List UInt8
  ended : Bool
  deriving DecidableEq

/-- The parts of an open sink, and what it has emitted since it was made or truncated. -/
structure Streams where
  outPart : List UInt8 := []
  errPart : List UInt8 := []
  emitted : List Emitted := []

inductive Op where
  | write (stderr : Bool) (p : List UInt8)
  | truncate

namespace Streams

def part (s : Streams) (stderr : Bool) : List UInt8 := if stderr then s.errPart else s.outPart

def setPart (s : Streams) (stderr : Bool) (p : List UInt8) : Streams :=
  if stderr then { s with errPart := p } else { s with outPart := p }

def write (s : Streams) (stderr : Bool) (p : List UInt8) : Streams :=
  let r := pieces (s.part stderr ++ p)
  { s.setPart stderr r.2 with emitted := s.emitted ++ r.1.map fun e => ⟨stderr, e.1, e.2⟩ }

/-- The ring and both parts are emptied. -/
def Truncate (s : Streams) : Streams := { s with outPart := [], errPart := [], emitted := [] }

def step (s : Streams) : Op → Streams
  | .write stderr p => s.write stderr p
  | .truncate => s.Truncate

def run (s : Streams) (ops : List Op) : Streams := ops.foldl step s

/-- One stream's lines. -/
def lines (s : Streams) (stderr : Bool) : List Emitted := s.emitted.filter fun e => e.stderr == stderr

def texts (s : Streams) (stderr : Bool) : List (List UInt8) := (s.lines stderr).map Emitted.text

end Streams

/-! ### What a write keeps -/

theorem newlineLoop_eq (p : List UInt8) : newlineLoop p = Lines.cut 10 p := by
  induction hlen : p.length using Nat.strongRecOn generalizing p with
  | _ len ih =>
    rw [newlineLoop]
    split
    · rename_i hin
      obtain ⟨l, q, rfl, hl⟩ := List.eq_append_cons_of_mem hin
      obtain ⟨htake, hdrop⟩ := Lines.takeWhile_line hl q
      simp only [List.length_append, List.length_cons] at hlen
      rw [htake, hdrop, List.tail_cons, Lines.cut_line hl, ih q.length (by omega) q rfl]
    · rename_i hin
      rw [Lines.cut_rest hin]

/-- The bytes that a line stands for. -/
def restored (e : List UInt8 × Bool) : List UInt8 := if e.2 then e.1 ++ [10] else e.1

theorem maxLineBytes_pos : 0 < maxLineBytes := by decide

theorem pieces_eq (p : List UInt8) : pieces p =
    ((Lines.cut 10 p).1.map (·, true) ++ (Blocks.cut maxLineBytes (Lines.cut 10 p).2).1.map (·, false),
      (Blocks.cut maxLineBytes (Lines.cut 10 p).2).2) := by
  unfold pieces
  rw [newlineLoop_eq]

/-- No byte is lost, and a part that stays is no line. -/
theorem pieces_spec (p : List UInt8) : (pieces p).1.flatMap restored ++ (pieces p).2 = p ∧
    (pieces p).2.length < maxLineBytes ∧ 10 ∉ (pieces p).2 := by
  obtain ⟨-, hnone, hjoin⟩ := Lines.cut_spec 10 p
  obtain ⟨-, hshort, hblocks⟩ := Blocks.cut_spec maxLineBytes_pos (Lines.cut 10 p).2
  rw [pieces_eq]
  refine ⟨?_, hshort, fun hin => hnone ?_⟩
  · rw [List.flatMap_append, List.append_assoc, List.flatMap_map, List.flatMap_map]
    have hended : (Lines.cut 10 p).1.flatMap (fun l => restored (l, true)) = Lines.joined 10 (Lines.cut 10 p).1 := rfl
    have hopen : (Blocks.cut maxLineBytes (Lines.cut 10 p).2).1.flatMap (fun b => restored (b, false)) =
        (Blocks.cut maxLineBytes (Lines.cut 10 p).2).1.flatten := by
      rw [← List.flatMap_id]
      rfl
    rw [hended, hopen, hblocks, hjoin]
  · rw [← hblocks]
    exact List.mem_append_right _ hin

/-- A line that a newline ends is cut off as it is. -/
theorem pieces_line {l : List UInt8} (h : 10 ∉ l) (q : List UInt8) :
    pieces (l ++ 10 :: q) = ((l, true) :: (pieces q).1, (pieces q).2) := by
  rw [pieces_eq, pieces_eq, Lines.cut_line h]
  rfl

/-- Without a newline there are only blocks. -/
theorem pieces_open {p : List UInt8} (h : 10 ∉ p) : pieces p =
    ((Blocks.cut maxLineBytes p).1.map (·, false), (Blocks.cut maxLineBytes p).2) := by
  rw [pieces_eq, Lines.cut_rest h]
  rfl

theorem pieces_part {p : List UInt8} (hshort : p.length < maxLineBytes) (hline : 10 ∉ p) :
    pieces p = ([], p) := by
  rw [pieces_open hline, Blocks.cut_short hshort]
  rfl

/-! ### The lines of a run -/

namespace Streams
variable {s : Streams} {stderr stderr' : Bool}

@[simp] theorem part_setPart (s : Streams) (stderr stderr' : Bool) (p : List UInt8) :
    (s.setPart stderr p).part stderr' = if stderr' = stderr then p else s.part stderr' := by
  cases stderr <;> cases stderr' <;> rfl

@[simp] theorem emitted_setPart (s : Streams) (stderr : Bool) (p : List UInt8) :
    (s.setPart stderr p).emitted = s.emitted := by
  cases stderr <;> rfl

theorem part_write (s : Streams) (stderr stderr' : Bool) (p : List UInt8) : (s.write stderr p).part stderr' =
    if stderr' = stderr then (pieces (s.part stderr ++ p)).2 else s.part stderr' := by
  rw [← part_setPart]
  cases stderr <;> rfl

theorem lines_write (s : Streams) (stderr stderr' : Bool) (p : List UInt8) :
    (s.write stderr p).lines stderr' = s.lines stderr' ++ if stderr' = stderr then
      (pieces (s.part stderr ++ p)).1.map (fun e => ⟨stderr, e.1, e.2⟩) else [] := by
  unfold lines write
  simp only [List.filter_append, List.filter_map]
  congr 1
  by_cases h : stderr' = stderr
  · subst h
    simp [Function.comp_def]
  · simp [Function.comp_def, Ne.symm h, h]

/-- The bytes that the stream's lines and its part stand for. -/
def bytes (s : Streams) (stderr : Bool) : List UInt8 :=
  (s.lines stderr).flatMap (fun e => restored (e.text, e.ended)) ++ s.part stderr

theorem bytes_write (s : Streams) (stderr stderr' : Bool) (p : List UInt8) :
    (s.write stderr p).bytes stderr' = if stderr' = stderr then s.bytes stderr ++ p else s.bytes stderr' := by
  unfold bytes
  rw [lines_write, part_write]
  by_cases h : stderr' = stderr
  · subst h
    simp only [if_true]
    rw [List.flatMap_append, List.append_assoc, List.flatMap_map, (pieces_spec _).1, List.append_assoc]
  · simp only [if_neg h, List.append_nil]

/-- Each part is shorter than the cap and without a newline. -/
def Open (s : Streams) : Prop := ∀ stderr, (s.part stderr).length < maxLineBytes ∧ 10 ∉ s.part stderr

theorem open_new : Open {} := by
  intro stderr
  cases stderr <;> exact ⟨maxLineBytes_pos, List.not_mem_nil⟩

theorem open_step (h : s.Open) (op : Op) : (s.step op).Open := by
  cases op with
  | write stderr p =>
    intro stderr'
    show ((s.write stderr p).part stderr').length < maxLineBytes ∧ 10 ∉ (s.write stderr p).part stderr'
    rw [part_write]
    split
    · exact (pieces_spec _).2
    · exact h stderr'
  | truncate => exact open_new

theorem open_run (h : s.Open) (ops : List Op) : (s.run ops).Open := by
  unfold run
  induction ops generalizing s with
  | nil => exact h
  | cons op ops ih => exact ih (open_step h op)

end Streams

/-- What has been written to a stream since the sink was made or truncated. -/
def written (stderr : Bool) (ops : List Op) : List UInt8 :=
  ops.foldl (fun data op => match op with
    | .write stderr' p => if stderr = stderr' then data ++ p else data
    | .truncate => []) []

/-- **However the writes of both streams alternate, the lines emitted for one of them, with their newlines,
and its part are all the bytes that were written to it; the part is shorter than the cap and has no newline.** -/
theorem bytes_kept (ops : List Op) (stderr : Bool) :
    let s := Streams.run {} ops
    (s.lines stderr).flatMap (fun e => if e.ended then e.text ++ [10] else e.text) ++ s.part stderr =
        written stderr ops ∧
      (s.part stderr).length < maxLineBytes ∧ 10 ∉ s.part stderr := by
  refine ⟨?_, Streams.open_run Streams.open_new ops stderr⟩
  show (Streams.run {} ops).bytes stderr = written stderr ops
  induction ops using List.reverseRecOn with
  | nil => cases stderr <;> rfl
  | append_singleton ops op ih =>
    unfold written Streams.run at ih ⊢
    rw [List.foldl_concat, List.foldl_concat, ← ih]
    cases op with
    | write stderr' p =>
      by_cases h : stderr = stderr'
      · subst h
        simp [Streams.step, Streams.bytes_write]
      · simp [Streams.step, Streams.bytes_write, h]
    | truncate => cases stderr <;> rfl

/-! ### Bytes that come in by several writes -/

/-- Every line that a newline ends is shorter than the cap. -/
def ShortLines (data : List UInt8) : Prop := ∀ l ∈ (Lines.cut 10 data).1, l.length < maxLineBytes

theorem ShortLines.front {p q : List UInt8} (h : ShortLines (p ++ q)) : ShortLines p := by
  intro l hl
  refine h l ?_
  rw [Lines.cut_append]
  exact List.mem_append_left _ hl

/-- As long as its lines are short, a stream may come in by two writes. -/
theorem pieces_append {p q : List UInt8} (h : ShortLines (p ++ q)) : pieces (p ++ q) =
    ((pieces p).1 ++ (pieces ((pieces p).2 ++ q)).1, (pieces ((pieces p).2 ++ q)).2) := by
  obtain ⟨-, hnone, -⟩ := Lines.cut_spec 10 p
  obtain ⟨-, -, hblocks⟩ := Blocks.cut_spec maxLineBytes_pos (Lines.cut 10 p).2
  rcases Nat.lt_or_ge (Lines.cut 10 p).2.length maxLineBytes with hshort | hlong
  · rw [pieces_eq (p ++ q), pieces_eq p, Blocks.cut_short hshort, Lines.cut_append p q]
    simp [pieces_eq]
  · -- What has become too long may not end in a newline any more.
    have hq : 10 ∉ q := by
      intro hin
      obtain ⟨l, q', rfl, hl⟩ := List.eq_append_cons_of_mem hin
      have hlast : 10 ∉ (Lines.cut 10 p).2 ++ l := by simp [hnone, hl]
      have hcap := h ((Lines.cut 10 p).2 ++ l) (by
        rw [Lines.cut_append, ← List.append_assoc, Lines.cut_line hlast]
        simp)
      rw [List.length_append] at hcap
      omega
    have hopen : 10 ∉ (Lines.cut 10 p).2 ++ q := by simp [hnone, hq]
    have hopen' : 10 ∉ (pieces p).2 ++ q := by simp [(pieces_spec p).2.2, hq]
    rw [pieces_open hopen', pieces_eq (p ++ q), Lines.cut_append p q, Lines.cut_rest hopen,
      Blocks.cut_append maxLineBytes_pos, pieces_eq p]
    simp

/-- Writes to both streams. -/
def Streams.writes (s : Streams) (ws : List (Bool × List UInt8)) : Streams :=
  ws.foldl (fun s w => s.write w.1 w.2) s

/-- What they write to one of them. -/
def bytesOn (stderr : Bool) (ws : List (Bool × List UInt8)) : List UInt8 :=
  (ws.filter fun w => w.1 == stderr).flatMap Prod.snd

/-- However a stream with short lines comes in, it is cut as by one write. -/
theorem writes_pieces {s : Streams} (hs : s.Open) {stderr : Bool} {ws : List (Bool × List UInt8)}
    (h : ShortLines (s.part stderr ++ bytesOn stderr ws)) :
    (s.writes ws).lines stderr = s.lines stderr ++
        (pieces (s.part stderr ++ bytesOn stderr ws)).1.map (fun e => ⟨stderr, e.1, e.2⟩) ∧
      (s.writes ws).part stderr = (pieces (s.part stderr ++ bytesOn stderr ws)).2 := by
  induction ws using List.reverseRecOn with
  | nil =>
    obtain ⟨hshort, hline⟩ := hs stderr
    simp [Streams.writes, bytesOn, pieces_part hshort hline]
  | append_singleton ws w ih =>
    obtain ⟨stderr', p⟩ := w
    have hwrites : s.writes (ws ++ [(stderr', p)]) = (s.writes ws).write stderr' p :=
      List.foldl_concat _ _ _ _
    have hbytes : bytesOn stderr (ws ++ [(stderr', p)]) =
        bytesOn stderr ws ++ if stderr' = stderr then p else [] := by
      unfold bytesOn
      rw [List.filter_append, List.flatMap_append]
      by_cases hw : stderr' = stderr <;> simp [hw]
    rw [hbytes] at h ⊢
    rw [hwrites, Streams.lines_write, Streams.part_write]
    by_cases hw : stderr' = stderr
    · subst hw
      simp only [if_true] at h ⊢
      rw [← List.append_assoc] at h ⊢
      obtain ⟨hlines, hpart⟩ := ih h.front
      rw [hlines, hpart, pieces_append h, List.map_append, List.append_assoc]
      exact ⟨rfl, rfl⟩
    · rw [if_neg hw, List.append_nil] at h ⊢
      obtain ⟨hlines, hpart⟩ := ih h
      simp only [if_neg (Ne.symm hw), List.append_nil]
      exact ⟨hlines, hpart⟩

/-- However the bytes of a stream come in, the same lines are emitted and the same part stays, and none of
these lines is longer than the cap. -/
def ChunkingFree (s : Streams) (stderr : Bool) (data : List UInt8) : Prop :=
  ∀ ws, bytesOn stderr ws = data →
    (∀ text ∈ ((s.writes ws).texts stderr).drop (s.texts stderr).length, text.length ≤ maxLineBytes) ∧
    ∀ ws', bytesOn stderr ws' = data →
      (s.writes ws').texts stderr = (s.writes ws).texts stderr ∧
        (s.writes ws').part stderr = (s.writes ws).part stderr

theorem texts_write (s : Streams) (stderr : Bool) (p : List UInt8) :
    (s.write stderr p).texts stderr = s.texts stderr ++ (pieces (s.part stderr ++ p)).1.map Prod.fst := by
  unfold Streams.texts
  rw [Streams.lines_write, if_pos rfl, List.map_append, List.map_map]
  rfl

theorem pieces_joined {ls : List (List UInt8)} (h : ∀ l ∈ ls, 10 ∉ l) (q : List UInt8) :
    pieces (Lines.joined 10 ls ++ q) = (ls.map (·, true) ++ (pieces q).1, (pieces q).2) := by
  rw [pieces_eq, pieces_eq, Lines.cut_joined h]
  simp

theorem pieces_le {p : List UInt8} (h : ShortLines p) : ∀ e ∈ (pieces p).1, e.1.length ≤ maxLineBytes := by
  intro e he
  rw [pieces_eq] at he
  rcases List.mem_append.mp he with he | he
  · obtain ⟨l, hl, rfl⟩ := List.mem_map.mp he
    exact (h l hl).le
  · obtain ⟨b, hb, rfl⟩ := List.mem_map.mp he
    exact ((Blocks.cut_spec maxLineBytes_pos _).1 b hb).le

/-- A line as long as the cap is emitted whole if its newline comes with it; if that comes later, an empty
line is emitted for it. -/
theorem late_newline {ls : List (List UInt8)} (hls : ∀ l ∈ ls, 10 ∉ l) {l : List UInt8} (hl : 10 ∉ l)
    (hlen : l.length = maxLineBytes) (q : List UInt8) :
    (pieces (Lines.joined 10 ls ++ l)).1.length +
        (pieces ((pieces (Lines.joined 10 ls ++ l)).2 ++ 10 :: q)).1.length =
      (pieces (Lines.joined 10 ls ++ (l ++ 10 :: q))).1.length + 1 := by
  have hblock := Blocks.cut_block maxLineBytes_pos hlen []
  rw [List.append_nil, Blocks.cut_short (p := []) maxLineBytes_pos] at hblock
  have hempty := pieces_line (l := []) List.not_mem_nil q
  rw [List.nil_append] at hempty
  rw [pieces_joined hls, pieces_joined hls, pieces_open hl, hblock, pieces_line hl]
  simp only [List.nil_append, hempty]
  simp
  omega

/-- A newline in what is written to a part comes with the bytes written. -/
theorem newline_behind {part data p q : List UInt8} (hpart : 10 ∉ part) (h : part ++ data = p ++ 10 :: q) :
    ∃ data', part ++ data' = p ∧ data = data' ++ 10 :: q := by
  rcases List.append_eq_append_iff.mp h with ⟨data', hp, hdata⟩ | ⟨c, hp, hdata⟩
  · exact ⟨data', hp.symm, hdata⟩
  · cases c with
    | nil => exact ⟨[], by simpa using hp, hdata.symm⟩
    | cons b c =>
      obtain ⟨rfl, -⟩ := List.cons.inj hdata
      exact absurd (hp ▸ List.mem_append_right p List.mem_cons_self) hpart

/-- **The lines of a stream do not depend on the writes it comes in by, and keep to the cap, exactly when
every line that a newline ends is shorter than the cap.** -/
theorem chunking_free_iff (ops : List Op) (stderr : Bool) (data : List UInt8) :
    ChunkingFree (Streams.run {} ops) stderr data ↔
      ShortLines ((Streams.run {} ops).part stderr ++ data) := by
  have hopen := Streams.open_run Streams.open_new ops
  generalize Streams.run {} ops = s at hopen
  constructor
  · intro h l hmem
    by_contra hlong
    obtain ⟨front, back, hcut⟩ := List.append_of_mem hmem
    obtain ⟨hlines, -, hjoin⟩ := Lines.cut_spec 10 (s.part stderr ++ data)
    rw [hcut] at hlines hjoin
    have hfront : ∀ l ∈ front, 10 ∉ l := fun l hl => hlines l (List.mem_append_left _ hl)
    have hl : 10 ∉ l := hlines l (List.mem_append_right _ List.mem_cons_self)
    obtain ⟨q, hq⟩ : ∃ q, s.part stderr ++ data = (Lines.joined 10 front ++ l) ++ 10 :: q :=
      ⟨Lines.joined 10 back ++ (Lines.cut 10 (s.part stderr ++ data)).2, by
        simpa [Lines.joined_append] using hjoin.symm⟩
    obtain ⟨data', hbefore, rfl⟩ := newline_behind (hopen stderr).2 hq
    have honce : bytesOn stderr [(stderr, data' ++ 10 :: q)] = data' ++ 10 :: q := by simp [bytesOn]
    have htwice : bytesOn stderr [(stderr, data'), (stderr, 10 :: q)] = data' ++ 10 :: q := by simp [bytesOn]
    obtain ⟨hcap, hsame⟩ := h _ honce
    obtain ⟨htexts, -⟩ := hsame _ htwice
    have hwhole : (s.writes [(stderr, data' ++ 10 :: q)]).texts stderr = s.texts stderr ++
        (pieces (Lines.joined 10 front ++ (l ++ 10 :: q))).1.map Prod.fst := by
      show (s.write stderr (data' ++ 10 :: q)).texts stderr = _
      rw [texts_write, hq, List.append_assoc]
    have hparts : (s.writes [(stderr, data'), (stderr, 10 :: q)]).texts stderr = s.texts stderr ++
        (pieces (Lines.joined 10 front ++ l)).1.map Prod.fst ++
          (pieces ((pieces (Lines.joined 10 front ++ l)).2 ++ 10 :: q)).1.map Prod.fst := by
      show ((s.write stderr data').write stderr (10 :: q)).texts stderr = _
      rw [texts_write, texts_write, Streams.part_write, if_pos rfl, hbefore]
    have hlen : l.length = maxLineBytes := by
      refine le_antisymm (hcap l ?_) (not_lt.mp hlong)
      rw [hwhole, List.drop_left' rfl, pieces_joined hfront, pieces_line hl]
      simp
    have hone := late_newline hfront hl hlen q
    rw [hwhole, hparts, List.append_assoc] at htexts
    have hlength := congrArg List.length htexts
    simp only [List.length_append, List.length_map] at hlength
    omega
  · rintro h ws rfl
    obtain ⟨hlines, hpart⟩ := writes_pieces hopen h
    refine ⟨?_, ?_⟩
    · intro text htext
      unfold Streams.texts at htext
      rw [hlines, List.map_append, List.drop_left' (by rw [List.length_map]), List.map_map] at htext
      obtain ⟨e, he, rfl⟩ := List.mem_map.mp htext
      exact pieces_le h e he
    · intro ws' hws'
      rw [← hws'] at h
      obtain ⟨hlines', hpart'⟩ := writes_pieces hopen h
      unfold Streams.texts
      rw [hlines, hpart, hlines', hpart', hws']
      exact ⟨rfl, rfl⟩

section Line
variable {l : List UInt8}

/-- A line that is written with its newline. -/
theorem texts_whole (hl : 10 ∉ l) : (Streams.writes {} [(false, l ++ [10])]).texts false = [l] := by
  have hnil : pieces [] = ([], []) := pieces_part maxLineBytes_pos List.not_mem_nil
  show (Streams.write {} false (l ++ [10])).texts false = _
  rw [texts_write]
  show [] ++ (pieces (l ++ [10])).1.map Prod.fst = _
  rw [pieces_line hl, hnil]
  rfl

/-- A line of the cap's length that is written before its newline. -/
theorem texts_parts (hl : 10 ∉ l) (hlen : l.length = maxLineBytes) :
    (Streams.writes {} [(false, l), (false, [10])]).texts false = [l, []] := by
  have hnil : pieces [] = ([], []) := pieces_part maxLineBytes_pos List.not_mem_nil
  have hline : pieces [10] = ([([], true)], []) := by
    rw [← List.nil_append [10], pieces_line List.not_mem_nil, hnil]
  have hblock := Blocks.cut_block maxLineBytes_pos hlen []
  rw [List.append_nil, Blocks.cut_short (p := []) maxLineBytes_pos] at hblock
  show ((Streams.write {} false l).write false [10]).texts false = _
  rw [texts_write, texts_write, Streams.part_write, if_pos rfl]
  show [] ++ (pieces l).1.map Prod.fst ++ (pieces ((pieces l).2 ++ [10])).1.map Prod.fst = _
  rw [pieces_open hl, hblock]
  show [l] ++ (pieces [10]).1.map Prod.fst = _
  rw [hline]
  rfl

theorem not_free_cap (hl : 10 ∉ l) (hlen : l.length = maxLineBytes) : ¬ ChunkingFree {} false (l ++ [10]) := by
  intro h
  have hsame := ((h [(false, l ++ [10])] (by simp [bytesOn])).2 [(false, l), (false, [10])]
    (by simp [bytesOn])).1
  rw [texts_whole hl, texts_parts hl hlen] at hsame
  cases hsame

theorem not_free_long (hl : 10 ∉ l) (hlen : maxLineBytes < l.length) : ¬ ChunkingFree {} false (l ++ [10]) := by
  intro h
  have hcap := (h [(false, l ++ [10])] (by simp [bytesOn])).1
  rw [texts_whole hl] at hcap
  exact absurd (hcap l List.mem_cons_self) (not_le.mpr hlen)

end Line

/-- A line of so many bytes. -/
def longLine (n : Nat) : List UInt8 := List.replicate n 120

theorem newline_notMem_longLine (n : Nat) : 10 ∉ longLine n := by
  intro hin
  exact absurd (List.eq_of_mem_replicate hin) (by decide)

theorem length_longLine (n : Nat) : (longLine n).length = n := List.length_replicate

/-- A line of the cap's length, with its newline in the same write or in the next; and a longer one. -/
theorem chunking_matters :
    (Streams.writes {} [(false, longLine maxLineBytes ++ [10])]).texts false = [longLine maxLineBytes] ∧
    (Streams.writes {} [(false, longLine maxLineBytes), (false, [10])]).texts false =
      [longLine maxLineBytes, []] ∧
    ¬ ChunkingFree {} false (longLine maxLineBytes ++ [10]) ∧
    (Streams.writes {} [(false, longLine (maxLineBytes + 1) ++ [10])]).texts false =
      [longLine (maxLineBytes + 1)] ∧
    ¬ ChunkingFree {} false (longLine (maxLineBytes + 1) ++ [10]) := by
  have hline := newline_notMem_longLine maxLineBytes
  have hlong := newline_notMem_longLine (maxLineBytes + 1)
  have hcap := length_longLine maxLineBytes
  have hlonger : maxLineBytes < (longLine (maxLineBytes + 1)).length := by
    rw [length_longLine]
    exact Nat.lt_succ_self _
  exact ⟨texts_whole hline, texts_parts hline hcap, not_free_cap hline hcap, texts_whole hlong,
    not_free_long hlong hlonger⟩

/-! ### The sink among its users -/

/-- The sink has the same parts, and has emitted the same lines. -/
def Shows (w : World) (s : Streams) : Prop :=
  (∀ stderr, w.sink.part stderr = s.part stderr) ∧
    w.emitted.map (fun ln => (ln.stderr, ln.text)) =
      s.emitted.map fun e => (e.stderr, LiveSink.text e.text)

/-- A turn of a write cuts off the next of its lines. -/
theorem cut_some {p rest : List UInt8} {text : String} (h : LiveSink.cut p = some (text, rest)) :
    ∃ e, text = LiveSink.text e.1 ∧ pieces p = (e :: (pieces rest).1, (pieces rest).2) := by
  unfold LiveSink.cut at h
  split at h
  · rename_i hin
    obtain ⟨l, q, rfl, hl⟩ := List.eq_append_cons_of_mem hin
    obtain ⟨htake, hdrop⟩ := Lines.takeWhile_line hl q
    rw [htake, hdrop] at h
    cases h
    exact ⟨(l, true), rfl, pieces_line hl q⟩
  · rename_i hnone
    split at h <;> cases h
    rename_i hlong
    have hrest : 10 ∉ p.drop maxLineBytes := fun hin => hnone (List.mem_of_mem_drop hin)
    refine ⟨(p.take maxLineBytes, false), rfl, ?_⟩
    rw [pieces_open hnone, pieces_open hrest, Blocks.cut_long maxLineBytes_pos hlong]
    rfl

theorem cut_none {p : List UInt8} (h : LiveSink.cut p = none) : pieces p = ([], p) := by
  unfold LiveSink.cut at h
  split at h
  · cases h
  · rename_i hnone
    split at h
    · cases h
    · rename_i hshort
      exact pieces_part (not_le.mp hshort) hnone

namespace LiveSink

theorem emit_frame (s : LiveSink) (ln : Line) :
    ∃ ring chans panicked, s.emit ln = { s with ring := ring, chans := chans, panicked := panicked } := by
  have hsend : ∀ (s : LiveSink) (c : Nat),
      ∃ chans panicked, s.send c ln = { s with chans := chans, panicked := panicked } := by
    intro s c
    unfold send
    split
    · exact ⟨s.chans, s.panicked, rfl⟩
    · split
      · exact ⟨s.chans, true, rfl⟩
      · split
        · exact ⟨_, s.panicked, rfl⟩
        · exact ⟨s.chans, s.panicked, rfl⟩
  have hfold : ∀ (l : List (Nat × Nat)) (s : LiveSink),
      ∃ chans panicked, l.foldl (fun s e => s.send e.2 ln) s = { s with chans := chans, panicked := panicked } := by
    intro l
    induction l with
    | nil => exact fun s => ⟨s.chans, s.panicked, rfl⟩
    | cons e l ih =>
      intro s
      obtain ⟨chans, panicked, hfirst⟩ := hsend s e.2
      obtain ⟨chans', panicked', hrest⟩ := ih { s with chans := chans, panicked := panicked }
      exact ⟨chans', panicked', by rw [List.foldl_cons, hfirst, hrest]⟩
  obtain ⟨chans, panicked, h⟩ := hfold s.subs.toList { s with ring := s.ring.emit ln }
  exact ⟨s.ring.emit ln, chans, panicked, h⟩

theorem part_emit (s : LiveSink) (ln : Line) (stderr : Bool) : (s.emit ln).part stderr = s.part stderr := by
  obtain ⟨ring, chans, panicked, h⟩ := s.emit_frame ln
  rw [h]
  rfl

theorem writing_emit (s : LiveSink) (ln : Line) : (s.emit ln).writing = s.writing := by
  obtain ⟨ring, chans, panicked, h⟩ := s.emit_frame ln
  rw [h]

theorem part_setPart (s : LiveSink) (stderr stderr' : Bool) (p : List UInt8) :
    (s.setPart stderr p).part stderr' = if stderr' = stderr then p else s.part stderr' := by
  cases stderr <;> cases stderr' <;> rfl

theorem writing_setPart (s : LiveSink) (stderr : Bool) (p : List UInt8) :
    (s.setPart stderr p).writing = s.writing := by
  cases stderr <;> rfl

end LiveSink

/-- A turn emits the first line of what is being written. -/
theorem turn_line {stderr : Bool} {w : World} (hwriting : w.sink.writing = some stderr) {e : List UInt8 × Bool}
    {rest : List UInt8} (hcut : LiveSink.cut (w.sink.part stderr) = some (LiveSink.text e.1, rest)) (t : Int) :
    ∃ next, World.machine.step w (.turn t) = some next ∧ next.sink.writing = some stderr ∧
      (∀ stderr', next.sink.part stderr' = if stderr' = stderr then rest else w.sink.part stderr') ∧
      next.emitted = w.emitted ++ [⟨t, stderr, LiveSink.text e.1⟩] := by
  refine ⟨{ w with
    sink := (w.sink.setPart stderr rest).emit ⟨t, stderr, LiveSink.text e.1⟩
    emitted := w.emitted ++ [⟨t, stderr, LiveSink.text e.1⟩] }, ?_, ?_, ?_, rfl⟩
  · simp [World.machine, World.step, hwriting, hcut]
  · rw [LiveSink.writing_emit, LiveSink.writing_setPart, hwriting]
  · intro stderr'
    rw [LiveSink.part_emit, LiveSink.part_setPart]

/-- The turns of a write emit its lines, one after the other, and give the lock back. -/
theorem turns_show {stderr : Bool} (now : Int) {times : List Int} {w : World}
    (hwriting : w.sink.writing = some stderr) (h : times.length = (pieces (w.sink.part stderr)).1.length) :
    ∃ w', World.machine.run w (times.map .turn ++ [.turn now]) = some w' ∧ w'.sink.writing = none ∧
      (∀ stderr', w'.sink.part stderr' =
        if stderr' = stderr then (pieces (w.sink.part stderr)).2 else w.sink.part stderr') ∧
      w'.emitted.map (fun ln => (ln.stderr, ln.text)) = w.emitted.map (fun ln => (ln.stderr, ln.text)) ++
        (pieces (w.sink.part stderr)).1.map fun e => (stderr, LiveSink.text e.1) := by
  induction times generalizing w with
  | nil =>
    cases hcut : LiveSink.cut (w.sink.part stderr) with
    | some r =>
      obtain ⟨e, -, hpieces⟩ := cut_some hcut
      rw [hpieces] at h
      cases h
    | none =>
      have hpieces := cut_none hcut
      refine ⟨{ w with sink := { w.sink with writing := none } }, ?_, rfl, ?_, ?_⟩
      · simp [World.machine, System.run, World.step, hwriting, hcut]
      · intro stderr'
        rw [hpieces]
        by_cases hs : stderr' = stderr
        · subst hs
          rw [if_pos rfl]
          rfl
        · rw [if_neg hs]
          rfl
      · simp [hpieces]
  | cons t times ih =>
    cases hcut : LiveSink.cut (w.sink.part stderr) with
    | none =>
      rw [cut_none hcut] at h
      cases h
    | some r =>
      obtain ⟨text, rest⟩ := r
      obtain ⟨e, rfl, hpieces⟩ := cut_some hcut
      obtain ⟨next, hstep, hwriting', hpart, hnext⟩ := turn_line hwriting hcut t
      have hown : next.sink.part stderr = rest := by rw [hpart, if_pos rfl]
      rw [hpieces, List.length_cons, List.length_cons] at h
      obtain ⟨w', hrun, hidle, hparts, hemitted⟩ := ih hwriting' (by rw [hown]; omega)
      refine ⟨w', ?_, hidle, ?_, ?_⟩
      · rw [List.map_cons, List.cons_append]
        exact (World.machine.run_cons).mpr ⟨next, hstep, hrun⟩
      · intro stderr'
        rw [hparts, hown, hpieces, hpart]
        split <;> rfl
      · rw [hemitted, hown, hpieces, hnext]
        simp

/-- A write of the model and its turns leave what a write of the streams leaves. -/
theorem write_shown {w : World} {s : Streams} (hw : Shows w s) (hopen : w.sink.closed = false)
    (hidle : w.sink.writing = none) (stderr : Bool) (p : List UInt8) {times : List Int} (now : Int)
    (h : times.length = (pieces (s.part stderr ++ p)).1.length) :
    ∃ w', World.machine.run w (.write stderr p :: (times.map .turn ++ [.turn now])) = some w' ∧
      w'.sink.writing = none ∧ Shows w' (s.write stderr p) := by
  obtain ⟨hsame, hemitted⟩ := hw
  let begun : World := { w with sink := w.sink.write stderr p }
  have hstep : World.machine.step w (.write stderr p) = some begun := by
    simp [World.machine, World.step, hidle, begun]
  have hwrite : w.sink.write stderr p =
      { w.sink.setPart stderr (w.sink.part stderr ++ p) with writing := some stderr } := by
    rw [LiveSink.write, if_neg (by rw [hopen]; exact Bool.false_ne_true)]
  have hpart : ∀ stderr', begun.sink.part stderr' =
      if stderr' = stderr then s.part stderr ++ p else s.part stderr' := by
    intro stderr'
    show (w.sink.write stderr p).part stderr' = _
    rw [hwrite, ← hsame stderr, ← hsame stderr']
    exact LiveSink.part_setPart w.sink stderr stderr' _
  have hown : begun.sink.part stderr = s.part stderr ++ p := by rw [hpart, if_pos rfl]
  have hwriting : begun.sink.writing = some stderr := by
    show (w.sink.write stderr p).writing = _
    rw [hwrite]
  obtain ⟨w', hrun, hidle', hparts, hall⟩ := turns_show now hwriting (by rw [hown]; exact h)
  refine ⟨w', World.machine.run_cons.mpr ⟨begun, hstep, hrun⟩, hidle', ?_, ?_⟩
  · intro stderr'
    rw [hparts, hown, Streams.part_write, hpart]
    split <;> rfl
  · show _ = (s.emitted ++ _).map _
    rw [hall, hown, List.map_append, List.map_map]
    exact congrArg (· ++ _) hemitted

end Marshal.Logs
