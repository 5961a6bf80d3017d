import Mathlib.Data.List.Sort
import Mathlib.Data.String.Basic
import Marshal.Lib.Keyed
import Marshal.Lib.Repeats
import Marshal.Lib.Tail
import Marshal.Logs.Writes

/-! Backfill from the rotated files.

`fileBackfill` lists a stream's files by name, the newest first, reads them until it has
as many lines as were asked for, and returns the last of them. Each segment is read
without a blank line at its end, and one that is there both plain and compressed is read
twice; a compressed file that is cut short fails the whole call (`file_backfill_iff`). -/
namespace Marshal.Logs

/-! ### Reading one file -/

/-- The gzip reader: nothing for bytes without a header, else the data, or an error on the way. -/
abbrev Gunzip := List UInt8 → Option (Except String (List UInt8))

/-- The files of a directory, by name. One that does not exist has none. -/
abbrev Dir := List (String × List UInt8)

/-- What `ReadString` gives up to the end, without the newlines. -/
def readStrings (data : List UInt8) : List (List UInt8) :=
  let r := newlineLoop data
  if r.2 = [] then r.1 else r.1 ++ [r.2]

/-- The lines that are read of a segment's data. An empty one at the end is dropped. -/
def dataLines (data : List UInt8) : List (List UInt8) :=
  let lines := readStrings data
  if lines.getLast? = some [] then lines.dropLast else lines

def HasSuffix (name suffix : String) : Bool := suffix.toList.isSuffixOf name.toList

variable (gunzip : Gunzip)

/-- A missing file has no lines, and a compressed file without a header is skipped. -/
def readSegmentLines (dir : Dir) (name : String) : Except String (List (List UInt8)) :=
  match dir.lookup name with
  | none => .ok []
  | some bytes =>
    if HasSuffix name ".gz" then match gunzip bytes with
      | none => .ok []
      | some (.error text) => .error text
      | some (.ok data) => .ok (dataLines data)
    else .ok (dataLines bytes)

/-! ### The scan -/

/-- A line without its time. -/
structure FileLine where
  stderr : Bool
  text : List UInt8
  deriving DecidableEq

/-- What the names of one stream's files begin with. -/
def streamBase (label : String) (stderr : Bool) : String :=
  label ++ "." ++ if stderr then "err" else "out"

def isRotated (base name : String) : Bool :=
  (base ++ "-").toList.isPrefixOf name.toList && (HasSuffix name ".log" || HasSuffix name ".log.gz")

/-- The files in turn, each read if fewer than `n` lines are there before it. -/
def scan (read : String → Except String (List (List UInt8))) (n : Int) :
    List String → List (List (List UInt8)) → Nat → Except String (List (List (List UInt8)))
  | [], segs, _ => .ok segs
  | fn :: rest, segs, total =>
    if 0 < n ∧ n ≤ total then .ok segs
    else match read fn with
      | .error text => .error text
      | .ok lines =>
        if lines = [] then scan read n rest segs total
        else scan read n rest (segs ++ [lines]) (total + lines.length)

/-- The active file, and the rotated ones from the newest on. -/
def backfillOrder (dir : Dir) (base : String) : List String :=
  (base ++ ".log") :: ((dir.map Prod.fst).filter (isRotated base)).insertionSort (· ≥ ·)

def fileBackfill (dir : Dir) (label : String) (stderr : Bool) (n : Int) : Except String (List FileLine) :=
  let order := backfillOrder dir (streamBase label stderr)
  match scan (readSegmentLines gunzip dir) n order [] 0 with
  | .error text => .error text
  | .ok segs =>
    let out := segs.reverse.flatten.map fun text => ⟨stderr, text⟩
    .ok (if 0 < n ∧ n < out.length then out.drop (out.length - n.toNat) else out)

/-! ### The segments -/

/-- All lines of a text, those of no characters and one without a newline at the end included. -/
def textLines (data : List UInt8) : List (List UInt8) :=
  (Lines.cut 10 data).1 ++ if (Lines.cut 10 data).2 = [] then [] else [(Lines.cut 10 data).2]

/-- A rotated segment of a stream, with the bytes of its compressed file where there is one. -/
structure Segment where
  stamp : String
  data : List UInt8
  plain : Bool := true
  gz : Option (List UInt8) := none

namespace Segment

def plainName (base : String) (g : Segment) : String := base ++ "-" ++ g.stamp ++ ".log"

def gzName (base : String) (g : Segment) : String := base ++ "-" ++ g.stamp ++ ".log.gz"

def files (base : String) (g : Segment) : Dir :=
  (if g.plain then [(g.plainName base, g.data)] else []) ++ (g.gz.map fun bytes => (g.gzName base, bytes)).toList

/-- Its compressed file is that of its data or is not written to the end, and its plain file is removed
only after that. -/
structure Kept (g : Segment) : Prop where
  same : ∀ bytes data, g.gz = some bytes → gunzip bytes = some (.ok data) → data = g.data
  there : g.plain = false → ∃ bytes, g.gz = some bytes ∧ gunzip bytes = some (.ok g.data)

/-- The compressed file breaks off behind its header. -/
def CutShort (g : Segment) : Prop := ∃ bytes text, g.gz = some bytes ∧ gunzip bytes = some (.error text)

/-- Whether the compressed file has the data. -/
def compressed (g : Segment) : Bool :=
  match g.gz with
  | none => false
  | some bytes => match gunzip bytes with
    | some (.ok _) => true
    | _ => false

/-- How often it is there. -/
def copies (g : Segment) : Nat := (if g.plain then 1 else 0) + if g.compressed gunzip then 1 else 0

end Segment

/-- The directory has the stream's segments, the oldest first, and `active` in its active file. -/
structure Holds (dir : Dir) (base : String) (rotated : List Segment) (active : List UInt8) : Prop where
  names : (dir.map Prod.fst).Nodup
  files : (dir.filter fun e => isRotated base e.1).Perm (rotated.flatMap (Segment.files base))
  active : (dir.lookup (base ++ ".log")).getD [] = active
  stamps : rotated.Pairwise fun g g' => g.stamp < g'.stamp ∧ g.stamp.length = g'.stamp.length
  kept : ∀ g ∈ rotated, g.Kept gunzip

/-- The lines of all segments, the active one last. -/
def segmentLines (rotated : List Segment) (active : List UInt8) : List (List UInt8) :=
  rotated.flatMap (fun g => textLines g.data) ++ textLines active

/-- The segments' lines, with how often each is there. -/
def parts (rotated : List Segment) (active : List UInt8) : List (List (List UInt8) × Nat) :=
  rotated.map (fun g => (textLines g.data, g.copies gunzip)) ++ [(textLines active, 1)]

/-! ### What one file gives -/

theorem readStrings_eq (data : List UInt8) : readStrings data = textLines data := by
  unfold readStrings textLines
  rw [newlineLoop_eq]
  split
  · rename_i hnil
    rw [if_pos hnil, List.append_nil]
  · rename_i hrest
    rw [if_neg hrest]

theorem dataLines_eq (data : List UInt8) : dataLines data = Repeats.chop [] (textLines data) := by
  unfold dataLines
  rw [readStrings_eq]
  rfl

/-! ### What the scan gathers -/

section Scan
variable {read : String → Except String (List (List UInt8))} {n : Int}

/-- The lines of a file, none where it fails. -/
def got (read : String → Except String (List (List UInt8))) (fn : String) : List (List UInt8) :=
  match read fn with
  | .error _ => []
  | .ok lines => lines

/-- Where no file fails the scan has the tail of all lines. -/
theorem scan_ok (hn : 0 < n) {order : List String} (h : ∀ fn ∈ order, read fn = .ok (got read fn))
    (segs : List (List (List UInt8))) :
    ∃ segs', scan read n order segs segs.flatten.length = .ok segs' ∧
      segs'.reverse.flatten.rtake n.toNat =
        ((order.map (got read)).reverse.flatten ++ segs.reverse.flatten).rtake n.toNat := by
  induction order generalizing segs with
  | nil => exact ⟨segs, rfl, rfl⟩
  | cons fn rest ih =>
    have hrest : ∀ fn ∈ rest, read fn = .ok (got read fn) := fun fn' h' => h fn' (List.mem_cons_of_mem _ h')
    unfold scan
    by_cases hfull : 0 < n ∧ n ≤ segs.flatten.length
    · refine ⟨segs, if_pos hfull, ?_⟩
      rw [Tail.rtake_append]
      have hlength : segs.reverse.flatten.length = segs.flatten.length := by
        simp [List.length_flatten, List.map_reverse, List.sum_reverse]
      omega
    · rw [if_neg hfull, h fn List.mem_cons_self]
      simp only
      by_cases hempty : got read fn = []
      · obtain ⟨segs', hscan, htail⟩ := ih hrest segs
        rw [if_pos hempty]
        exact ⟨segs', hscan, by simp [htail, hempty]⟩
      · obtain ⟨segs', hscan, htail⟩ := ih hrest (segs ++ [got read fn])
        rw [if_neg hempty]
        refine ⟨segs', ?_, ?_⟩
        · rw [← hscan]
          congr 1
          simp
        · rw [htail]
          simp

/-- A file that fails is reached where more lines are asked for than the others have. -/
theorem scan_error {order : List String} {fn : String} (hmem : fn ∈ order) {text : String}
    (hfail : read fn = .error text) (segs : List (List (List UInt8))) {total : Nat}
    (h : total + (order.map (got read)).flatten.length < n) :
    ∃ text, scan read n order segs total = .error text := by
  induction order generalizing segs total with
  | nil => cases hmem
  | cons fn' rest ih =>
    rw [List.map_cons, List.flatten_cons, List.length_append] at h
    have hshort : ¬ (0 < n ∧ n ≤ total) := by omega
    unfold scan
    rw [if_neg hshort]
    cases hread : read fn' with
    | error text' => exact ⟨text', rfl⟩
    | ok lines =>
      have hlines : got read fn' = lines := by
        unfold got
        rw [hread]
      rw [hlines] at h
      have hrest : fn ∈ rest := by
        rcases List.mem_cons.mp hmem with rfl | hrest
        · rw [hfail] at hread
          cases hread
        · exact hrest
      simp only
      split
      · rename_i hempty
        subst hempty
        exact ih hrest segs (by simpa using h)
      · exact ih hrest _ (by push_cast; omega)

end Scan

/-! ### The order of the names -/

theorem append_lt_append {s s' x y : List Char} (hlen : s.length = s'.length) (h : s < s') :
    s ++ x < s' ++ y := by
  induction s generalizing s' with
  | nil =>
    rw [List.eq_nil_of_length_eq_zero hlen.symm] at h
    exact absurd h (List.not_lt_nil [])
  | cons c s ih =>
    cases s' with
    | nil => cases hlen
    | cons c' s' =>
      rw [List.cons_append, List.cons_append, List.cons_lt_cons_iff]
      rcases List.cons_lt_cons_iff.mp h with hc | ⟨rfl, hs⟩
      · exact Or.inl hc
      · exact Or.inr ⟨rfl, ih (Nat.succ.inj hlen) hs⟩

variable {gunzip}

namespace Segment
variable {base : String} {g g' : Segment}

/-- The names of its files, in order. -/
def fileNames (base : String) (g : Segment) : List String := (g.files base).map Prod.fst

theorem mem_files {e : String × List UInt8} : e ∈ g.files base ↔
    g.plain = true ∧ e = (g.plainName base, g.data) ∨ ∃ bytes, g.gz = some bytes ∧ e = (g.gzName base, bytes) := by
  unfold files
  rw [List.mem_append, Option.mem_toList, Option.map_eq_some_iff]
  refine or_congr ?_ (exists_congr fun bytes => and_congr_right fun _ => eq_comm)
  split
  · rename_i hplain
    simp [hplain]
  · rename_i hplain
    simp [hplain]

theorem fileNames_cases {name : String} (h : name ∈ g.fileNames base) :
    name = g.plainName base ∨ name = g.gzName base := by
  obtain ⟨e, he, rfl⟩ := List.mem_map.mp h
  rcases mem_files.mp he with ⟨-, rfl⟩ | ⟨bytes, -, rfl⟩
  · exact Or.inl rfl
  · exact Or.inr rfl

/-- The name of the compressed file comes after that of the plain one. -/
theorem fileNames_sorted (base : String) (g : Segment) : (g.fileNames base).Pairwise (· < ·) := by
  have hlt : g.plainName base < g.gzName base := by
    rw [String.lt_iff_toList_lt]
    unfold plainName gzName
    simp only [String.toList_append, List.append_assoc]
    refine List.append_left_lt (List.append_left_lt (List.append_left_lt ?_))
    decide
  unfold fileNames files
  cases g.gz with
  | none =>
    split
    · exact List.pairwise_singleton _ _
    · exact List.Pairwise.nil
  | some bytes =>
    split
    · exact List.pairwise_pair.mpr hlt
    · exact List.pairwise_singleton _ _

/-- The files of an older segment come before. -/
theorem fileNames_lt (hstamp : g.stamp < g'.stamp) (hlen : g.stamp.length = g'.stamp.length) {name name' : String}
    (h : name ∈ g.fileNames base) (h' : name' ∈ g'.fileNames base) : name < name' := by
  have hlists : ∀ x y, (base ++ "-" ++ g.stamp ++ x : String) < base ++ "-" ++ g'.stamp ++ y := by
    intro x y
    rw [String.lt_iff_toList_lt]
    simp only [String.toList_append, List.append_assoc]
    refine List.append_left_lt (List.append_left_lt (append_lt_append ?_ (String.lt_iff_toList_lt.mp hstamp)))
    rw [String.length_toList, String.length_toList, hlen]
  rcases fileNames_cases h with rfl | rfl <;> rcases fileNames_cases h' with rfl | rfl <;> exact hlists _ _

end Segment

variable {dir : Dir} {base : String} {rotated : List Segment} {active : List UInt8}

/-- The files are read from the newest to the oldest. -/
theorem backfillOrder_eq (h : Holds gunzip dir base rotated active) :
    backfillOrder dir base = (base ++ ".log") :: (rotated.flatMap (Segment.fileNames base)).reverse := by
  have hsorted : (rotated.flatMap (Segment.fileNames base)).Pairwise (· < ·) := by
    rw [List.pairwise_flatMap]
    refine ⟨fun g _ => g.fileNames_sorted base, h.stamps.imp ?_⟩
    rintro g g' ⟨hstamp, hlen⟩ name hname name' hname'
    exact Segment.fileNames_lt hstamp hlen hname hname'
  have hperm : ((dir.map Prod.fst).filter (isRotated base)).Perm (rotated.flatMap (Segment.fileNames base)) := by
    have hnames := h.files.map Prod.fst
    rw [List.map_flatMap] at hnames
    rw [List.filter_map]
    exact hnames
  unfold backfillOrder
  refine congrArg _ (List.Perm.eq_of_pairwise' (r := (· ≥ ·)) (List.pairwise_insertionSort _ _) ?_ ?_)
  · rw [List.pairwise_reverse]
    exact hsorted.imp le_of_lt
  · exact (List.perm_insertionSort _ _).trans (hperm.trans (List.reverse_perm _).symm)

/-! ### What the segments give -/

theorem hasSuffix_gz (s : String) : HasSuffix (s ++ ".log.gz") ".gz" = true := by
  unfold HasSuffix
  rw [List.isSuffixOf_iff_suffix, String.toList_append]
  exact ⟨s.toList ++ ".log".toList, by rw [List.append_assoc]; rfl⟩

theorem hasSuffix_log (s : String) : HasSuffix (s ++ ".log") ".gz" = false := by
  unfold HasSuffix
  rw [Bool.eq_false_iff, ne_eq, List.isSuffixOf_iff_suffix, String.toList_append]
  rintro ⟨front, hfront⟩
  have hlast := congrArg List.getLast? hfront
  rw [List.getLast?_append_of_ne_nil _ (by decide), List.getLast?_append_of_ne_nil _ (by decide)] at hlast
  exact absurd hlast (by decide)

theorem read_of_mem (h : Holds gunzip dir base rotated active) {e : String × List UInt8}
    (he : e ∈ dir) : dir.lookup e.1 = some e.2 :=
  (Keyed.lookup_eq_some_iff h.names).mpr he

theorem files_mem (h : Holds gunzip dir base rotated active) {g : Segment} (hg : g ∈ rotated)
    {e : String × List UInt8} (he : e ∈ g.files base) : e ∈ dir :=
  (List.mem_filter.mp (h.files.symm.subset (List.mem_flatMap.mpr ⟨g, hg, he⟩))).1

theorem read_plain (h : Holds gunzip dir base rotated active) {g : Segment} (hg : g ∈ rotated)
    (hplain : g.plain = true) :
    readSegmentLines gunzip dir (g.plainName base) = .ok (dataLines g.data) := by
  have hlookup := read_of_mem h (files_mem h hg (Segment.mem_files.mpr (Or.inl ⟨hplain, rfl⟩)))
  unfold readSegmentLines
  rw [hlookup]
  simp only
  rw [Segment.plainName, hasSuffix_log]
  rfl

theorem read_gz (h : Holds gunzip dir base rotated active) {g : Segment} (hg : g ∈ rotated)
    {bytes : List UInt8} (hgz : g.gz = some bytes) :
    readSegmentLines gunzip dir (g.gzName base) = match gunzip bytes with
      | none => .ok []
      | some (.error text) => .error text
      | some (.ok data) => .ok (dataLines data) := by
  have hlookup := read_of_mem h (files_mem h hg (Segment.mem_files.mpr (Or.inr ⟨bytes, hgz, rfl⟩)))
  unfold readSegmentLines
  rw [hlookup]
  simp only
  rw [Segment.gzName, hasSuffix_gz, if_pos rfl]

/-- The active file is no rotated one, and plain. -/
theorem read_active (h : Holds gunzip dir base rotated active) :
    readSegmentLines gunzip dir (base ++ ".log") = .ok (dataLines active) := by
  have hactive := h.active
  unfold readSegmentLines
  cases hlookup : dir.lookup (base ++ ".log") with
  | none =>
    rw [hlookup] at hactive
    have hnil : dataLines [] = [] := by
      rw [dataLines_eq]
      rfl
    rw [← hactive]
    exact congrArg Except.ok hnil.symm
  | some bytes =>
    rw [hlookup] at hactive
    simp only
    rw [hasSuffix_log, ← hactive]
    rfl

/-- A compressed file that does not break off has the segment's data, or is skipped. -/
theorem read_gz_whole (h : Holds gunzip dir base rotated active) {g : Segment} (hg : g ∈ rotated)
    (hcut : ¬ g.CutShort gunzip) {bytes : List UInt8} (hgz : g.gz = some bytes) :
    readSegmentLines gunzip dir (g.gzName base) =
      .ok (if g.compressed gunzip then dataLines g.data else []) := by
  rw [read_gz h hg hgz]
  cases hbytes : gunzip bytes with
  | none => simp [Segment.compressed, hgz, hbytes]
  | some r =>
    cases r with
    | error text => exact absurd ⟨bytes, text, hgz, hbytes⟩ hcut
    | ok data =>
      obtain rfl := (h.kept g hg).same bytes data hgz hbytes
      simp [Segment.compressed, hgz, hbytes]

theorem got_ok {read : String → Except String (List (List UInt8))} {fn : String} {lines : List (List UInt8)}
    (h : read fn = .ok lines) : got read fn = lines := by
  unfold got
  rw [h]

/-- What is read of one segment's files. -/
theorem got_files (h : Holds gunzip dir base rotated active) {g : Segment} (hg : g ∈ rotated)
    (hcut : ¬ g.CutShort gunzip) :
    (∀ fn ∈ g.fileNames base, ∃ lines, readSegmentLines gunzip dir fn = .ok lines) ∧
      ((g.fileNames base).map (got (readSegmentLines gunzip dir))).flatten =
        (List.replicate (g.copies gunzip) (Repeats.chop [] (textLines g.data))).flatten := by
  rw [← dataLines_eq]
  refine ⟨?_, ?_⟩
  · intro fn hfn
    obtain ⟨e, he, rfl⟩ := List.mem_map.mp hfn
    rcases Segment.mem_files.mp he with ⟨hplain, rfl⟩ | ⟨bytes, hgz, rfl⟩
    · exact ⟨_, read_plain h hg hplain⟩
    · exact ⟨_, read_gz_whole h hg hcut hgz⟩
  · have hnames : g.fileNames base = (if g.plain then [g.plainName base] else []) ++
        (g.gz.map fun _ => g.gzName base).toList := by
      unfold Segment.fileNames Segment.files
      cases g.gz <;> split <;> rfl
    have hplain : ((if g.plain then [g.plainName base] else []).map
        (got (readSegmentLines gunzip dir))).flatten =
          (List.replicate (if g.plain then 1 else 0) (dataLines g.data)).flatten := by
      split
      · rename_i hplain
        rw [List.map_singleton, got_ok (read_plain h hg hplain), List.replicate_one]
      · rfl
    have hgz : ((g.gz.map fun _ => g.gzName base).toList.map (got (readSegmentLines gunzip dir))).flatten =
        (List.replicate (if g.compressed gunzip then 1 else 0) (dataLines g.data)).flatten := by
      cases hgz : g.gz with
      | none =>
        have hnone : g.compressed gunzip = false := by
          unfold Segment.compressed
          rw [hgz]
        rw [hnone]
        rfl
      | some bytes =>
        rw [Option.map_some, Option.toList_some, List.map_singleton, got_ok (read_gz_whole h hg hcut hgz)]
        split <;> rfl
    unfold Segment.copies
    rw [hnames, List.map_append, List.flatten_append, hplain, hgz, ← List.flatten_append,
      List.replicate_append_replicate]

theorem copies_pos (h : Holds gunzip dir base rotated active) :
    ∀ e ∈ parts gunzip rotated active, 0 < e.2 := by
  intro e he
  rcases List.mem_append.mp he with he | he
  · obtain ⟨g, hg, rfl⟩ := List.mem_map.mp he
    show 0 < g.copies gunzip
    unfold Segment.copies
    cases hplain : g.plain with
    | true =>
      rw [if_pos rfl]
      omega
    | false =>
      obtain ⟨bytes, hgz, hwhole⟩ := (h.kept g hg).there hplain
      have hcompressed : g.compressed gunzip = true := by
        unfold Segment.compressed
        rw [hgz]
        simp only [hwhole]
      rw [hcompressed, if_pos rfl]
      omega
  · rw [List.mem_singleton.mp he]
    exact Nat.one_pos

/-- All that the files give, the oldest first, if none breaks off. -/
theorem got_all (h : Holds gunzip dir base rotated active) (hcut : ∀ g ∈ rotated, ¬ g.CutShort gunzip) :
    (∀ fn ∈ backfillOrder dir base, ∃ lines, readSegmentLines gunzip dir fn = .ok lines) ∧
      ((backfillOrder dir base).map (got (readSegmentLines gunzip dir))).reverse.flatten =
        Repeats.written [] (parts gunzip rotated active) := by
  rw [backfillOrder_eq h]
  refine ⟨?_, ?_⟩
  · intro fn hfn
    rcases List.mem_cons.mp hfn with rfl | hfn
    · exact ⟨_, read_active h⟩
    · obtain ⟨g, hg, hfn⟩ := List.mem_flatMap.mp (List.mem_reverse.mp hfn)
      exact (got_files h hg (hcut g hg)).1 fn hfn
  · rw [List.map_cons, List.reverse_cons, List.map_reverse, List.reverse_reverse, List.flatten_append,
      List.flatten_singleton, got_ok (read_active h), dataLines_eq]
    have hrotated : ((rotated.flatMap (Segment.fileNames base)).map (got (readSegmentLines gunzip dir))).flatten =
        rotated.flatMap fun g => (List.replicate (g.copies gunzip) (Repeats.chop [] (textLines g.data))).flatten := by
      rw [List.map_flatMap, ← List.flatMap_id, List.flatMap_assoc]
      refine List.flatMap_congr fun g hg => ?_
      rw [List.flatMap_id]
      exact (got_files h hg (hcut g hg)).2
    unfold parts Repeats.written
    rw [hrotated, List.flatMap_append, List.flatMap_map]
    simp

/-- Asked for `n` lines, the tail of what the files give. -/
theorem fileBackfill_ok {label : String} {stderr : Bool} (h : Holds gunzip dir (streamBase label stderr) rotated active)
    (hcut : ∀ g ∈ rotated, ¬ g.CutShort gunzip) {n : Int} (hn : 0 < n) :
    fileBackfill gunzip dir label stderr n =
      .ok (((Repeats.written [] (parts gunzip rotated active)).rtake n.toNat).map (⟨stderr, ·⟩)) := by
  obtain ⟨hok, hall⟩ := got_all h hcut
  have hgot : ∀ fn ∈ backfillOrder dir (streamBase label stderr),
      readSegmentLines gunzip dir fn = .ok (got (readSegmentLines gunzip dir) fn) := by
    intro fn hfn
    obtain ⟨lines, hlines⟩ := hok fn hfn
    rw [got_ok hlines, hlines]
  obtain ⟨segs, hscan, htail⟩ := scan_ok hn hgot []
  rw [List.reverse_nil, List.flatten_nil, List.append_nil, hall] at htail
  unfold fileBackfill
  simp only
  rw [List.flatten_nil, List.length_nil] at hscan
  rw [hscan, ← htail]
  simp only [List.rtake, List.map_drop, List.length_map]
  split
  · rfl
  · rw [Nat.sub_eq_zero_of_le (by omega), List.drop_zero]

/-- **The last lines of all segments are given, however many are asked for, exactly if no compressed file
breaks off, no segment with a line of some characters is there twice, and before, between and behind such
segments as many blank lines are read twice as are dropped at the ends of segments.** -/
theorem file_backfill_iff (gunzip : Gunzip) (dir : Dir) (label : String) (stderr : Bool) (rotated : List Segment)
    (active : List UInt8) (h : Holds gunzip dir (streamBase label stderr) rotated active) :
    (∀ n : Int, 0 < n → fileBackfill gunzip dir label stderr n =
        .ok (((segmentLines rotated active).rtake n.toNat).map (⟨stderr, ·⟩))) ↔
      (∀ g ∈ rotated, ¬ g.CutShort gunzip) ∧ Repeats.Balanced [] 0 (parts gunzip rotated active) := by
  have hwhole : Repeats.whole (parts gunzip rotated active) = segmentLines rotated active := by
    unfold Repeats.whole parts segmentLines
    rw [List.flatMap_append, List.flatMap_map]
    simp
  rw [← Repeats.written_eq_iff (copies_pos h), hwhole]
  constructor
  · intro hall
    have hcut : ∀ g ∈ rotated, ¬ g.CutShort gunzip := by
      rintro g hg ⟨bytes, text, hgz, hbytes⟩
      have hmem : g.gzName (streamBase label stderr) ∈ backfillOrder dir (streamBase label stderr) := by
        rw [backfillOrder_eq h]
        refine List.mem_cons_of_mem _ (List.mem_reverse.mpr (List.mem_flatMap.mpr ⟨g, hg, ?_⟩))
        exact List.mem_map.mpr ⟨_, Segment.mem_files.mpr (Or.inr ⟨bytes, hgz, rfl⟩), rfl⟩
      have hfail : readSegmentLines gunzip dir (g.gzName (streamBase label stderr)) = .error text := by
        rw [read_gz h hg hgz, hbytes]
      -- More lines than all other files have.
      obtain ⟨n, hn⟩ : ∃ n : Int, ((0 : Nat) + ((backfillOrder dir (streamBase label stderr)).map
          (got (readSegmentLines gunzip dir))).flatten.length : Int) < n := ⟨_, Int.lt_succ _⟩
      obtain ⟨text', hscan⟩ := scan_error hmem hfail [] hn
      have hsame := hall n (by omega)
      unfold fileBackfill at hsame
      simp only at hsame
      rw [hscan] at hsame
      cases hsame
    refine ⟨hcut, Tail.forall_rtake_iff.mp fun n hn => ?_⟩
    have hn' : (0 : Int) < n := by omega
    have hsame := (fileBackfill_ok h hcut hn').symm.trans (hall n hn')
    rw [Except.ok.injEq, Int.toNat_natCast] at hsame
    exact List.map_injective_iff.mpr (fun _ _ heq => (FileLine.mk.inj heq).2) hsame
  · rintro ⟨hcut, hsame⟩ n hn
    rw [fileBackfill_ok h hcut hn, hsame]

/-- A rotated segment and an active file. -/
def twoFiles : Dir :=
  [("app#0.err.log", [101, 10]), ("app#0.out-2026-06-17T10-00-00.000.log", [97, 10, 10, 98, 10]),
    ("app#0.out.log", [99, 10, 100])]

def firstSegment : Segment := { stamp := "2026-06-17T10-00-00.000", data := [97, 10, 10, 98, 10] }

theorem twoFiles_holds (gunzip : Gunzip) :
    Holds gunzip twoFiles (streamBase "app#0" false) [firstSegment] [99, 10, 100] where
  names := by decide
  files := by
    have hfiles : (twoFiles.filter fun e => isRotated (streamBase "app#0" false) e.1) =
        [firstSegment].flatMap (Segment.files (streamBase "app#0" false)) := by decide +kernel
    rw [hfiles]
  active := by decide +kernel
  stamps := List.pairwise_singleton _ _
  kept := by
    intro g hg
    obtain rfl := List.mem_singleton.mp hg
    exact ⟨fun _ _ hgz => absurd hgz (by simp [firstSegment]), fun hplain => absurd hplain (by decide)⟩

/-- The last four lines of both, with the blank one. -/
theorem file_backfill_twoFiles : fileBackfill (fun _ => none) twoFiles "app#0" false 4 =
    .ok [⟨false, []⟩, ⟨false, [98]⟩, ⟨false, [99]⟩, ⟨false, [100]⟩] := by
  have hall := (file_backfill_iff (fun _ => none) twoFiles "app#0" false [firstSegment] [99, 10, 100]
    (twoFiles_holds _)).mpr ?_
  · rw [hall 4 (by decide)]
    decide
  · refine ⟨?_, by decide⟩
    intro g hg hcut
    obtain ⟨bytes, text, hgz, -⟩ := hcut
    obtain rfl := List.mem_singleton.mp hg
    cases hgz

/-- An active file that ends in a blank line. -/
def blankEnd : Dir := [("app#0.out.log", [120, 10, 10])]

/-- That line is missing. -/
theorem file_backfill_drops : Holds (fun _ => none) blankEnd (streamBase "app#0" false) [] [120, 10, 10] ∧
    segmentLines [] [120, 10, 10] = [[120], []] ∧
    fileBackfill (fun _ => none) blankEnd "app#0" false 5 = .ok [⟨false, [120]⟩] := by
  have hholds : Holds (fun _ => none) blankEnd (streamBase "app#0" false) [] [120, 10, 10] :=
    ⟨by decide, by decide +kernel, by decide +kernel, List.Pairwise.nil, fun g hg => by cases hg⟩
  refine ⟨hholds, by decide, ?_⟩
  rw [fileBackfill_ok hholds (fun g hg => by cases hg) (by decide)]
  decide

end Marshal.Logs
