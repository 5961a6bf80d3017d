import Marshal.Lib.Clean
import Marshal.Lib.Url

/-! A multiplexer of HTTP requests, as `net/http` has it.

A request goes to the pattern that matches its path. Patterns are searched segment by segment, a literal
before a wildcard before the rest of the path. What the search finds matches, and it finds something where
anything matches (`search_sound`, `search_complete`); so where no path matches two patterns the order does
not matter, and a pattern is found on each of its own paths (`search_eq`). -/
namespace ServeMux

inductive Segment where
  | literal (s : List Char)
  | wild
  /-- The slash at the end of a pattern: all that follows. -/
  | rest
  deriving DecidableEq, Repr

structure Route (α : Type*) where
  /-- Empty: any. -/
  method : List Char
  segments : List Segment
  handler : α
  deriving DecidableEq, Repr

/-! ### Patterns -/

def parseSegment (s : List Char) : Option Segment :=
  if '\x7b' ∉ s ∧ '\x7d' ∉ s then some (.literal ((Url.unescape .path s).getD s))
  else match s with
    | '\x7b' :: name =>
      if name.getLast? = some '\x7d' ∧ name.length ≠ 1 ∧ name.dropLast.all Char.isAlphanum then some .wild else none
    | _ => none

/-- The segments behind a slash; an empty one at the end is the rest. -/
def parseSegments : List (List Char) → Option (List Segment)
  | [] => some []
  | [[]] => some [.rest]
  | s :: more => do return (← parseSegment s) :: (← parseSegments more)

/-- A pattern without a host; wildcards of several segments, and `{$}`, are not read. -/
def parsePattern (pattern : List Char) : Option (List Char × List Segment) :=
  let (method, path) := match Separator.cut ' ' pattern with
    | none => ([], pattern)
    | some (method, path) => (method, path.dropWhile fun c => c = ' ' || c = '\t')
  match path with
  | '/' :: path => (parseSegments (path.splitOn '/')).map (method, ·)
  | _ => none

/-! ### Search -/

section Search
variable {α : Type*}

/-- The patterns that go on with the segment, without it. -/
def descend (s : Segment) (node : List (List Segment × α)) : List (List Segment × α) :=
  node.filterMap fun e => match e.1 with
    | [] => none
    | t :: more => if t = s then some (more, e.2) else none

/-- What is registered at the end of exactly these segments. -/
def leaf (segments : List Segment) (node : List (List Segment × α)) : Option α :=
  (node.find? fun e => e.1 = segments).map Prod.snd

/-- What is found, and the segments its wildcards stand for. -/
def search (node : List (List Segment × α)) : List (List Char) → Option (α × List (List Char))
  | [] => (leaf [] node).map (·, [])
  | s :: more =>
    (search (descend (.literal s) node) more).or <|
      (if s = ['/'] then none else (search (descend .wild node) more).map fun r => (r.1, s :: r.2)).or <|
        (leaf [.rest] node).map (·, [])

/-- The path matches the pattern, with these segments for its wildcards. -/
inductive Matches : List Segment → List (List Char) → List (List Char) → Prop
  | done : Matches [] [] []
  | rest {s : List Char} {path : List (List Char)} : Matches [.rest] (s :: path) []
  | literal {s : List Char} {pattern : List Segment} {path values : List (List Char)}
      (h : Matches pattern path values) : Matches (.literal s :: pattern) (s :: path) values
  | wild {s : List Char} {pattern : List Segment} {path values : List (List Char)} (hs : s ≠ ['/'])
      (h : Matches pattern path values) : Matches (.wild :: pattern) (s :: path) (s :: values)

variable {node : List (List Segment × α)} {a : α} {path values : List (List Char)}

theorem mem_descend {s : Segment} {pattern : List Segment} :
    (pattern, a) ∈ descend s node ↔ (s :: pattern, a) ∈ node := by
  simp only [descend, List.mem_filterMap]
  constructor
  · intro h
    obtain ⟨⟨segments, b⟩, hmem, heq⟩ := h
    cases segments with
    | nil => cases heq
    | cons t more =>
      by_cases hts : t = s
      · subst hts
        simp only [if_true, Option.some.injEq, Prod.mk.injEq] at heq
        obtain ⟨rfl, rfl⟩ := heq
        exact hmem
      · simp only [if_neg hts] at heq
        cases heq
  · intro h
    exact ⟨_, h, if_pos rfl⟩

theorem leaf_some {segments : List Segment} (h : leaf segments node = some a) : (segments, a) ∈ node := by
  obtain ⟨⟨found, b⟩, hfind, rfl⟩ := Option.map_eq_some_iff.mp h
  obtain rfl : found = segments := by simpa using List.find?_some hfind
  exact List.mem_of_find?_eq_some hfind

theorem leaf_isSome {segments : List Segment} (h : (segments, a) ∈ node) : (leaf segments node).isSome := by
  rw [leaf, Option.isSome_map, List.find?_isSome]
  exact ⟨_, h, decide_eq_true rfl⟩

/-- What is found is registered and matches. -/
theorem search_sound (h : search node path = some (a, values)) :
    ∃ pattern, (pattern, a) ∈ node ∧ Matches pattern path values := by
  induction path generalizing node values with
  | nil =>
    obtain ⟨b, hleaf, heq⟩ := Option.map_eq_some_iff.mp h
    obtain ⟨rfl, rfl⟩ := Prod.mk.inj heq
    exact ⟨[], leaf_some hleaf, .done⟩
  | cons s more ih =>
    rcases Option.or_eq_some_iff.mp h with hliteral | ⟨-, h⟩
    · obtain ⟨pattern, hmem, hmatches⟩ := ih hliteral
      exact ⟨_, mem_descend.mp hmem, .literal hmatches⟩
    rcases Option.or_eq_some_iff.mp h with hwild | ⟨-, hrest⟩
    · by_cases hs : s = ['/']
      · rw [if_pos hs] at hwild
        cases hwild
      · rw [if_neg hs] at hwild
        obtain ⟨⟨b, found⟩, hsearch, heq⟩ := Option.map_eq_some_iff.mp hwild
        obtain ⟨rfl, rfl⟩ := Prod.mk.inj heq
        obtain ⟨pattern, hmem, hmatches⟩ := ih hsearch
        exact ⟨_, mem_descend.mp hmem, .wild hs hmatches⟩
    · obtain ⟨b, hleaf, heq⟩ := Option.map_eq_some_iff.mp hrest
      obtain ⟨rfl, rfl⟩ := Prod.mk.inj heq
      exact ⟨_, leaf_some hleaf, .rest⟩

/-- Where a pattern matches, something is found. -/
theorem search_complete {pattern : List Segment} (hmem : (pattern, a) ∈ node) (h : Matches pattern path values) :
    (search node path).isSome := by
  induction h generalizing node with
  | done => exact Option.isSome_map.trans (leaf_isSome hmem)
  | rest =>
    rw [search, Option.isSome_or, Option.isSome_or, Option.isSome_map, leaf_isSome hmem, Bool.or_true, Bool.or_true]
  | literal h ih =>
    rw [search, Option.isSome_or, ih (mem_descend.mpr hmem), Bool.true_or]
  | wild hs h ih =>
    rw [search, if_neg hs, Option.isSome_or, Option.isSome_or, Option.isSome_map, ih (mem_descend.mpr hmem),
      Bool.true_or, Bool.or_true]

theorem Matches.values_unique {pattern : List Segment} {values' : List (List Char)} (h : Matches pattern path values)
    (h' : Matches pattern path values') : values = values' := by
  induction h generalizing values' with
  | done => cases h'; rfl
  | rest => cases h'; rfl
  | literal h ih =>
    cases h' with
    | literal h' => exact ih h'
  | wild hs h ih =>
    cases h' with
    | wild hs' h' => rw [ih h']

/-- No path matches both: the patterns differ in a literal or in length. -/
def apart : List Segment → List Segment → Bool
  | .rest :: _, _ | _, .rest :: _ => false
  | [], [] => false
  | [], _ :: _ | _ :: _, [] => true
  | .literal s :: p, .literal t :: q => decide (s ≠ t) || apart p q
  | _ :: p, _ :: q => apart p q

theorem apart_spec {p q : List Segment} {values' : List (List Char)} (h : apart p q = true)
    (hp : Matches p path values) : ¬ Matches q path values' := by
  intro hq
  induction hp generalizing q values' with
  | done =>
    cases hq with
    | done => cases h
  | rest =>
    cases q with
    | nil => cases h
    | cons t q => cases h
  | literal hp ih =>
    cases hq with
    | rest => cases h
    | literal hq =>
      simp only [apart, ne_eq, not_true_eq_false, decide_false, Bool.false_or] at h
      exact ih h hq
    | wild hs hq => exact ih h hq
  | wild hs hp ih =>
    cases hq with
    | rest => cases h
    | literal hq => exact ih h hq
    | wild hs' hq => exact ih h hq

/-- Each pattern is apart from the ones behind it. -/
def Apart (node : List (List Segment × α)) : Prop := node.Pairwise fun e e' => apart e.1 e'.1 = true

instance (node : List (List Segment × α)) : Decidable (Apart node) :=
  inferInstanceAs (Decidable (node.Pairwise fun e e' => apart e.1 e'.1 = true))

theorem matches_unique (hapart : Apart node) {e e' : List Segment × α} (he : e ∈ node) (he' : e' ∈ node)
    {values' : List (List Char)} (h : Matches e.1 path values) (h' : Matches e'.1 path values') : e = e' := by
  by_contra hne
  have hsymm : node.Pairwise fun e e' => ∀ values values', Matches e.1 path values → ¬ Matches e'.1 path values' :=
    hapart.imp fun hpair values values' hp => apart_spec hpair hp
  rcases List.pairwise_iff_getElem.mp hsymm with hpair
  obtain ⟨i, hi, rfl⟩ := List.getElem_of_mem he
  obtain ⟨j, hj, rfl⟩ := List.getElem_of_mem he'
  rcases Nat.lt_trichotomy i j with hlt | rfl | hlt
  · exact hpair i j hi hj hlt _ _ h h'
  · exact hne rfl
  · exact hpair j i hj hi hlt _ _ h' h

/-- Where no path matches two patterns, a pattern is found on every path that matches it. -/
theorem search_eq (hapart : Apart node) {pattern : List Segment} (hmem : (pattern, a) ∈ node)
    (h : Matches pattern path values) : search node path = some (a, values) := by
  obtain ⟨⟨b, found⟩, hsearch⟩ := Option.isSome_iff_exists.mp (search_complete hmem h)
  obtain ⟨pattern', hmem', h'⟩ := search_sound hsearch
  obtain ⟨rfl, rfl⟩ := Prod.mk.inj (matches_unique hapart hmem hmem' h h')
  rw [hsearch, h.values_unique h']

/-- A slash of its own matches no wildcard. -/
theorem Matches.slash {pattern : List Segment} (h : Matches pattern path values) (hslash : ['/'] ∈ path) :
    .literal ['/'] ∈ pattern ∨ .rest ∈ pattern := by
  induction h with
  | done => cases hslash
  | rest => exact .inr List.mem_cons_self
  | literal h ih =>
    rcases List.mem_cons.mp hslash with rfl | hslash
    · exact .inl List.mem_cons_self
    · exact (ih hslash).imp (List.mem_cons_of_mem _) (List.mem_cons_of_mem _)
  | wild hs h ih =>
    rcases List.mem_cons.mp hslash with heq | hslash
    · exact absurd heq.symm hs
    · exact (ih hslash).imp (List.mem_cons_of_mem _) (List.mem_cons_of_mem _)

theorem Matches.values_mem {pattern : List Segment} (h : Matches pattern path values) :
    ∀ v ∈ values, v ∈ path ∧ v ≠ ['/'] := by
  induction h with
  | done | rest =>
    intro v hv
    cases hv
  | literal h ih =>
    intro v hv
    exact ⟨List.mem_cons_of_mem _ (ih v hv).1, (ih v hv).2⟩
  | wild hs h ih =>
    intro v hv
    rcases List.mem_cons.mp hv with rfl | hv
    · exact ⟨List.mem_cons_self, hs⟩
    · exact ⟨List.mem_cons_of_mem _ (ih v hv).1, (ih v hv).2⟩

theorem search_slash (hnode : ∀ e ∈ node, .literal ['/'] ∉ e.1 ∧ .rest ∉ e.1) (hslash : ['/'] ∈ path) :
    search node path = none := by
  cases hsearch : search node path with
  | none => rfl
  | some found =>
    obtain ⟨pattern, hmem, hmatches⟩ := search_sound hsearch
    rcases hmatches.slash hslash with hliteral | hrest
    · exact absurd hliteral (hnode _ hmem).1
    · exact absurd hrest (hnode _ hmem).2

theorem search_rest (a : α) (s : List Char) (path : List (List Char)) :
    search [([Segment.rest], a)] (s :: path) = some (a, []) := by
  have hapart : Apart [([Segment.rest], a)] := List.pairwise_singleton _ _
  exact search_eq hapart List.mem_cons_self .rest

end Search

/-! ### Paths -/

def cleanPath (p : List Char) : List Char :=
  if p = [] then ['/']
  else
    let p := if p.head? = some '/' then p else '/' :: p
    let np := FilePath.Clean (String.ofList p)
    if p.getLast? = some '/' ∧ np ≠ ['/'] then np ++ ['/'] else np

/-- A segment whose escapes are wrong stands for itself. -/
def pathUnescape (s : List Char) : List Char := (Url.unescape .path s).getD s

/-- The slash at the end of a path is a segment of its own. -/
def unescaped : List (List Char) → List (List Char)
  | [] => []
  | [[]] => [['/']]
  | s :: more => pathUnescape s :: unescaped more

/-- The segments of a path, taken off one after the other. -/
def segments (path : List Char) : List (List Char) :=
  if path = [] then [] else unescaped ((path.drop 1).splitOn '/')

open FilePath

theorem split_slashed_all {comps : List String} (hne : comps ≠ []) (hslash : ∀ c ∈ comps, '/' ∉ c.toList) :
    split (String.ofList (slashed comps)) = "" :: comps := by
  obtain ⟨front, last, rfl⟩ := (List.eq_nil_or_concat' comps).resolve_left hne
  have hfront : ∀ c ∈ front, '/' ∉ c.toList := fun c hc => hslash c (List.mem_append_left _ hc)
  have hlast : '/' ∉ last.toList := hslash last (by simp)
  have hjoin : slashed (front ++ [last]) = slashed front ++ '/' :: last.toList := by simp [slashed]
  rw [hjoin, split_slashed hfront, String.ofList_toList, split_single hlast]

theorem foldl_ordinary {p comps : List String} (h : ∀ c ∈ comps, Ordinary c) : comps.foldl enter p = p ++ comps := by
  induction comps generalizing p with
  | nil => exact (List.append_nil p).symm
  | cons c comps ih =>
    obtain ⟨hc, hcomps⟩ := List.forall_mem_cons.mp h
    rw [List.foldl_cons, enter_ordinary hc, ih hcomps, List.append_assoc, List.singleton_append]

theorem Clean_slashed {comps : List String} (hne : comps ≠ []) (hslash : ∀ c ∈ comps, '/' ∉ c.toList) :
    FilePath.Clean (String.ofList (slashed comps)) = text (comps.foldl enter []) := by
  have habs : IsAbs (String.ofList (slashed comps)) = true := by
    cases comps with
    | nil => exact absurd rfl hne
    | cons c comps => simp [IsAbs, slashed]
  rw [FilePath.Clean, if_pos habs, join, split_slashed_all hne hslash]
  rfl

theorem getLast_slashed {front : List String} {last : String} (hlast : last ≠ "") (hslash : '/' ∉ last.toList) :
    (slashed (front ++ [last])).getLast? ≠ some '/' := by
  have hne : last.toList ≠ [] := fun h => hlast (String.toList_inj.mp h)
  intro h
  have hjoin : slashed (front ++ [last]) = (slashed front ++ ['/']) ++ last.toList := by simp [slashed]
  rw [hjoin, List.getLast?_append_of_ne_nil _ hne] at h
  exact hslash (List.mem_of_getLast? h)

/-- A path that does not end with a slash is clean exactly if each segment names something. -/
theorem cleanPath_slashed {front : List String} {last : String} (hslash : ∀ c ∈ front ++ [last], '/' ∉ c.toList)
    (hlast : last ≠ "") :
    cleanPath (slashed (front ++ [last])) = slashed (front ++ [last]) ↔ ∀ c ∈ front ++ [last], Ordinary c := by
  have hne : front ++ [last] ≠ [] := by simp
  have hend := @getLast_slashed front last hlast (hslash last (by simp))
  generalize front ++ [last] = comps at *
  obtain ⟨c, rest, rfl⟩ := List.exists_cons_of_ne_nil hne
  have hclean : cleanPath (slashed (c :: rest)) = text ((c :: rest).foldl enter []) := by
    have hcons : slashed (c :: rest) = '/' :: (c.toList ++ slashed rest) := rfl
    have hpath : cleanPath (slashed (c :: rest)) = FilePath.Clean (String.ofList (slashed (c :: rest))) := by
      rw [cleanPath, if_neg (by rw [hcons]; exact List.cons_ne_nil _ _)]
      simp only [show (slashed (c :: rest)).head? = some '/' from rfl, if_true]
      exact if_neg fun h => hend h.1
    rw [hpath, Clean_slashed hne hslash]
  have hentered : ∀ d ∈ (c :: rest).foldl enter [], Ordinary d := foldl_enter_clean (by simp) hslash
  rw [hclean]
  constructor
  · intro h
    have hnil : (c :: rest).foldl enter [] ≠ [] := by
      intro hnil
      rw [hnil] at h
      exact hend (by rw [← h]; rfl)
    rw [text, if_neg hnil] at h
    have hsplit := split_slashed_all hnil fun d hd => (hentered d hd).slash
    rw [h, split_slashed_all hne hslash, List.cons.injEq] at hsplit
    rw [hsplit.2]
    exact hentered
  · intro h
    rw [foldl_ordinary h, List.nil_append]
    rfl

theorem unescaped_eq {comps : List (List Char)} {last : List Char} (hlast : last ≠ []) :
    unescaped (comps ++ [last]) = (comps ++ [last]).map pathUnescape := by
  induction comps with
  | nil =>
    cases last with
    | nil => exact absurd rfl hlast
    | cons c last => rfl
  | cons d comps ih =>
    obtain ⟨e, more, hcons⟩ := List.exists_cons_of_ne_nil (show comps ++ [last] ≠ [] by simp)
    rw [List.cons_append, hcons, List.map_cons, ← hcons, ← ih, hcons]
    cases d with
    | nil => rfl
    | cons c d => rfl

theorem unescaped_slash (comps : List (List Char)) : unescaped (comps ++ [[]]) = comps.map pathUnescape ++ [['/']] := by
  induction comps with
  | nil => rfl
  | cons d comps ih =>
    obtain ⟨e, more, hcons⟩ := List.exists_cons_of_ne_nil (show comps ++ [[]] ≠ [] by simp)
    rw [List.cons_append, hcons, List.map_cons, List.cons_append, ← ih, hcons]
    cases d with
    | nil => rfl
    | cons c d => rfl

/-- A path with a slash at its end has it as a segment. -/
theorem slash_mem_segments (path : List Char) : ['/'] ∈ segments (path ++ ['/']) := by
  cases path with
  | nil => decide
  | cons c rest =>
    have hsplit : (rest ++ ['/']).splitOn '/' = ((rest ++ ['/']).splitOn '/').dropLast ++ [[]] := by
      rw [Lines.splitOn_eq, Lines.cut_append, Lines.cut_line (l := (Lines.cut '/' rest).2) (Lines.cut_spec '/' rest).2.1,
        List.dropLast_concat]
      rfl
    rw [segments, if_neg (by simp), List.cons_append, List.drop_one, List.tail_cons, hsplit, unescaped_slash]
    exact List.mem_append_right _ List.mem_cons_self

theorem segments_slashed {front : List String} {last : String} (hslash : ∀ c ∈ front ++ [last], '/' ∉ c.toList)
    (hlast : last ≠ "") :
    segments (slashed (front ++ [last])) = (front ++ [last]).map fun c => pathUnescape c.toList := by
  have hsplit := split_slashed_all (show front ++ [last] ≠ [] by simp) hslash
  obtain ⟨c, rest, hcons⟩ := List.exists_cons_of_ne_nil (show front ++ [last] ≠ [] by simp)
  have hpath : slashed (front ++ [last]) = '/' :: (c.toList ++ slashed rest) := by rw [hcons]; rfl
  have hdrop : ((slashed (front ++ [last])).drop 1).splitOn '/' = (front ++ [last]).map String.toList := by
    have hlists := congrArg (List.map String.toList) hsplit
    rw [split, String.toList_ofList, List.map_map] at hlists
    have hsplitOn : (slashed (front ++ [last])).splitOn '/' =
        [] :: ((slashed (front ++ [last])).drop 1).splitOn '/' := by
      rw [hpath, Lines.splitOn_eq, Lines.splitOn_eq, ← List.nil_append ('/' :: _), Lines.cut_line (by simp)]
      rfl
    rw [hsplitOn, List.map_cons, List.map_cons, List.cons.injEq] at hlists
    rw [← hlists.2]
    exact ((List.map_congr_left fun s _ => String.toList_ofList).trans (List.map_id _)).symm
  rw [segments, if_neg (by rw [hpath]; exact List.cons_ne_nil _ _), hdrop, List.map_append]
  have hchars : last.toList ≠ [] := fun h => hlast (String.toList_inj.mp h)
  rw [List.map_cons, List.map_nil, unescaped_eq hchars, List.map_append, List.map_map, List.map_append]
  rfl

/-! ### Paths of names

A browser writes a path of names with each of them encoded. -/

def pathOf (texts : List (List Char)) : List Char := texts.flatMap fun t => '/' :: Url.encodeURIComponent t

theorem pathOf_eq (texts : List (List Char)) :
    pathOf texts = slashed (texts.map fun t => String.ofList (Url.encodeURIComponent t)) := by
  rw [pathOf, slashed, List.flatMap_map]
  simp only [String.toList_ofList]

theorem slash_component (text : List Char) : '/' ∉ Url.encodeURIComponent text := by
  intro h
  rcases Url.mem_encodeURIComponent h with h | h
  · revert h
    decide
  · cases h

/-- A name that is no way of writing another path. -/
theorem ordinary_component {t : List Char} :
    Ordinary (String.ofList (Url.encodeURIComponent t)) ↔ t ∉ [[], ['.'], ['.', '.']] := by
  have hword : ∀ w : List Char, Url.encodeURIComponent w = w →
      (String.ofList (Url.encodeURIComponent t) = String.ofList w ↔ t = w) := by
    intro w hw
    rw [String.ofList_inj]
    constructor
    · intro h
      exact Url.component_inj (h.trans hw.symm)
    · intro h
      rw [h, hw]
  have hempty := hword [] (by decide)
  have hdot := hword ['.'] (by decide)
  have hdots := hword ['.', '.'] (by decide)
  rw [ordinary_iff, show ("" : String) = String.ofList [] from rfl, show ("." : String) = String.ofList ['.'] from rfl,
    show (".." : String) = String.ofList ['.', '.'] from rfl, String.toList_ofList]
  simp only [ne_eq, hempty, hdot, hdots, slash_component, not_false_eq_true, and_true, List.mem_cons, List.not_mem_nil,
    or_false, not_or]

section Names
variable {front : List (List Char)} {last : List Char}

theorem components_slash (texts : List (List Char)) :
    ∀ c ∈ texts.map (fun t => String.ofList (Url.encodeURIComponent t)), '/' ∉ c.toList := by
  intro c hc
  obtain ⟨t, -, rfl⟩ := List.mem_map.mp hc
  rw [String.toList_ofList]
  exact slash_component t

theorem component_ne (hlast : last ≠ []) : String.ofList (Url.encodeURIComponent last) ≠ "" := by
  intro h
  rw [show ("" : String) = String.ofList [] from rfl, String.ofList_inj] at h
  exact hlast (Url.component_inj (t := []) h)

theorem cleanPath_pathOf (hlast : last ≠ []) : cleanPath (pathOf (front ++ [last])) = pathOf (front ++ [last]) ↔
    ∀ t ∈ front ++ [last], t ∉ [[], ['.'], ['.', '.']] := by
  have hslash := components_slash (front ++ [last])
  rw [List.map_append, List.map_cons, List.map_nil] at hslash
  rw [pathOf_eq, List.map_append, List.map_cons, List.map_nil, cleanPath_slashed hslash (component_ne hlast)]
  rw [← List.map_singleton (f := fun t => String.ofList (Url.encodeURIComponent t)), ← List.map_append,
    List.forall_mem_map]
  exact forall₂_congr fun t _ => ordinary_component

theorem segments_pathOf (hlast : last ≠ []) :
    segments (pathOf (front ++ [last])) = (front ++ [last]).map Utf8.bytes := by
  have hslash := components_slash (front ++ [last])
  rw [List.map_append, List.map_cons, List.map_nil] at hslash
  rw [pathOf_eq, List.map_append, List.map_cons, List.map_nil, segments_slashed hslash (component_ne hlast),
    ← List.map_singleton (f := fun t => String.ofList (Url.encodeURIComponent t)), ← List.map_append, List.map_map]
  refine List.map_congr_left fun t _ => ?_
  show pathUnescape (String.ofList (Url.encodeURIComponent t)).toList = Utf8.bytes t
  rw [String.toList_ofList, pathUnescape, Url.unescape_component, Option.getD_some]

end Names

theorem unescape_pathOf (texts : List (List Char)) :
    Url.unescape .path (pathOf texts) = some (texts.flatMap fun t => '/' :: Utf8.bytes t) := by
  induction texts with
  | nil => rfl
  | cons t texts ih =>
    have hencode := @Url.unescape_percentEncode Url.componentPlain _ (by decide) (@Url.bytes_lt t) (pathOf texts)
    have hcons : pathOf (t :: texts) = '/' :: (Url.encodeURIComponent t ++ pathOf texts) := rfl
    rw [hcons, Url.unescape_plain (by decide), Url.encodeURIComponent, hencode, ih, Option.map_some, Option.map_some,
      List.flatMap_cons, List.cons_append]

theorem mem_pathOf {texts : List (List Char)} {c : Char} (hc : c ∈ pathOf texts) :
    c = '/' ∨ Url.componentPlain c = true ∨ c = '%' := by
  obtain ⟨t, -, hc⟩ := List.mem_flatMap.mp hc
  rcases List.mem_cons.mp hc with rfl | hc
  · exact .inl rfl
  · exact .inr (Url.mem_encodeURIComponent hc)

/-- What stands for this directory, or the one above, among names. -/
def resolved (texts : List (List Char)) : List (List Char) :=
  Url.resolve (fun t => decide (t = ['.'])) (fun t => decide (t = ['.', '.'])) [] [] texts

theorem splitOn_pathOf {texts : List (List Char)} (hne : texts ≠ []) :
    ((pathOf texts).drop 1).splitOn '/' = texts.map Url.encodeURIComponent := by
  induction texts with
  | nil => exact absurd rfl hne
  | cons t more ih =>
    have hdrop : (pathOf (t :: more)).drop 1 = Url.encodeURIComponent t ++ pathOf more := rfl
    rw [hdrop, Lines.splitOn_eq]
    cases more with
    | nil =>
      have hrest : Url.encodeURIComponent t ++ pathOf [] = Url.encodeURIComponent t := List.append_nil _
      rw [hrest, Lines.cut_rest (slash_component t)]
      rfl
    | cons u more =>
      have hcons : pathOf (u :: more) = '/' :: (pathOf (u :: more)).drop 1 := rfl
      rw [hcons, Lines.cut_line (slash_component t), List.cons_append, ← Lines.splitOn_eq, ih (List.cons_ne_nil u more),
        List.map_cons (a := t)]

/-- What a browser asks for is a path of names again. -/
theorem requestTarget_pathOf {texts : List (List Char)} (hne : texts ≠ []) (pairs : List (List Char × List Char)) :
    Url.requestTarget (pathOf texts ++ if pairs = [] then [] else '?' :: Url.URLSearchParams pairs) =
      pathOf (resolved texts) ++ if pairs = [] then [] else '?' :: Url.URLSearchParams pairs := by
  have hquestion : '?' ∉ pathOf texts := by
    intro h
    rcases mem_pathOf h with h | h | h
    · cases h
    · revert h
      decide
    · cases h
  have hresolve : (Url.resolve Url.isDot Url.isDots [] [] (((pathOf texts).drop 1).splitOn '/')).flatMap ('/' :: ·) =
      pathOf (resolved texts) := by
    have hmap := @Url.resolve_map _ _ Url.isDot Url.isDots [] Url.encodeURIComponent [] rfl [] texts
    simp only [Url.isDot_component, Url.isDots_component, List.map_nil] at hmap
    rw [splitOn_pathOf hne, hmap, List.flatMap_map]
    rfl
  by_cases hpairs : pairs = []
  · rw [if_pos hpairs, List.append_nil, List.append_nil, Url.requestTarget, Separator.cut_eq_none.mpr hquestion]
    exact (List.append_nil _).trans hresolve
  · rw [if_neg hpairs, Url.requestTarget, Separator.cut_append hquestion]
    exact congrArg (· ++ _) hresolve

/-- The server reads the path and the query of a target as they were written. -/
theorem ParseRequestURI_pathOf {texts : List (List Char)} (hne : texts ≠ []) (pairs : List (List Char × List Char)) :
    ∃ u, Url.ParseRequestURI (pathOf texts ++ if pairs = [] then [] else '?' :: Url.URLSearchParams pairs) = some u ∧
      u.EscapedPath = pathOf texts ∧ u.Path = (texts.flatMap fun t => '/' :: Utf8.bytes t) ∧
      Url.ParseQuery u.RawQuery = pairs.map fun p => (Utf8.bytes p.1, Utf8.bytes p.2) := by
  obtain ⟨t, more, rfl⟩ := List.exists_cons_of_ne_nil hne
  have hslash : pathOf (t :: more) = '/' :: (Url.encodeURIComponent t ++ pathOf more) := rfl
  have hplain : ∀ c ∈ pathOf (t :: more), 32 ≤ c.toNat ∧ c.toNat ≠ 127 ∧ c ≠ '?' := by
    intro c hc
    rcases mem_pathOf hc with rfl | hplain | rfl
    · decide
    · exact Url.componentPlain_visible hplain
    · decide
  have hvalid : Url.validEncoded .path (pathOf (t :: more)) = true := by
    refine List.all_eq_true.mpr fun c hc => ?_
    rcases mem_pathOf hc with rfl | hplain | rfl
    · decide
    · exact List.all_eq_true.mp (Url.componentPlain_valid hplain) c List.mem_cons_self
    · decide
  have hset : ∀ u : Url.URL, ∃ v, u.setPath (pathOf (t :: more)) = some v ∧ v.EscapedPath = pathOf (t :: more) ∧
      v.Path = ((t :: more).flatMap fun t => '/' :: Utf8.bytes t) ∧ v.RawQuery = u.RawQuery := by
    intro u
    have hsome : u.setPath (pathOf (t :: more)) = some _ := congrArg (Option.map _) (unescape_pathOf (t :: more))
    refine ⟨_, hsome, ?_, rfl, rfl⟩
    rw [hslash] at hvalid hsome ⊢
    exact Url.setPath_escaped hvalid hsome
  have hquestion : '?' ∉ pathOf (t :: more) := fun h => (hplain '?' h).2.2 rfl
  by_cases hpairs : pairs = []
  · subst hpairs
    obtain ⟨v, hv, hescaped, hpath, hquery⟩ := hset {}
    refine ⟨v, ?_, hescaped, hpath, by rw [hquery]; rfl⟩
    have hcontrol : ((pathOf (t :: more)).any fun c => c.toNat < 32 || c.toNat == 127) = false := by
      refine List.any_eq_false.mpr fun c hc => ?_
      have hc := hplain c hc
      simp only [Bool.or_eq_true, decide_eq_true_eq, beq_iff_eq]
      omega
    rw [if_pos rfl, List.append_nil, Url.ParseRequestURI, hcontrol, if_neg Bool.false_ne_true,
      if_neg (by rw [hslash]; simp), Separator.cut_eq_none.mpr hquestion]
    exact hv
  · obtain ⟨v, hv, hescaped, hpath, hquery⟩ := hset { RawQuery := Url.URLSearchParams pairs }
    refine ⟨v, ?_, hescaped, hpath, by rw [hquery]; exact Url.ParseQuery_URLSearchParams pairs⟩
    have hcontrol : ((pathOf (t :: more) ++ '?' :: Url.URLSearchParams pairs).any fun c =>
        c.toNat < 32 || c.toNat == 127) = false := by
      refine List.any_eq_false.mpr fun c hc => ?_
      have hc : 32 ≤ c.toNat ∧ c.toNat ≠ 127 := by
        rcases List.mem_append.mp hc with hc | hc
        · exact ⟨(hplain c hc).1, (hplain c hc).2.1⟩
        · rcases List.mem_cons.mp hc with rfl | hc
          · decide
          · exact Url.query_visible hc
      simp only [Bool.or_eq_true, decide_eq_true_eq, beq_iff_eq]
      omega
    rw [if_neg hpairs, Url.ParseRequestURI, hcontrol, if_neg Bool.false_ne_true, if_neg (by rw [hslash]; simp),
      Separator.cut_append hquestion]
    obtain ⟨c, rest, hcons⟩ := List.exists_cons_of_ne_nil (Url.URLSearchParams_ne_nil hpairs)
    rw [hcons] at hv ⊢
    exact hv

/-! ### Dispatch -/

section Dispatch
variable {α : Type*} (routes : List (Route α))

/-- The patterns of a method. -/
def table (method : List Char) : List (List Segment × Route α) :=
  routes.filterMap fun r => if r.method = method then some (r.segments, r) else none

/-- The route of a request: of its method first, for `HEAD` then of `GET`, and of any method last. -/
def find (method path : List Char) : Option (Route α × List (List Char)) :=
  (search (table routes method) (segments path)).or <|
    (if method = "HEAD".toList then search (table routes "GET".toList) (segments path) else none).or
      (search (table routes []) (segments path))

/-- The match takes the path up to its end. -/
def exactMatch (found : Option (Route α × List (List Char))) (path : List Char) : Bool :=
  match found with
  | none => false
  | some (r, _) =>
    if r.segments.getLast? ≠ some .rest then true
    else path.getLast? == some '/' && r.segments.length == path.count '/'

inductive Answer (α : Type*) where
  | redirect
  | handled (handler : α) (values : List (List Char))
  /-- Not found, or found for other methods only. -/
  | unmatched
  deriving DecidableEq, Repr

def findHandler (method escapedPath : List Char) : Answer α :=
  let path := if method = "CONNECT".toList then escapedPath else cleanPath escapedPath
  let found := find routes method path
  if exactMatch found path = false ∧ path.getLast? ≠ some '/' ∧
      exactMatch (find routes method (path ++ ['/'])) (path ++ ['/']) = true then .redirect
  else if path ≠ escapedPath then .redirect
  else match found with
    | none => .unmatched
    | some (r, values) => .handled r.handler values

variable {routes} {r : Route α} {values : List (List Char)}

theorem mem_table (hr : r ∈ routes) : (r.segments, r) ∈ table routes r.method :=
  List.mem_filterMap.mpr ⟨r, hr, if_pos rfl⟩

theorem of_mem_table {method : List Char} {pattern : List Segment} (h : (pattern, r) ∈ table routes method) :
    r ∈ routes ∧ r.method = method ∧ r.segments = pattern := by
  obtain ⟨r', hr', heq⟩ := List.mem_filterMap.mp h
  by_cases hmethod : r'.method = method
  · rw [if_pos hmethod] at heq
    obtain ⟨rfl, rfl⟩ := Prod.mk.inj (Option.some.inj heq)
    exact ⟨hr', hmethod, rfl⟩
  · rw [if_neg hmethod] at heq
    cases heq

/-- What is found is registered and matches. -/
theorem find_sound {method path : List Char} (h : find routes method path = some (r, values)) :
    r ∈ routes ∧ Matches r.segments (segments path) values := by
  have hsearch : ∀ method', search (table routes method') (segments path) = some (r, values) →
      r ∈ routes ∧ Matches r.segments (segments path) values := by
    intro method' h
    obtain ⟨pattern, hmem, hmatches⟩ := search_sound h
    obtain ⟨hr, -, rfl⟩ := of_mem_table hmem
    exact ⟨hr, hmatches⟩
  rcases Option.or_eq_some_iff.mp h with h | ⟨-, h⟩
  · exact hsearch method h
  rcases Option.or_eq_some_iff.mp h with h | ⟨-, h⟩
  · split at h
    · exact hsearch _ h
    · cases h
  · exact hsearch [] h

/-- A handler is called for the path as it stands, and but for `CONNECT` the path is clean. -/
theorem findHandler_sound {method escapedPath : List Char} {a : α}
    (h : findHandler routes method escapedPath = .handled a values) :
    (method ≠ "CONNECT".toList → cleanPath escapedPath = escapedPath) ∧
      ∃ r, r.handler = a ∧ find routes method escapedPath = some (r, values) := by
  simp only [findHandler] at h
  generalize hpath : (if method = "CONNECT".toList then escapedPath else cleanPath escapedPath) = path at h
  split at h
  · cases h
  split at h
  · cases h
  rename_i hsame
  obtain rfl := not_not.mp hsame
  split at h
  · cases h
  rename_i r values' hfind
  cases h
  exact ⟨fun hconnect => (if_neg hconnect).symm.trans hpath, r, rfl, hfind⟩

theorem find_eq (hapart : Apart (table routes r.method)) (hr : r ∈ routes) {path : List Char}
    (h : Matches r.segments (segments path) values) : find routes r.method path = some (r, values) := by
  rw [find, search_eq hapart (mem_table hr) h, Option.some_or]

/-- A path that matches a route without a rest is served by it, unless the path is to be cleaned. -/
theorem findHandler_eq (hapart : Apart (table routes r.method)) (hr : r ∈ routes)
    (hconnect : r.method ≠ "CONNECT".toList) (hrest : r.segments.getLast? ≠ some .rest) {path : List Char}
    (hclean : cleanPath path = path)
    (h : Matches r.segments (segments path) values) : findHandler routes r.method path = .handled r.handler values := by
  have hfind := find_eq hapart hr h
  have hexact : exactMatch (some (r, values)) path = true := if_pos hrest
  simp only [findHandler, if_neg hconnect, hclean, hfind, hexact, Bool.true_eq_false, false_and, if_false, ne_eq,
    not_true_eq_false]

end Dispatch

end ServeMux
