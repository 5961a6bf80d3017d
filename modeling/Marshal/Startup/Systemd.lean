import Marshal.Lib.UnitValue
import Marshal.Startup

/-! What systemd makes of the rendered unit.

The unit is lines of its own making around the configured values, and only the values of the
environment are quoted. So it runs what was configured exactly where the path and the
arguments can be written as they are, and no value has a line break or a percent sign
(`Runs_iff`). -/
namespace Marshal.Startup
open Separator UnitFile UnitValue

/-! ### The unit as lines -/

/-- A directive's line, without its end. -/
def directive (key value : List Char) : List Char := key ++ '=' :: value

def commandLine (c : Config) : List Char := [' '].intercalate (c.Binary :: c.args)

def escaped (val : List Char) : List Char :=
  val.flatMap fun c => if c = '\\' then ['\\', '\\'] else if c = '"' then ['\\', '"'] else [c]

/-- What an environment's directive says. -/
def environmentItem (key val : List Char) : List Char :=
  if containsAny val " \t\"\\" then '"' :: (key ++ '=' :: (escaped val ++ ['"'])) else key ++ '=' :: val

theorem args_ne_nil (c : Config) : c.args ≠ [] := by
  rw [Config.args]
  split
  · exact List.cons_ne_nil _ _
  · rename_i hargs
    exact fun hnil => hargs (by rw [hnil]; rfl)

theorem commandLine_eq (c : Config) : commandLine c = c.Binary ++ [' '] ++ join c.args [' '] := by
  rw [commandLine]
  cases hargs : c.args with
  | nil => exact absurd hargs (args_ne_nil c)
  | cons a args => rw [List.intercalate_cons_cons, List.append_assoc]; simp [join]

def userLines (c : Config) : List Char := if c.System then directive "User".toList c.User ++ ['\n'] else []

def environmentLine (key val : List Char) : List Char :=
  directive "Environment".toList (environmentItem key val) ++ ['\n']

def dataLines (c : Config) : List Char :=
  if c.XDGData ≠ [] then environmentLine "XDG_DATA_HOME".toList c.XDGData else []

def target (c : Config) : List Char := (if c.System then "multi-user.target" else "default.target").toList

def installLines (c : Config) : List Char :=
  ['\n'] ++ ('[' :: "Install".toList ++ [']'] ++ ['\n'] ++ (directive "WantedBy".toList (target c) ++ ['\n']))

theorem systemdEnv_eq (key val : List Char) : systemdEnv key val = environmentLine key val := by
  have hquoted : "Environment=\"".toList = "Environment".toList ++ ['=', '"'] := by decide
  have hplain : "Environment=".toList = "Environment".toList ++ ['='] := by decide
  rw [systemdEnv, environmentLine, environmentItem, directive]
  split
  · rw [hquoted, escaped]
    simp
  · rw [hplain]
    simp

def preamble (c : Config) : List Char :=
  '[' :: "Unit".toList ++ [']'] ++ ['\n'] ++
  (directive "Description".toList ("Marshal (".toList ++ join c.args [' '] ++ [')']) ++ ['\n'])

def openingLines : List Char :=
  ['\n'] ++ ('[' :: "Service".toList ++ [']'] ++ ['\n'] ++ (directive "Type".toList "simple".toList ++ ['\n']))

theorem renderSystemdUnit_eq (c : Config) : renderSystemdUnit c =
    preamble c ++ (directive "After".toList "network.target".toList ++ ['\n'] ++ (openingLines ++
      (directive "ExecStart".toList (commandLine c) ++ ['\n'] ++
      (directive "Restart".toList "on-failure".toList ++ ['\n'] ++
      (userLines c ++ (environmentLine "HOME".toList c.Home ++ (dataLines c ++ installLines c))))))) := by
  unfold renderSystemdUnit
  rw [systemdEnv_eq, systemdEnv_eq, commandLine_eq]
  unfold preamble openingLines userLines dataLines installLines target directive
  -- the conditions first: a string below one is compared character by character
  by_cases hxdg : c.XDGData ≠ []
  · rw [if_pos hxdg]
    cases c.System with
    | false => simp
    | true => simp
  · rw [if_neg hxdg]
    cases c.System with
    | false => simp
    | true => simp

/-! ### What an environment's directive assigns -/

section Environment
variable {key val : List Char}

structure IsName (key : List Char) : Prop where
  plain : Plain key
  equals : '=' ∉ key
  breaks : ∀ c ∈ key, lineBreak c = false

/-- A value of the environment that reaches the service: with no line break and no percent sign, and with an
apostrophe only where something else calls for quotes. -/
structure Kept (val : List Char) : Prop where
  lineFeed : '\n' ∉ val
  carriageReturn : '\r' ∉ val
  percent : '%' ∉ val
  apostrophe : containsAny val " \t\"\\" = true ∨ '\'' ∉ val

theorem escaped_append (s t : List Char) : escaped (s ++ t) = escaped s ++ escaped t := List.flatMap_append

theorem escaped_ordinary {s : List Char} (hs : ∀ c ∈ s, ordinary c = true) : escaped s = s := by
  induction s with
  | nil => rfl
  | cons c s ih =>
    obtain ⟨hc, hs⟩ := List.forall_mem_cons.mp hs
    obtain ⟨-, hquote, hback⟩ := ordinary_iff.mp hc
    have hdouble : c ≠ '"' := by
      intro hdouble
      rw [hdouble] at hquote
      cases hquote
    have hrest := ih hs
    rw [escaped] at hrest ⊢
    rw [List.flatMap_cons, if_neg hback, if_neg hdouble, hrest, List.singleton_append]

theorem escaped_name (hkey : IsName key) (val : List Char) :
    escaped (key ++ '=' :: val) = key ++ '=' :: escaped val := by
  have hequals : escaped ('=' :: val) = '=' :: escaped val := rfl
  rw [escaped_append, escaped_ordinary hkey.plain.2, hequals]

/-- In quotes the escaped characters are read as they were. -/
theorem read_escaped (s text rest : List Char) : UnitValue.read [] (.quoted '"') ⟨text, false⟩ 0 (escaped s ++ rest) =
    UnitValue.read [] (.quoted '"') ⟨text ++ s, false⟩ 0 rest := by
  induction s generalizing text with
  | nil => rw [List.append_nil]; rfl
  | cons c s ih =>
    have htext : text ++ c :: s = text ++ [c] ++ s := by simp
    rw [htext, ← ih]
    have hescaped : escaped (c :: s) =
        (if c = '\\' then ['\\', '\\'] else if c = '"' then ['\\', '"'] else [c]) ++ escaped s := rfl
    rw [hescaped]
    by_cases hback : c = '\\'
    · subst hback
      exact read_escape (by decide) [] ⟨text, false⟩ ('\\' :: (escaped s ++ rest))
    · by_cases hdouble : c = '"'
      · subst hdouble
        exact read_escape (by decide) [] ⟨text, false⟩ ('"' :: (escaped s ++ rest))
      · rw [if_neg hback, if_neg hdouble, List.singleton_append, List.cons_append, read_cons]
        simp [step, hback, hdouble]

theorem words_quoted (s rest : List Char) : UnitValue.words [] ('"' :: (escaped s ++ rest)) =
    UnitValue.read [] (.quoted '"') ⟨s, false⟩ 0 rest := by
  rw [words, read_cons]
  have hopen : step [] .between ⟨[], true⟩ '"' (escaped s ++ rest) = some ([], .quoted '"', ⟨[], false⟩, 0) := rfl
  rw [hopen, Option.bind_some]
  simp only [List.nil_append, Option.map_id']
  rw [read_escaped, List.nil_append]

theorem assignments_single {value text : List Char} (bare : Bool) (hkey : IsName key)
    (h : words [] value = some [⟨key ++ '=' :: text, bare⟩]) :
    assignments value = some [(key, expand specifierAt 0 text)] := by
  rw [assignments, h, Option.bind_some, List.mapM_cons, List.mapM_nil, assignment, cut_append hkey.equals]
  rfl

theorem assignments_quoted (hkey : IsName key) (val : List Char) :
    assignments ('"' :: (key ++ '=' :: (escaped val ++ ['"']))) = some [(key, expand specifierAt 0 val)] := by
  have hitem : '"' :: (key ++ '=' :: (escaped val ++ ['"'])) = '"' :: (escaped (key ++ '=' :: val) ++ ['"']) := by
    rw [escaped_name hkey, List.append_assoc, List.cons_append]
  refine assignments_single false hkey ?_
  rw [hitem, words_quoted]
  rfl

theorem ordinary_unquoted {s : List Char} (h : containsAny s " \t\"\\" = false) (hs : '\'' ∉ s) :
    ∀ c ∈ s, ordinary c = true := by
  intro c hc
  have hnone := List.any_eq_false.mp h c hc
  have hchars : " \t\"\\".toList = [' ', '\t', '"', '\\'] := by decide
  rw [decide_eq_true_eq, hchars] at hnone
  simp only [List.mem_cons, List.not_mem_nil, or_false, not_or] at hnone
  obtain ⟨hspace, htab, hdouble, hback⟩ := hnone
  have hsingle : c ≠ '\'' := fun hc' => hs (hc' ▸ hc)
  simp [ordinary, white, quote, hspace, htab, hdouble, hback, hsingle]

theorem ordinary_name (hkey : IsName key) {s : List Char} (hs : ∀ c ∈ s, ordinary c = true) :
    Plain (key ++ '=' :: s) := by
  refine ⟨List.append_ne_nil_of_left_ne_nil hkey.plain.1 _, ?_⟩
  refine List.forall_mem_append.mpr ⟨hkey.plain.2, List.forall_mem_cons.mpr ⟨rfl, hs⟩⟩

theorem assignments_bare (hkey : IsName key) (hval : ∀ c ∈ val, ordinary c = true) :
    assignments (key ++ '=' :: val) = some [(key, expand specifierAt 0 val)] := by
  have hread : UnitValue.read [] .between ⟨[], true⟩ 0 (key ++ '=' :: val ++ []) = _ :=
    read_word (ordinary_name hkey hval) ⟨[], true⟩ []
  rw [List.append_nil] at hread
  refine assignments_single true hkey ?_
  rw [words, hread]
  rfl

/-- An apostrophe has no meaning within a word. -/
theorem assignments_apostrophe (hkey : IsName key) (h : containsAny val " \t\"\\" = false) (hval : '\'' ∈ val) :
    assignments (key ++ '=' :: val) = none := by
  obtain ⟨front, back, hsplit, hfront⟩ := List.eq_append_cons_of_mem hval
  have hnone : containsAny front " \t\"\\" = false := by
    rw [containsAny, hsplit, List.any_append, Bool.or_eq_false_iff] at h
    exact h.1
  have hread : UnitValue.read [] .between ⟨[], true⟩ 0 (key ++ '=' :: front ++ '\'' :: back) = _ :=
    read_word (ordinary_name hkey (ordinary_unquoted hnone hfront)) ⟨[], true⟩ ('\'' :: back)
  have hval' : key ++ '=' :: val = key ++ '=' :: front ++ '\'' :: back := by
    rw [hsplit, List.append_assoc, List.cons_append]
  rw [assignments, words, hval', hread]
  rfl

theorem escaped_last {s : List Char} (h : (escaped s).getLast? = some '\\') : ∃ front, s = front ++ ['\\'] := by
  rcases List.eq_nil_or_concat s with rfl | ⟨front, c, rfl⟩
  · cases h
  · rw [List.concat_eq_append] at h ⊢
    refine ⟨front, ?_⟩
    have hlast : escaped [c] = if c = '\\' then ['\\', '\\'] else if c = '"' then ['\\', '"'] else [c] := by
      rw [escaped, List.flatMap_cons, List.flatMap_nil, List.append_nil]
    rw [escaped_append, hlast] at h
    by_cases hback : c = '\\'
    · rw [hback]
    · rw [if_neg hback] at h
      split at h
      · rw [List.getLast?_append_of_ne_nil _ (List.cons_ne_nil _ _)] at h
        cases h
      · rw [List.getLast?_concat] at h
        exact absurd (Option.some.inj h) hback

/-- What reading keeps of a line that is broken off: the line, or its beginning and more if it ends in a backslash. -/
def Remains (front v : List Char) : Prop :=
  (front.getLast? ≠ some '\\' → v = front) ∧ ∀ f, front = f ++ ['\\'] → ∃ more, v = f ++ ' ' :: more

/-- A quote that is broken off is not closed. -/
theorem words_broken {s v : List Char} (h : Remains ('"' :: escaped s) v) : words [] v = none := by
  obtain ⟨hself, hback⟩ := h
  by_cases hlast : ('"' :: escaped s).getLast? = some '\\'
  · have hescaped : (escaped s).getLast? = some '\\' := by
      cases hnil : escaped s with
      | nil => rw [hnil] at hlast; cases hlast
      | cons c t => rw [hnil, List.getLast?_cons_cons] at hlast; exact hlast
    obtain ⟨front, rfl⟩ := escaped_last hescaped
    have hdouble : escaped ['\\'] = ['\\', '\\'] := rfl
    obtain ⟨more, rfl⟩ := hback ('"' :: (escaped front ++ ['\\'])) (by rw [escaped_append, hdouble]; simp)
    have hnone : unescape [] (' ' :: more) = none := by
      have hcoded : coded 8 3 (' ' :: more) = none := by
        rw [coded]
        split
        · rfl
        · rfl
      have hlookup : escapes.lookup ' ' = none := by decide
      simp [unescape, hlookup, hcoded]
    have hsplit : '"' :: (escaped front ++ ['\\']) ++ ' ' :: more = '"' :: (escaped front ++ '\\' :: ' ' :: more) := by
      simp
    rw [hsplit, words_quoted, read_escape (by decide), hnone, Option.bind_none]
  · have hread := words_quoted s []
    rw [List.append_nil] at hread
    rw [hself hlast, hread]
    rfl

theorem containsAny_append {s t : List Char} {chars : String} (h : containsAny (s ++ t) chars = false) :
    containsAny s chars = false := by
  rw [containsAny, List.any_append, Bool.or_eq_false_iff] at h
  exact h.1

theorem not_break_iff {s : List Char} : (∀ c ∈ s, lineBreak c = false) ↔ '\n' ∉ s ∧ '\r' ∉ s := by
  constructor
  · intro h
    exact ⟨fun hmem => absurd (h _ hmem) (by decide), fun hmem => absurd (h _ hmem) (by decide)⟩
  · intro h c hc
    obtain ⟨hfeed, hreturn⟩ := h
    have hne : c ≠ '\n' ∧ c ≠ '\r' := ⟨fun heq => hfeed (heq ▸ hc), fun heq => hreturn (heq ▸ hc)⟩
    simp [lineBreak, hne]

theorem escaped_break {s : List Char} (hs : ∀ c ∈ s, lineBreak c = false) : ∀ c ∈ escaped s, lineBreak c = false := by
  intro c hc
  obtain ⟨d, hd, hmem⟩ := List.mem_flatMap.mp hc
  split at hmem
  · simp only [List.mem_cons, List.not_mem_nil, or_false, or_self] at hmem
    rw [hmem]
    rfl
  · split at hmem
    · simp only [List.mem_cons, List.not_mem_nil, or_false] at hmem
      rcases hmem with rfl | rfl <;> rfl
    · rw [List.mem_singleton.mp hmem]
      exact hs d hd

/-- Where the value has no line break the whole directive is read. -/
theorem environmentItem_whole (hkey : IsName key) (hval : ∀ c ∈ val, lineBreak c = false) :
    (∀ c ∈ environmentItem key val, lineBreak c = false) ∧ (environmentItem key val).getLast? ≠ some '\\' := by
  rw [environmentItem]
  split
  · constructor
    · refine List.forall_mem_cons.mpr ⟨rfl, List.forall_mem_append.mpr ⟨hkey.breaks, ?_⟩⟩
      refine List.forall_mem_cons.mpr ⟨rfl, List.forall_mem_append.mpr ⟨escaped_break hval, ?_⟩⟩
      exact List.forall_mem_singleton.mpr rfl
    · rw [← List.cons_append, ← List.cons_append, ← List.append_assoc, List.getLast?_concat]
      decide
  · rename_i hcontains
    refine ⟨List.forall_mem_append.mpr ⟨hkey.breaks, List.forall_mem_cons.mpr ⟨rfl, hval⟩⟩, fun hlast => ?_⟩
    have hmem : '\\' ∈ '=' :: val := by
      rw [List.getLast?_append_of_ne_nil _ (List.cons_ne_nil _ _)] at hlast
      exact List.mem_of_getLast? hlast
    rcases List.mem_cons.mp hmem with heq | hmem
    · cases heq
    · exact hcontains (List.any_eq_true.mpr ⟨_, hmem, by decide⟩)

theorem assignments_item (hkey : IsName key) {a : List (List Char × List Item)}
    (h : assignments (environmentItem key val) = some a) :
    a = [(key, expand specifierAt 0 val)] ∧ (containsAny val " \t\"\\" = true ∨ '\'' ∉ val) := by
  rw [environmentItem] at h
  split at h
  · rename_i hcontains
    rw [assignments_quoted hkey] at h
    exact ⟨(Option.some.inj h).symm, .inl hcontains⟩
  · rename_i hcontains
    rw [Bool.not_eq_true] at hcontains
    by_cases hquote : '\'' ∈ val
    · rw [assignments_apostrophe hkey hcontains hquote] at h
      cases h
    · rw [assignments_bare hkey (ordinary_unquoted hcontains hquote)] at h
      exact ⟨(Option.some.inj h).symm, .inr hquote⟩

theorem assignments_kept (hkey : IsName key) (hval : Kept val) :
    assignments (environmentItem key val) = some [(key, val.map .text)] := by
  have hexpand := expand_literal (literal_specifierAt.mpr hval.percent)
  rw [environmentItem, ← hexpand]
  split
  · exact assignments_quoted hkey val
  · rename_i hcontains
    rw [Bool.not_eq_true] at hcontains
    have hquote : '\'' ∉ val := by
      rcases hval.apostrophe with htrue | hquote
      · rw [hcontains] at htrue
        cases htrue
      · exact hquote
    exact assignments_bare hkey (ordinary_unquoted hcontains hquote)

/-- A directive broken off in its value assigns nothing, or a shorter value. -/
theorem environmentItem_broken (hkey : IsName key) {front : List Char} (back : List Char) {b : Char} (hb : lineBreak b = true)
    (hfront : ∀ c ∈ front, lineBreak c = false) :
    ∃ item rest, environmentItem key (front ++ b :: back) = item ++ b :: rest ∧ (∀ c ∈ item, lineBreak c = false) ∧
      ∀ v, Remains item v → ∀ a, assignments v = some a →
        ∃ items, a = [(key, items)] ∧ items.length < (front ++ b :: back).length := by
  rw [environmentItem]
  split
  · have hescaped : escaped (front ++ b :: back) = escaped front ++ b :: escaped back := by
      rw [escaped_append]
      congr 1
      have hne : b ≠ '\\' ∧ b ≠ '"' := by
        constructor
        · intro heq
          rw [heq] at hb
          cases hb
        · intro heq
          rw [heq] at hb
          cases hb
      rw [escaped, List.flatMap_cons, if_neg hne.1, if_neg hne.2]
      rfl
    refine ⟨'"' :: escaped (key ++ '=' :: front), escaped back ++ ['"'], ?_, ?_, fun v hv a ha => ?_⟩
    · rw [hescaped, escaped_name hkey]
      simp
    · rw [escaped_name hkey]
      refine List.forall_mem_cons.mpr ⟨rfl, List.forall_mem_append.mpr ⟨hkey.breaks, ?_⟩⟩
      exact List.forall_mem_cons.mpr ⟨rfl, escaped_break hfront⟩
    · rw [assignments, words_broken hv] at ha
      cases ha
  · rename_i hcontains
    rw [Bool.not_eq_true] at hcontains
    have hplain := containsAny_append hcontains
    have hitem := environmentItem_whole hkey hfront
    have hself : environmentItem key front = key ++ '=' :: front := by
      rw [environmentItem, hplain]
      rfl
    rw [hself] at hitem
    refine ⟨key ++ '=' :: front, back, by simp, hitem.1, fun v hv a ha => ?_⟩
    rw [hv.1 hitem.2, ← hself] at ha
    obtain ⟨rfl, -⟩ := assignments_item hkey ha
    refine ⟨_, rfl, ?_⟩
    have hlength := expand_length fits_specifierAt (Nat.zero_le front.length)
    rw [List.length_append, List.length_cons]
    omega

end Environment

/-! ### What runs -/

def lastDirectives (c : Config) : List (List Char × List Char) :=
  (if c.XDGData ≠ [] then [("Service".toList, "Environment".toList)] else []) ++ [("Install".toList, "WantedBy".toList)]

def laterDirectives (c : Config) : List (List Char × List Char) :=
  (if c.System then [("Service".toList, "User".toList)] else []) ++
    ("Service".toList, "Environment".toList) :: lastDirectives c

/-- The directives there are to be: each one's section and key. -/
def Config.directives (c : Config) : List (List Char × List Char) :=
  [("Unit".toList, "Description".toList), ("Unit".toList, "After".toList)] ++ ("Service".toList, "Type".toList) ::
    ("Service".toList, "ExecStart".toList) :: ("Service".toList, "Restart".toList) :: laterDirectives c

def literal (s : List Char) : List Item := s.map .text

/-- The variables there are to be. -/
def Config.environment (c : Config) : List (List Char × List Item) :=
  ("HOME".toList, literal c.Home) ::
    if c.XDGData ≠ [] then [("XDG_DATA_HOME".toList, literal c.XDGData)] else []

/-- The rendered unit runs what was configured: its directives are those it is rendered from, its command has
the path and the arguments, and its environment the values. -/
structure Runs (c : Config) : Prop where
  directives : (parse (renderSystemdUnit c)).map Directive.name = c.directives
  executes : settings commands (values (parse (renderSystemdUnit c)) "Service".toList "ExecStart".toList) =
    some [⟨[], (c.Binary :: c.args).map literal⟩]
  environment : settings assignments (values (parse (renderSystemdUnit c)) "Service".toList "Environment".toList) =
    some c.environment

/-- A path or an argument that needs no quotes and holds nothing that is replaced. -/
structure Unquoted (a : List Char) : Prop where
  nonempty : a ≠ []
  plain : ∀ c ∈ a, c ∉ [' ', '\t', '\n', '\r', '"', '\'', '\\', '%']
  dollars : ¬ ['$', '$'] <:+: a
  braces : ∀ name, ¬ '$' :: '\x7b' :: (name ++ ['\x7d']) <:+: a
  /-- A dollar sign in front names a variable, unless it stands before a brace. -/
  head : ∀ rest, a = '$' :: rest → rest.head? = some '\x7b'
  separator : a ≠ [';']

theorem unquoted_iff {a : List Char} : Unquoted a ↔ Simple a ∧ ∀ c ∈ a, lineBreak c = false := by
  constructor
  · intro h
    have hchars : ∀ c ∈ a, ordinary c = true ∧ lineBreak c = false ∧ c ≠ '%' := by
      intro c hc
      have hplain := h.plain c hc
      simp only [List.mem_cons, List.not_mem_nil, or_false, not_or] at hplain
      simp [ordinary, white, quote, lineBreak, hplain]
    refine ⟨⟨⟨h.nonempty, fun c hc => (hchars c hc).1⟩, ⟨?_, fun rest hrest => .inr (h.head rest hrest)⟩, h.separator⟩,
      fun c hc => (hchars c hc).2.1⟩
    exact literal_commandAt.mpr ⟨fun hmem => (hchars _ hmem).2.2 rfl, h.dollars, h.braces⟩
  · intro h
    obtain ⟨⟨⟨hne, hordinary⟩, ⟨hliteral, hhead⟩, hseparator⟩, hbreaks⟩ := h
    obtain ⟨hpercent, hdollars, hbraces⟩ := literal_commandAt.mp hliteral
    refine ⟨hne, fun c hc => ?_, hdollars, hbraces, fun rest hrest => ?_, hseparator⟩
    · obtain ⟨hwhite, hquote, hback⟩ := ordinary_iff.mp (hordinary c hc)
      have hbreak := hbreaks c hc
      have hne : c ≠ '%' := fun heq => hpercent (heq ▸ hc)
      simp only [white, quote, lineBreak, Bool.or_eq_false_iff, beq_eq_false_iff_ne] at hwhite hquote hbreak
      simp [hwhite, hquote, hbreak, hback, hne]
    · rcases hhead rest hrest with hdollar | hbrace
      · refine absurd ?_ hdollars
        cases rest with
        | nil => cases hdollar
        | cons d rest =>
          obtain rfl := Option.some.inj hdollar
          exact ⟨[], rest, by rw [hrest]; rfl⟩
      · exact hbrace

/-! ### The command line -/

theorem mem_commandLine {c : Config} {d : Char} :
    d ∈ commandLine c ↔ d = ' ' ∨ ∃ a ∈ c.Binary :: c.args, d ∈ a := by
  have hjoin : ∀ (a b : List Char) (l : List (List Char)),
      d ∈ [' '].intercalate (a :: b :: l) ↔ d = ' ' ∨ ∃ a' ∈ a :: b :: l, d ∈ a' := by
    intro a b l
    induction l generalizing a b with
    | nil => simp [List.intercalate_cons_cons, List.intercalate_singleton]; tauto
    | cons e l ih =>
      rw [List.intercalate_cons_cons, List.mem_append, List.mem_append, ih]
      simp only [List.mem_cons, List.not_mem_nil, or_false, exists_eq_or_imp]
      tauto
  rw [commandLine]
  cases hargs : c.args with
  | nil => exact absurd hargs (args_ne_nil c)
  | cons b l => exact hjoin c.Binary b l

def unitKeys : List (List Char) :=
  ["Description", "After", "Type", "ExecStart", "Restart", "User", "Environment", "WantedBy"].map String.toList

theorem isKey_unit (key : List Char) (h : key ∈ unitKeys) : IsKey key := by
  have hall : ∀ key ∈ unitKeys, (key.head?.any (fun c => !(white c || c == '[' || c == '#' || c == ';')) = true) ∧
      (∀ c ∈ key.getLast?, white c = false) ∧ '=' ∉ key ∧ ∀ c ∈ key, lineBreak c = false := by decide
  obtain ⟨hhead, hlast, hplain, hbreaks⟩ := hall key h
  exact ⟨hhead, hlast, hplain, hbreaks⟩

/-- A directive on a line of its own. -/
theorem feed_line {r : Reader} (key value : List Char) (hkey : key ∈ unitKeys) (hfresh : Fresh r)
    (hvalue : ∀ c ∈ value, lineBreak c = false) (hlast : value.getLast? ≠ some '\\') :
    r.feed (directive key value ++ ['\n']) = r.add [⟨r.inSection, key, value.dropWhile white⟩] :=
  feed_add (isKey_unit _ hkey) hfresh hvalue hlast rfl

/-! ### Up to the command line -/

def description (c : Config) : List Char := "Marshal (".toList ++ join c.args [' '] ++ [')']

/-- Behind the lines of the section `Unit` the reader starts anew. -/
theorem feed_preamble (c : Config) :
    Fresh (Reader.feed {} (preamble c ++ (directive "After".toList "network.target".toList ++ ['\n']))) := by
  rw [feed_append]
  refine fresh_feed ?_ (by decide) (by decide) (by decide) (by decide) (by decide)
  unfold preamble
  rw [feed_append, feed_append _ (directive _ _), feed_break (by decide), endLine_line]

theorem feed_preamble_plain {c : Config} (hargs : ∀ d ∈ description c, lineBreak d = false) :
    (Reader.feed {} (preamble c ++ (directive "After".toList "network.target".toList ++ ['\n']))).directives =
      [⟨"Unit".toList, "Description".toList, description c⟩, ⟨"Unit".toList, "After".toList, "network.target".toList⟩] := by
  have hfresh : Fresh ({ } : Reader) := ⟨rfl, rfl⟩
  have hlast : (description c).getLast? ≠ some '\\' := by
    unfold description
    rw [List.getLast?_concat]
    decide
  have hwhite : (description c).dropWhile white = description c := by
    have hhead : description c = 'M' :: ("arshal (".toList ++ join c.args [' '] ++ [')']) := by
      unfold description
      simp
    rw [hhead]
    rfl
  have hsection : Reader.feed {} ('[' :: "Unit".toList ++ [']'] ++ ['\n']) = { inSection := "Unit".toList } :=
    feed_section hfresh (by decide) (by decide)
  have hdescription := feed_line (r := { inSection := "Unit".toList }) "Description".toList _ (by decide)
    ⟨rfl, rfl⟩ hargs hlast
  have hafter := feed_line (r := Reader.add { inSection := "Unit".toList } [⟨"Unit".toList, "Description".toList,
    description c⟩]) "After".toList "network.target".toList (by decide) ⟨rfl, rfl⟩ (by decide) (by decide)
  rw [hwhite] at hdescription
  have hpreamble : Reader.feed {} (preamble c) =
      Reader.add { inSection := "Unit".toList } [⟨"Unit".toList, "Description".toList, description c⟩] := by
    unfold preamble
    rw [feed_append, hsection]
    exact hdescription
  rw [feed_append, hpreamble, hafter]
  rfl

/-- A reader at the beginning of the section `Service`. -/
theorem feed_openingLines {r : Reader} (hfresh : Fresh r) : r.feed openingLines =
    { r with inSection := "Service".toList }.add [⟨"Service".toList, "Type".toList, "simple".toList⟩] := by
  have htype := feed_line (r := { r with inSection := "Service".toList }) "Type".toList
    "simple".toList (by decide) hfresh (by decide) (by decide)
  rw [openingLines, feed_append, feed_blank hfresh (by decide), feed_append, feed_section hfresh (by decide) (by decide),
    htype]
  rfl

/-- Behind the command line. -/
def laterLines (c : Config) : List Char :=
  directive "Restart".toList "on-failure".toList ++ ['\n'] ++
    (userLines c ++ (environmentLine "HOME".toList c.Home ++ (dataLines c ++ installLines c)))

def serviceType : Directive := ⟨"Service".toList, "Type".toList, "simple".toList⟩

/-- What is read of the unit is read by a reader at the beginning of its service. -/
theorem parse_renderSystemdUnit (c : Config) : ∃ s : Reader, Fresh s ∧ s.inSection = "Service".toList ∧
    (∃ ds, s.directives = ds ++ [serviceType] ∧ ((∀ d ∈ description c, lineBreak d = false) →
      ds = [⟨"Unit".toList, "Description".toList, description c⟩, ⟨"Unit".toList, "After".toList, "network.target".toList⟩])) ∧
    parse (renderSystemdUnit c) =
      (s.feed (directive "ExecStart".toList (commandLine c) ++ ['\n'] ++ laterLines c)).finish := by
  have hfresh := feed_preamble c
  have hplain := feed_preamble_plain (c := c)
  have hparse : parse (renderSystemdUnit c) =
      ((Reader.feed {} (preamble c ++ (directive "After".toList "network.target".toList ++ ['\n']))).feed
        (openingLines ++ (directive "ExecStart".toList (commandLine c) ++ ['\n'] ++ laterLines c))).finish := by
    rw [parse, renderSystemdUnit_eq, ← feed_append, List.append_assoc (preamble c)]
    rfl
  revert hfresh hplain hparse
  generalize Reader.feed {} (preamble c ++ (directive "After".toList "network.target".toList ++ ['\n'])) = r
  intro hfresh hplain hparse
  rw [feed_append, feed_openingLines hfresh] at hparse
  refine ⟨{ r with inSection := "Service".toList }.add [serviceType], ⟨hfresh.1, hfresh.2⟩, inSection_add _ _,
    ⟨r.directives, directives_add _ _, hplain⟩, ?_⟩
  unfold serviceType
  rw [hparse]

section Service
variable {c : Config} {s : Reader}

/-- The line behind `Restart` begins a directive of another name. -/
theorem laterLines_split (c : Config) : ∃ key value rest,
    laterLines c = directive "Restart".toList "on-failure".toList ++ ['\n'] ++ (directive key value ++ ['\n'] ++ rest) ∧
      key ∈ unitKeys ∧ key ≠ "Restart".toList := by
  unfold laterLines userLines
  split
  · exact ⟨"User".toList, c.User, _, rfl, by decide, by decide⟩
  · unfold environmentLine
    rw [List.nil_append]
    exact ⟨"Environment".toList, environmentItem "HOME".toList c.Home, _, rfl, by decide, by decide⟩

/-- A command line that goes on at its end takes the `Restart` line with it. -/
theorem names_held {r : Reader} {v : List Char} (hheld : Held r "ExecStart".toList v) (hline : r.line = []) (c : Config) :
    ∃ key after, ((r.feed (laterLines c)).finish).map Directive.name = r.directives.map Directive.name ++
      (r.inSection, "ExecStart".toList) :: (r.inSection, key) :: after ∧ key ≠ "Restart".toList := by
  obtain ⟨key, value, rest, hlines, hkey, hne⟩ := laterLines_split c
  have hrestart := feed_held (isKey_unit _ (by decide)) hheld hline (s := directive "Restart".toList "on-failure".toList)
    (b := '\n') (by decide) (by decide) (by decide) (by decide) (by decide)
  obtain ⟨w, after, hfinish⟩ := finish_key (isKey_unit _ hkey)
    (r := { r with
      pending := none
      directives := r.directives ++ [⟨r.inSection, "ExecStart".toList,
        (v ++ directive "Restart".toList "on-failure".toList).dropWhile white⟩] })
    ⟨hline, rfl⟩ value (b := '\n') rfl rest
  refine ⟨key, after.map Directive.name, ?_, hne⟩
  rw [hlines, feed_append, hrestart]
  unfold directive at hfinish ⊢
  rw [hfinish]
  simp only [List.map_append, List.map_cons, List.append_assoc, List.singleton_append, Directive.name]

theorem commandLine_white (hbinary : c.Binary.head? = some '/') :
    (commandLine c).dropWhile white = commandLine c := by
  refine Trim.dropWhile_eq_self fun d hd => ?_
  have hhead : (commandLine c).head? = some '/' := by
    rw [commandLine_eq, List.append_assoc, List.head?_append, hbinary]
    rfl
  rw [hhead] at hd
  rw [← Option.some.inj hd]
  rfl

/-- Where the command is the configured one, what was read for it is no shorter than the line, and the path and
the arguments can be written as they are. -/
theorem simple_of_executes {v : List Char} {ds after : List Directive} (hdirectives : values ds "Service".toList
      "ExecStart".toList = []) (hafter : values after "Service".toList "ExecStart".toList = [])
    (hlength : v.length ≤ (commandLine c).length)
    (h : settings commands (values (ds ++ ⟨"Service".toList, "ExecStart".toList, v.dropWhile white⟩ :: after)
      "Service".toList "ExecStart".toList) = some [⟨[], (c.Binary :: c.args).map literal⟩]) :
    v.length = (commandLine c).length ∧ ∀ a ∈ c.Binary :: c.args, Simple a := by
  rw [values_append, hdirectives, values_self, hafter, List.nil_append] at h
  by_cases hnil : v.dropWhile white = []
  · rw [hnil] at h
    cases h
  · rw [settings_one hnil] at h
    have hdrop : (v.dropWhile white).length ≤ v.length := (List.dropWhile_suffix white).length_le
    obtain ⟨hsame, hsimple⟩ := simple_of_commands h (hdrop.trans hlength)
    exact ⟨Nat.le_antisymm hlength (hsame ▸ hdrop), hsimple⟩

theorem mem_laterDirectives {p : List Char × List Char} (h : p ∈ laterDirectives c) :
    p ∈ ["User", "Environment", "WantedBy"].map fun key =>
      ((if key = "WantedBy" then "Install" else "Service").toList, key.toList) := by
  have hservice : ∀ (b : Prop) [Decidable b] (q : List Char × List Char), p ∈ (if b then [q] else []) → p = q := by
    intro b _ q hmem
    split at hmem
    · exact List.mem_singleton.mp hmem
    · cases hmem
  unfold laterDirectives lastDirectives at h
  rcases List.mem_append.mp h with huser | hrest
  · rw [hservice _ _ huser]
    decide
  · rcases List.mem_cons.mp hrest with rfl | hrest
    · decide
    · rcases List.mem_append.mp hrest with hdata | hlast
      · rw [hservice _ _ hdata]
        decide
      · rw [List.mem_singleton.mp hlast]
        decide

/-- So the command line was read as it is. -/
theorem unquoted_of_executes (hs : Fresh s) (hservice : s.inSection = "Service".toList)
    (hvalues : values s.directives "Service".toList "ExecStart".toList = [])
    (hnames : ((s.feed (directive "ExecStart".toList (commandLine c) ++ ['\n'] ++ laterLines c)).finish).map Directive.name =
      s.directives.map Directive.name ++
        ("Service".toList, "ExecStart".toList) :: ("Service".toList, "Restart".toList) :: laterDirectives c)
    (h : settings commands (values (s.feed (directive "ExecStart".toList (commandLine c) ++ ['\n'] ++ laterLines c)).finish
      "Service".toList "ExecStart".toList) = some [⟨[], (c.Binary :: c.args).map literal⟩]) :
    ∀ a ∈ c.Binary :: c.args, Unquoted a := by
  rw [feed_append] at hnames h
  have hread : ∀ (v : List Char) (after : List Directive), ((s.feed (directive "ExecStart".toList (commandLine c) ++ ['\n'])).feed (laterLines c)).finish =
      s.directives ++ ⟨"Service".toList, "ExecStart".toList, v.dropWhile white⟩ :: after →
      v.length ≤ (commandLine c).length → v.length = (commandLine c).length ∧ ∀ a ∈ c.Binary :: c.args, Simple a := by
    intro v after hfinish hlength
    rw [hfinish] at h
    rw [hfinish, List.map_append, List.map_cons] at hnames
    have hrest := (List.cons.inj (List.append_cancel_left hnames)).2
    refine simple_of_executes hvalues (values_eq_nil ?_) hlength h
    rw [hrest, List.mem_cons, not_or]
    exact ⟨by decide, fun hmem => absurd (mem_laterDirectives hmem) (by decide)⟩
  cases taken (isKey_unit "ExecStart".toList (by decide)) hs (commandLine c) (b := '\n') rfl with
  | whole hbreaks hlast heq =>
    obtain ⟨more, hmore⟩ := finish_feed (s.feed (directive "ExecStart".toList (commandLine c) ++ ['\n'])) (laterLines c)
    unfold directive at hmore hread
    rw [heq, hservice, List.append_assoc, List.singleton_append] at hmore
    rw [heq, hservice] at hread
    obtain ⟨-, hsimple⟩ := hread (commandLine c) more hmore (Nat.le_refl _)
    intro a ha
    refine unquoted_iff.mpr ⟨hsimple a ha, fun d hd => hbreaks d (mem_commandLine.mpr (.inr ⟨a, ha, hd⟩))⟩
  | less v after hdirectives hlength =>
    obtain ⟨more, hmore⟩ := finish_feed (s.feed (directive "ExecStart".toList (commandLine c) ++ ['\n'])) (laterLines c)
    unfold directive at hmore hread
    rw [hdirectives, hservice, List.append_assoc s.directives, List.cons_append] at hmore
    obtain ⟨hsame, -⟩ := hread v (after ++ more) hmore hlength.le
    exact absurd hsame hlength.ne
  | held v hheld hline hsection hdirectives =>
    obtain ⟨key, after, hheldNames, hne⟩ := names_held hheld hline c
    unfold directive at hnames
    rw [hheldNames, hdirectives, hsection, hservice] at hnames
    have hrest := (List.cons.inj (List.append_cancel_left hnames)).2
    exact absurd (Prod.mk.inj (List.cons.inj hrest).1).2 hne

theorem unquoted_commandLine (h : ∀ a ∈ c.Binary :: c.args, Unquoted a) :
    (∀ d ∈ commandLine c, lineBreak d = false) ∧ (commandLine c).getLast? ≠ some '\\' := by
  have hchars : ∀ d ∈ commandLine c, lineBreak d = false ∧ d ≠ '\\' := by
    intro d hd
    rcases mem_commandLine.mp hd with rfl | ⟨a, ha, hmem⟩
    · decide
    · have hplain := (h a ha).plain d hmem
      simp only [List.mem_cons, List.not_mem_nil, or_false, not_or] at hplain
      simp [lineBreak, hplain]
  exact ⟨fun d hd => (hchars d hd).1, fun hlast => (hchars _ (List.mem_of_getLast? hlast)).2 rfl⟩

/-- A user name takes one line. -/
def OneLine (value : List Char) : Prop := (∀ d ∈ value, lineBreak d = false) ∧ value.getLast? ≠ some '\\'

def userDirectives (c : Config) : List Directive :=
  if c.System then [⟨"Service".toList, "User".toList, c.User.dropWhile white⟩] else []

/-- What is read up to the environment. -/
def commandDirectives (c : Config) : List Directive :=
  [⟨"Service".toList, "ExecStart".toList, commandLine c⟩, ⟨"Service".toList, "Restart".toList, "on-failure".toList⟩] ++
    userDirectives c

theorem names_userDirectives (c : Config) :
    (userDirectives c).map Directive.name = if c.System then [("Service".toList, "User".toList)] else [] := by
  unfold userDirectives
  split <;> rfl

theorem feed_command (hs : Fresh s) (hservice : s.inSection = "Service".toList) (hbinary : c.Binary.head? = some '/')
    (huser : c.System = true → OneLine c.User) (h : ∀ a ∈ c.Binary :: c.args, Unquoted a) :
    s.feed (directive "ExecStart".toList (commandLine c) ++ ['\n'] ++
      (directive "Restart".toList "on-failure".toList ++ ['\n'] ++ userLines c)) = s.add (commandDirectives c) := by
  obtain ⟨hbreaks, hlast⟩ := unquoted_commandLine h
  have hexec := feed_line "ExecStart".toList _ (by decide) hs hbreaks hlast
  rw [commandLine_white hbinary, hservice] at hexec
  have hrestart := feed_line "Restart".toList "on-failure".toList (by decide)
    (fresh_add hs [⟨"Service".toList, "ExecStart".toList, commandLine c⟩]) (by decide) (by decide)
  rw [inSection_add, hservice] at hrestart
  have hwhite : "on-failure".toList.dropWhile white = "on-failure".toList := by decide
  rw [hwhite, add_add, List.singleton_append] at hrestart
  rw [feed_append, hexec, feed_append, hrestart]
  unfold commandDirectives
  rw [← add_add]
  unfold userLines userDirectives
  cases hsystem : c.System with
  | false => exact (add_nil _).symm
  | true =>
    obtain ⟨huserBreaks, huserLast⟩ := huser hsystem
    have hline := feed_line "User".toList _ (by decide) (fresh_add hs [⟨"Service".toList, "ExecStart".toList,
      commandLine c⟩, ⟨"Service".toList, "Restart".toList, "on-failure".toList⟩]) huserBreaks huserLast
    rw [inSection_add, hservice] at hline
    exact hline

theorem feed_serviceLines (hs : Fresh s) (hservice : s.inSection = "Service".toList)
    (hbinary : c.Binary.head? = some '/') (huser : c.System = true → OneLine c.User)
    (h : ∀ a ∈ c.Binary :: c.args, Unquoted a) :
    s.feed (directive "ExecStart".toList (commandLine c) ++ ['\n'] ++ laterLines c) = (s.add (commandDirectives c)).feed
      (environmentLine "HOME".toList c.Home ++ (dataLines c ++ installLines c)) := by
  have hlines : directive "ExecStart".toList (commandLine c) ++ ['\n'] ++ laterLines c =
      directive "ExecStart".toList (commandLine c) ++ ['\n'] ++
        (directive "Restart".toList "on-failure".toList ++ ['\n'] ++ userLines c) ++
        (environmentLine "HOME".toList c.Home ++ (dataLines c ++ installLines c)) := by
    unfold laterLines
    rw [List.append_assoc (directive "ExecStart".toList (commandLine c) ++ ['\n']),
      List.append_assoc (directive "Restart".toList "on-failure".toList ++ ['\n'])]
  rw [hlines, feed_append, feed_command hs hservice hbinary huser h]

/-! ### The environment -/

theorem nameHome : IsName "HOME".toList := ⟨⟨by decide, by decide⟩, by decide, by decide⟩

theorem nameData : IsName "XDG_DATA_HOME".toList := ⟨⟨by decide, by decide⟩, by decide, by decide⟩

theorem environmentItem_white {key : List Char} (hkey : IsName key) (val : List Char) :
    (environmentItem key val).dropWhile white = environmentItem key val := by
  obtain ⟨⟨hne, hordinary⟩, -, -⟩ := hkey
  cases key with
  | nil => exact absurd rfl hne
  | cons k key =>
    have hk : white k = false := (ordinary_iff.mp (hordinary k List.mem_cons_self)).1
    rw [environmentItem]
    split
    · rfl
    · rw [List.cons_append, List.dropWhile_cons, if_neg (by rw [hk]; exact Bool.false_ne_true)]

/-- What an environment line assigns is the configured value only if the value can be kept. -/
theorem finish_environment {key : List Char} (hkey : IsName key) (hs : Fresh s) (val rest : List Char) :
    ∃ v after, (s.feed (environmentLine key val ++ rest)).finish =
        s.directives ++ ⟨s.inSection, "Environment".toList, v⟩ :: after ∧
      ∀ a, assignments v = some a → ∃ items, a = [(key, items)] ∧ (items = literal val → Kept val) := by
  have hunit : IsKey "Environment".toList := isKey_unit _ (by decide)
  unfold environmentLine
  rcases plain_or_split val with hval | ⟨front, b, back, rfl, hb, hfront⟩
  · obtain ⟨hbreaks, hlast⟩ := environmentItem_whole hkey hval
    obtain ⟨v, after, hfinish, hself, -⟩ := finish_line hunit hs hbreaks (b := '\n') rfl rest
    refine ⟨_, after, hfinish, fun a ha => ?_⟩
    rw [hself hlast, assignments, words_dropWhile, ← assignments] at ha
    obtain ⟨rfl, hquotes⟩ := assignments_item hkey ha
    refine ⟨_, rfl, fun hitems => ?_⟩
    obtain ⟨hfeed, hreturn⟩ := not_break_iff.mp hval
    rcases expand_text fits_specifierAt hitems with hlt | ⟨-, hliteral⟩
    · exact absurd hlt (Nat.lt_irrefl _)
    · exact ⟨hfeed, hreturn, literal_specifierAt.mp hliteral, hquotes⟩
  · obtain ⟨item, more, hitem, hbreaks, hassign⟩ := environmentItem_broken hkey back hb hfront
    obtain ⟨v, after, hfinish, hremains⟩ := finish_line hunit hs hbreaks hb (more ++ ['\n'] ++ rest)
    have hsplit : directive "Environment".toList (environmentItem key (front ++ b :: back)) ++ ['\n'] ++ rest =
        "Environment".toList ++ '=' :: item ++ [b] ++ (more ++ ['\n'] ++ rest) := by
      unfold directive
      rw [hitem]
      simp only [List.append_assoc, List.cons_append, List.nil_append]
    rw [hsplit]
    refine ⟨_, after, hfinish, fun a ha => ?_⟩
    rw [assignments, words_dropWhile, ← assignments] at ha
    obtain ⟨items, hsingle, hshort⟩ := hassign v hremains a ha
    refine ⟨items, hsingle, fun hitems => absurd hshort ?_⟩
    rw [hitems, literal, List.length_map]
    exact Nat.lt_irrefl _

theorem feed_environment {key val : List Char} (hkey : IsName key) (hs : Fresh s) (hval : Kept val) :
    s.feed (environmentLine key val) = s.add [⟨s.inSection, "Environment".toList, environmentItem key val⟩] := by
  obtain ⟨hbreaks, hlast⟩ := environmentItem_whole hkey (not_break_iff.mpr ⟨hval.lineFeed, hval.carriageReturn⟩)
  have hline := feed_line "Environment".toList _ (by decide) hs hbreaks hlast
  rw [environmentItem_white hkey] at hline
  exact hline

theorem assignments_nonempty (key : List Char) {v : List Char} {P : List Item → Prop}
    (h : ∀ a, assignments v = some a → ∃ items, a = [(key, items)] ∧ P items) : v ≠ [] := by
  intro hnil
  subst hnil
  obtain ⟨items, heq, -⟩ := h [] rfl
  cases heq

/-- Where the environment is the configured one, its values can be kept. -/
theorem kept_of_environment (hs : Fresh s) (hservice : s.inSection = "Service".toList)
    (hvalues : values s.directives "Service".toList "Environment".toList = [])
    (hnames : ((s.feed (environmentLine "HOME".toList c.Home ++ (dataLines c ++ installLines c))).finish).map Directive.name =
      s.directives.map Directive.name ++ ("Service".toList, "Environment".toList) :: lastDirectives c)
    (h : settings assignments (values (s.feed (environmentLine "HOME".toList c.Home ++ (dataLines c ++ installLines c))).finish
      "Service".toList "Environment".toList) = some c.environment) :
    Kept c.Home ∧ (c.XDGData ≠ [] → Kept c.XDGData) := by
  have hhome : Kept c.Home := by
    obtain ⟨v, after, hfinish, hassign⟩ := finish_environment nameHome hs c.Home (dataLines c ++ installLines c)
    rw [hservice] at hfinish
    rw [hfinish, values_append, hvalues, values_self, List.nil_append] at h
    rw [hfinish, List.map_append, List.map_cons] at hnames
    have hafter := (List.cons.inj (List.append_cancel_left hnames)).2
    have hcount : (values after "Service".toList "Environment".toList).length ≤ 1 := by
      rw [length_values, hafter]
      unfold lastDirectives
      split <;> decide
    obtain ⟨a, rest, ha, heq⟩ := settings_head (assignments_nonempty _ hassign) hcount h
    obtain ⟨items, rfl, hkept⟩ := hassign a ha
    exact hkept (Prod.mk.inj (List.cons.inj heq).1).2
  refine ⟨hhome, fun hdata => ?_⟩
  obtain ⟨v, after, hfinish, hassign⟩ := finish_environment nameData
    (fresh_add hs [⟨"Service".toList, "Environment".toList, environmentItem "HOME".toList c.Home⟩]) c.XDGData (installLines c)
  have hlines : dataLines c = environmentLine "XDG_DATA_HOME".toList c.XDGData := by
    unfold dataLines
    rw [if_pos hdata]
  rw [feed_append, feed_environment nameHome hs hhome, hservice, hlines] at hnames h
  rw [inSection_add, hservice, directives_add, List.append_assoc, List.singleton_append] at hfinish
  have hlast : lastDirectives c = ("Service".toList, "Environment".toList) :: [("Install".toList, "WantedBy".toList)] := by
    unfold lastDirectives
    rw [if_pos hdata, List.singleton_append]
  rw [hfinish, hlast, List.map_append, List.map_cons, List.map_cons] at hnames
  have hafter := (List.cons.inj (List.cons.inj (List.append_cancel_left hnames)).2).2
  have hnone : values after "Service".toList "Environment".toList = [] := values_eq_nil (by rw [hafter]; decide)
  have henvironment : c.environment =
      [("HOME".toList, literal c.Home), ("XDG_DATA_HOME".toList, literal c.XDGData)] := by
    unfold Config.environment
    rw [if_pos hdata]
  rw [hfinish, values_append, hvalues, values_self, values_self, hnone, List.nil_append, henvironment] at h
  have hitem : environmentItem "HOME".toList c.Home ≠ [] := by
    refine assignments_nonempty "HOME".toList (P := fun _ => True) fun a ha => ?_
    exact ⟨_, (assignments_item nameHome ha).1, trivial⟩
  obtain ⟨a, a', ha, ha', heq⟩ := settings_both hitem h
  rw [assignments_kept nameHome hhome] at ha
  obtain rfl := Option.some.inj ha
  obtain ⟨items, rfl, hkept⟩ := hassign a' ha'
  exact hkept (Prod.mk.inj (List.cons.inj (List.cons.inj heq).2).1).2

def dataDirective (c : Config) : List Directive :=
  if c.XDGData ≠ [] then
    [⟨"Service".toList, "Environment".toList, environmentItem "XDG_DATA_HOME".toList c.XDGData⟩]
  else []

theorem feed_dataLines (hs : Fresh s) (hservice : s.inSection = "Service".toList)
    (h : c.XDGData ≠ [] → Kept c.XDGData) : s.feed (dataLines c) = s.add (dataDirective c) := by
  unfold dataLines dataDirective
  by_cases hdata : c.XDGData ≠ []
  · rw [if_pos hdata, if_pos hdata, feed_environment nameData hs (h hdata), hservice]
  · rw [if_neg hdata, if_neg hdata, add_nil]
    rfl

theorem finish_installLines (hs : Fresh s) (c : Config) :
    (s.feed (installLines c)).finish = s.directives ++ [⟨"Install".toList, "WantedBy".toList, target c⟩] := by
  have htarget : (∀ d ∈ target c, lineBreak d = false) ∧ (target c).getLast? ≠ some '\\' ∧
      (target c).dropWhile white = target c := by
    unfold target
    split <;> decide
  obtain ⟨hbreaks, hlast, hwhite⟩ := htarget
  have hinstall : Fresh { s with inSection := "Install".toList } := ⟨hs.1, hs.2⟩
  have hline := feed_line "WantedBy".toList _ (by decide) hinstall hbreaks hlast
  rw [hwhite] at hline
  unfold installLines
  rw [feed_append, feed_blank hs (by decide), feed_append, feed_section hs (by decide) (by decide), hline,
    finish_fresh (fresh_add hinstall _), directives_add]

theorem description_plain (h : ∀ a ∈ c.Binary :: c.args, Unquoted a) : ∀ d ∈ description c, lineBreak d = false := by
  intro d hd
  have hmarshal : ∀ d ∈ "Marshal (".toList, lineBreak d = false := by decide
  unfold description at hd
  rcases List.mem_append.mp hd with hd | hd
  · rcases List.mem_append.mp hd with hd | hd
    · exact hmarshal d hd
    · refine (unquoted_commandLine h).1 d ?_
      rw [commandLine_eq]
      exact List.mem_append_right _ hd
  · rw [List.mem_singleton.mp hd]
    rfl

/-- The directives of a unit whose values are read as they are. -/
def readDirectives (c : Config) : List Directive :=
  [⟨"Unit".toList, "Description".toList, description c⟩, ⟨"Unit".toList, "After".toList, "network.target".toList⟩,
    serviceType] ++ (commandDirectives c ++
    (⟨"Service".toList, "Environment".toList, environmentItem "HOME".toList c.Home⟩ :: (dataDirective c ++
    [⟨"Install".toList, "WantedBy".toList, target c⟩])))

theorem parse_plain (hbinary : c.Binary.head? = some '/') (huser : c.System = true → OneLine c.User)
    (h : ∀ a ∈ c.Binary :: c.args, Unquoted a) (hhome : Kept c.Home) (hdata : c.XDGData ≠ [] → Kept c.XDGData) :
    parse (renderSystemdUnit c) = readDirectives c := by
  obtain ⟨s, hs, hservice, ⟨ds, hdirectives, hplain⟩, hparse⟩ := parse_renderSystemdUnit c
  have hcommand : Fresh (s.add (commandDirectives c)) := fresh_add hs _
  rw [hparse, feed_serviceLines hs hservice hbinary huser h, feed_append,
    feed_environment nameHome hcommand hhome, feed_append, feed_dataLines (fresh_add hcommand _) hservice hdata,
    finish_installLines (fresh_add (fresh_add hcommand _) _)]
  simp only [directives_add, inSection_add, hservice, hdirectives, hplain (description_plain h)]
  unfold readDirectives
  simp only [List.append_assoc, List.cons_append, List.nil_append]

theorem names_dataDirective (c : Config) : (dataDirective c).map Directive.name =
    if c.XDGData ≠ [] then [("Service".toList, "Environment".toList)] else [] := by
  unfold dataDirective
  split <;> rfl

theorem names_readDirectives (c : Config) : (readDirectives c).map Directive.name = c.directives := by
  unfold readDirectives commandDirectives Config.directives laterDirectives lastDirectives serviceType
  simp only [List.map_append, List.map_cons, List.map_nil, names_userDirectives, names_dataDirective, Directive.name,
    List.cons_append, List.nil_append]

theorem executes_readDirectives (hbinary : c.Binary.head? = some '/') (h : ∀ a ∈ c.Binary :: c.args, Unquoted a) :
    settings commands (values (readDirectives c) "Service".toList "ExecStart".toList) =
      some [⟨[], (c.Binary :: c.args).map literal⟩] := by
  let front : List Directive := [⟨"Unit".toList, "Description".toList, description c⟩,
    ⟨"Unit".toList, "After".toList, "network.target".toList⟩, serviceType]
  let after : List Directive := ⟨"Service".toList, "Restart".toList, "on-failure".toList⟩ :: (userDirectives c ++
    ⟨"Service".toList, "Environment".toList, environmentItem "HOME".toList c.Home⟩ :: (dataDirective c ++
      [⟨"Install".toList, "WantedBy".toList, target c⟩]))
  have hsplit : readDirectives c = front ++ ⟨"Service".toList, "ExecStart".toList, commandLine c⟩ :: after := by
    unfold readDirectives commandDirectives
    simp only [front, after, List.cons_append, List.nil_append]
  have hfront : values front "Service".toList "ExecStart".toList = [] := by
    unfold front serviceType
    exact values_eq_nil (by simp [Directive.name])
  have hnames : after.map Directive.name = ("Service".toList, "Restart".toList) :: laterDirectives c := by
    unfold after laterDirectives lastDirectives
    simp only [List.map_append, List.map_cons, List.map_nil, names_userDirectives, names_dataDirective, Directive.name]
  have hafter : values after "Service".toList "ExecStart".toList = [] := by
    refine values_eq_nil ?_
    rw [hnames, List.mem_cons, not_or]
    exact ⟨by decide, fun hmem => absurd (mem_laterDirectives hmem) (by decide)⟩
  have hne : commandLine c ≠ [] := by
    rw [commandLine_eq]
    simp
  have hflag : c.Binary.head?.any flag = false := by
    rw [hbinary]
    rfl
  rw [hsplit, values_append, hfront, values_self, hafter, List.nil_append, settings_one hne]
  exact commands_simple (fun a ha => (unquoted_iff.mp (h a ha)).1) hflag

theorem environment_readDirectives (hhome : Kept c.Home) (hdata : c.XDGData ≠ [] → Kept c.XDGData) :
    settings assignments (values (readDirectives c) "Service".toList "Environment".toList) = some c.environment := by
  let front : List Directive := [⟨"Unit".toList, "Description".toList, description c⟩,
    ⟨"Unit".toList, "After".toList, "network.target".toList⟩, serviceType,
    ⟨"Service".toList, "ExecStart".toList, commandLine c⟩, ⟨"Service".toList, "Restart".toList, "on-failure".toList⟩] ++
    userDirectives c
  have hsplit : readDirectives c = front ++ ⟨"Service".toList, "Environment".toList, environmentItem "HOME".toList c.Home⟩ ::
      (dataDirective c ++ [⟨"Install".toList, "WantedBy".toList, target c⟩]) := by
    unfold readDirectives commandDirectives
    simp only [front, List.cons_append, List.nil_append]
  have hfront : values front "Service".toList "Environment".toList = [] := by
    refine values_eq_nil ?_
    unfold front serviceType
    rw [List.map_append, names_userDirectives, List.mem_append, not_or]
    exact ⟨by simp [Directive.name], by split <;> decide⟩
  have hlast : values [⟨"Install".toList, "WantedBy".toList, target c⟩] "Service".toList "Environment".toList = [] :=
    values_eq_nil (by simp [Directive.name])
  have hitem : ∀ {key val : List Char}, IsName key → environmentItem key val ≠ [] := by
    intro key val hkey
    refine assignments_nonempty key (P := fun _ => True) fun a ha => ?_
    exact ⟨_, (assignments_item hkey ha).1, trivial⟩
  rw [hsplit, values_append, hfront, values_self, values_append, hlast, List.nil_append, List.append_nil]
  unfold dataDirective Config.environment
  by_cases hxdg : c.XDGData ≠ []
  · rw [if_pos hxdg, if_pos hxdg, values_self, values_nil, settings_two (hitem nameHome) (hitem nameData),
      assignments_kept nameHome hhome, assignments_kept nameData (hdata hxdg)]
    rfl
  · rw [if_neg hxdg, if_neg hxdg, values_nil, settings_one (hitem nameHome), assignments_kept nameHome hhome]
    rfl

theorem names_commandDirectives (c : Config) : (commandDirectives c).map Directive.name =
    ("Service".toList, "ExecStart".toList) :: ("Service".toList, "Restart".toList) ::
      if c.System then [("Service".toList, "User".toList)] else [] := by
  unfold commandDirectives
  rw [List.map_append, names_userDirectives]
  rfl

/-- The one `Type` directive tells those before the service from the others. -/
theorem names_start {ds more : List Directive} (hdirectives : s.directives = ds ++ [serviceType])
    (h : (s.directives ++ more).map Directive.name = c.directives) :
    s.directives.map Directive.name = [("Unit".toList, "Description".toList), ("Unit".toList, "After".toList),
      ("Service".toList, "Type".toList)] := by
  have hunit : ("Service".toList, "Type".toList) ∉
      [("Unit".toList, "Description".toList), ("Unit".toList, "After".toList)] := by decide
  have hlater : ("Service".toList, "Type".toList) ∉
      ("Service".toList, "ExecStart".toList) :: ("Service".toList, "Restart".toList) :: laterDirectives c := by
    rw [List.mem_cons, List.mem_cons, not_or, not_or]
    exact ⟨by decide, by decide, fun hmem => absurd (mem_laterDirectives hmem) (by decide)⟩
  rw [hdirectives, List.append_assoc, List.map_append, List.singleton_append, List.map_cons] at h
  unfold Config.directives at h
  obtain ⟨hds, -, -⟩ := (List.append_cons_inj_of_notMem hunit hlater).mp h.symm
  rw [hdirectives, List.map_append, ← hds]
  rfl

theorem conditions_of_runs (h : Runs c) (hbinary : c.Binary.head? = some '/') (huser : c.System = true → OneLine c.User) :
    (∀ a ∈ c.Binary :: c.args, Unquoted a) ∧ Kept c.Home ∧ (c.XDGData ≠ [] → Kept c.XDGData) := by
  obtain ⟨hnames, hexec, henvironment⟩ := h
  obtain ⟨s, hs, hservice, ⟨ds, hdirectives, -⟩, hparse⟩ := parse_renderSystemdUnit c
  rw [hparse] at hnames hexec henvironment
  obtain ⟨more, hmore⟩ := finish_feed s (directive "ExecStart".toList (commandLine c) ++ ['\n'] ++ laterLines c)
  have hstart := names_start hdirectives (hmore ▸ hnames)
  have hsplit : ((s.feed (directive "ExecStart".toList (commandLine c) ++ ['\n'] ++ laterLines c)).finish).map
      Directive.name = s.directives.map Directive.name ++ ("Service".toList, "ExecStart".toList) ::
        ("Service".toList, "Restart".toList) :: laterDirectives c := by
    rw [hnames, hstart]
    rfl
  have hnone : ∀ key : List Char, key ∈ ["ExecStart".toList, "Environment".toList] →
      values s.directives "Service".toList key = [] := by
    intro key hkey
    refine values_eq_nil ?_
    rw [hstart]
    simp only [List.mem_cons, List.not_mem_nil, or_false] at hkey
    rcases hkey with rfl | rfl <;> decide
  have hargs := unquoted_of_executes hs hservice (hnone _ (by decide)) hsplit hexec
  rw [feed_serviceLines hs hservice hbinary huser hargs] at hsplit henvironment
  refine ⟨hargs, kept_of_environment (s := s.add (commandDirectives c)) (fresh_add hs _) hservice ?_ ?_ henvironment⟩
  · rw [directives_add, values_append, hnone _ (by decide), List.nil_append]
    refine values_eq_nil ?_
    rw [names_commandDirectives]
    split <;> decide
  · rw [hsplit, directives_add, List.map_append, names_commandDirectives]
    unfold laterDirectives
    simp only [List.append_assoc, List.cons_append]

end Service

def systemService : Config where
  Binary := "/usr/local/bin/marshal".toList
  User := "root".toList
  Home := "/root".toList
  XDGData := []
  System := true
  Args := ["server".toList, "run".toList]

/-- A path with a blank. -/
def blankPath : Config where
  Binary := "/opt/my apps/marshal".toList
  User := "ann".toList
  Home := "/home/ann".toList
  XDGData := []
  System := false
  Args := []

end Marshal.Startup
