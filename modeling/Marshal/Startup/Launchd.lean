import Marshal.Lib.Chars
import Marshal.Lib.Utf8
import Marshal.Lib.Xml
import Marshal.Startup

/-! What launchd makes of the rendered plist.

All the configured strings are escaped, so the plist always says what to run, with as many arguments
as there are; but a document holds characters only, and not all of them. A byte that is no
UTF-8, and a character that XML has not, is written as the replacement character. So
launchd runs what was configured exactly where each string is text of XML's characters
(`renderLaunchdPlist_loads`). -/
namespace Marshal.Startup
open Chars Xml Plist
open String (toList_ofList)

/-- A boot service by its name. -/
structure Service extends Config where
  /-- Empty for the daemon's own. -/
  Label : List Char

def Service.launchdLabelFor (c : Service) : List Char :=
  if c.Label = [] then "com.marshal.daemon".toList else "com.".toList ++ c.Label

/-! ### The plist -/

/-- The bytes of a string. -/
def raw (s : List Char) : List UInt8 := s.map Char.toUInt8

/-- How `xml.EscapeText` writes one character. -/
def escapeText (c : Char) : List Char :=
  if c = '"' then "&#34;".toList
  else if c = '\'' then "&#39;".toList
  else if c = '&' then "&amp;".toList
  else if c = '<' then "&lt;".toList
  else if c = '>' then "&gt;".toList
  else if c = '\t' then "&#x9;".toList
  else if c = '\n' then "&#xA;".toList
  else if c = '\r' then "&#xD;".toList
  else if isChar c then [c]
  else ['\uFFFD']

/-- A byte that begins no character is written as one that XML has not. -/
def xmlEsc (s : List Char) : List Char := Utf8.bytes ((Utf8.lossy (raw s)).flatMap escapeText)

def stringElem (key val : List Char) : List Char :=
  "  <key>".toList ++ xmlEsc key ++ "</key>\n  <string>".toList ++ xmlEsc val ++ "</string>\n".toList

def arrayString (val : List Char) : List Char :=
  "    <string>".toList ++ xmlEsc val ++ "</string>\n".toList

def boolElem (key : List Char) (v : Bool) : List Char :=
  "  <key>".toList ++ xmlEsc key ++ "</key>\n  <".toList ++ (if v then "true".toList else "false".toList) ++ "/>\n".toList

def renderLaunchdPlist (c : Service) : List Char :=
  "<?xml version=\"1.0\" encoding=\"UTF-8\"?>\n".toList ++
  "<!DOCTYPE plist PUBLIC \"-//Apple//DTD PLIST 1.0//EN\" \"http://www.apple.com/DTDs/PropertyList-1.0.dtd\">\n".toList ++
  "<plist version=\"1.0\">\n<dict>\n".toList ++
  stringElem "Label".toList c.launchdLabelFor ++
  "  <key>ProgramArguments</key>\n  <array>\n".toList ++
  arrayString c.Binary ++
  c.args.flatMap arrayString ++
  "  </array>\n".toList ++
  boolElem "RunAtLoad".toList true ++
  boolElem "KeepAlive".toList true ++
  (if c.System then stringElem "UserName".toList c.User else []) ++
  "  <key>EnvironmentVariables</key>\n  <dict>\n".toList ++
  stringElem "HOME".toList c.Home ++
  (if c.XDGData ≠ [] then stringElem "XDG_DATA_HOME".toList c.XDGData else []) ++
  "  </dict>\n".toList ++
  "</dict>\n</plist>\n".toList

/-! ### launchd -/

/-- A job that launchd keeps. -/
structure Job where
  Label : List Char
  ProgramArguments : List (List Char)
  RunAtLoad : Bool
  KeepAlive : Bool
  UserName : Option (List Char)
  EnvironmentVariables : List (List Char × List Char)
  deriving DecidableEq, Repr

def stringOf : Value → Option (List Char)
  | .string s => some (Utf8.bytes s)
  | _ => none

def flagOf : Option Value → Option Bool
  | none => some false
  | some (.bool b) => some b
  | some _ => none

def stringsOf : Value → Option (List (List Char))
  | .array items => items.mapM stringOf
  | _ => none

def variablesOf : Option Value → Option (List (List Char × List Char))
  | none => some []
  | some (.dict entries) => entries.mapM fun e => (stringOf e.2).map fun s => (Utf8.bytes e.1, s)
  | some _ => none

/-- The job a property list describes. A flag that is not there is false. -/
def jobOf : Value → Option Job
  | .dict entries => do
    let key := fun name : String => entries.lookup name.toList
    return {
      Label := ← (key "Label").bind stringOf
      ProgramArguments := ← (key "ProgramArguments").bind stringsOf
      RunAtLoad := ← flagOf (key "RunAtLoad")
      KeepAlive := ← flagOf (key "KeepAlive")
      UserName := ← match key "UserName" with
        | none => some none
        | some v => (stringOf v).map some
      EnvironmentVariables := ← variablesOf (key "EnvironmentVariables") }
  | _ => none

/-- What launchd loads from a file, if it is UTF-8 and has a reading. -/
def load (content : List Char) : Option Job :=
  let text := Utf8.lossy (raw content)
  if Utf8.encode text = raw content then (Plist.read text).bind jobOf else none

/-- What was configured. -/
def Service.job (c : Service) : Job where
  Label := c.launchdLabelFor
  ProgramArguments := c.Binary :: c.args
  RunAtLoad := true
  KeepAlive := true
  UserName := if c.System then some c.User else none
  EnvironmentVariables := ("HOME".toList, c.Home) ::
    if c.XDGData ≠ [] then [("XDG_DATA_HOME".toList, c.XDGData)] else []

def Job.strings (j : Job) : List (List Char) :=
  j.Label :: j.ProgramArguments ++ j.UserName.toList ++ j.EnvironmentVariables.map Prod.snd

def Job.map (f : List Char → List Char) (j : Job) : Job where
  Label := f j.Label
  ProgramArguments := j.ProgramArguments.map f
  RunAtLoad := j.RunAtLoad
  KeepAlive := j.KeepAlive
  UserName := j.UserName.map f
  EnvironmentVariables := j.EnvironmentVariables.map fun e => (e.1, f e.2)

/-! ### What is written -/

theorem raw_bytes (cs : List Char) : raw (Utf8.bytes cs) = Utf8.encode cs := by
  rw [raw, Utf8.bytes, List.map_map]
  exact (List.map_congr_left fun b _ => Utf8.toUInt8_ofUInt8 b).trans (List.map_id _)

/-- What a character is read back as. -/
def mend (c : Char) : Char := if isChar c then c else '\uFFFD'

/-- What a string is read back as. -/
def shown (s : List Char) : List Char := (Utf8.lossy (raw s)).map mend

theorem reads_escapeText (c : Char) : Reads (escapeText c) [.char (mend c)] := by
  -- each reference ends with its semicolon
  have hreference : ∀ (name : List Char) (d : Char), quiet .text ('&' :: name) = some (.reference name) →
      referred name = some d → Reads ('&' :: name ++ [';']) [.char d] := by
    intro name d hquiet hname
    refine .event hquiet ?_
    simp only [step, if_true, hname, Option.map_some]
  unfold escapeText
  by_cases hquote : c = '"'
  · subst hquote
    exact hreference "#34".toList '"' rfl (by decide)
  by_cases happos : c = '\''
  · subst happos
    exact hreference "#39".toList '\'' rfl (by decide)
  by_cases hamp : c = '&'
  · subst hamp
    exact hreference "amp".toList '&' rfl rfl
  by_cases hlt : c = '<'
  · subst hlt
    exact hreference "lt".toList '<' rfl rfl
  by_cases hgt : c = '>'
  · subst hgt
    exact hreference "gt".toList '>' rfl rfl
  by_cases htab : c = '\t'
  · subst htab
    exact hreference "#x9".toList '\t' rfl (by decide)
  by_cases hnewline : c = '\n'
  · subst hnewline
    exact hreference "#xA".toList '\n' rfl (by decide)
  by_cases hreturn : c = '\r'
  · subst hreturn
    exact hreference "#xD".toList '\r' rfl (by decide)
  rw [if_neg hquote, if_neg happos, if_neg hamp, if_neg hlt, if_neg hgt, if_neg htab, if_neg hnewline,
    if_neg hreturn, mend]
  split
  · rename_i hc
    exact .plain ⟨hlt, hamp, hgt, hreturn⟩ hc
  · exact .plain (by decide) (by decide)

/-- The bytes are those of a text that has the property. -/
def Written (P : List Char → Prop) (s : List Char) : Prop := ∃ cs, s = Utf8.bytes cs ∧ P cs

section Written
variable {P Q R : List Char → Prop} {s t front back : List Char}

theorem Written.ascii (hs : ∀ c ∈ s, c.toNat < 128) (h : P s) : Written P s := ⟨s, (Utf8.bytes_ascii hs).symm, h⟩

theorem Written.mono (h : Written P s) (hPQ : ∀ cs, P cs → Q cs) : Written Q s := by
  obtain ⟨cs, rfl, hP⟩ := h
  exact ⟨cs, rfl, hPQ cs hP⟩

theorem Written.append (h : Written P s) (h' : Written Q t) (hR : ∀ cs ds, P cs → Q ds → R (cs ++ ds)) :
    Written R (s ++ t) := by
  obtain ⟨cs, rfl, hP⟩ := h
  obtain ⟨ds, rfl, hQ⟩ := h'
  exact ⟨cs ++ ds, (Utf8.bytes_append cs ds).symm, hR cs ds hP hQ⟩

theorem Written.around (h : Written P s) (hfront : ∀ c ∈ front, c.toNat < 128) (hback : ∀ c ∈ back, c.toNat < 128)
    (hQ : ∀ cs, P cs → Q (front ++ cs ++ back)) : Written Q (front ++ s ++ back) := by
  obtain ⟨cs, rfl, hP⟩ := h
  refine ⟨front ++ cs ++ back, ?_, hQ cs hP⟩
  rw [Utf8.bytes_append, Utf8.bytes_append, Utf8.bytes_ascii hfront, Utf8.bytes_ascii hback]

end Written

theorem xmlEsc_written (s : List Char) : Written (Content · ((shown s).map .char)) (xmlEsc s) :=
  ⟨_, rfl, .chars fun c _ => reads_escapeText c⟩

/-- The key of an entry, on a line of its own, and its value on the next. -/
theorem entry_written (key : List Char) {item : List Char} {v : Value} (hitem : Written (Item · v) item) :
    Written (Entries · [(shown key, v)])
      ("  <key>".toList ++ xmlEsc key ++ "</key>\n  ".toList ++ item ++ "\n".toList) := by
  obtain ⟨cs, rfl, hitem⟩ := hitem
  obtain ⟨ks, hkey, hcontent⟩ := xmlEsc_written key
  have hblank : ∀ c ∈ "  ".toList, blank c = true := by decide
  have hbreak : ∀ c ∈ "\n".toList, blank c = true := by decide
  have hgap : ∀ c ∈ "\n  ".toList, blank c = true := by decide
  have hentry := ((Entries.blank hblank).append (.entry hcontent hgap hitem)).append (.blank hbreak)
  rw [List.nil_append, List.append_nil] at hentry
  refine ⟨_, ?_, hentry⟩
  have hopen : "  <key>".toList = "  ".toList ++ "<key>".toList := by decide
  have hclose : "</key>\n  ".toList = "</key>".toList ++ "\n  ".toList := by decide
  have hascii : ∀ text ∈ ["  ".toList, "<key>".toList, "</key>".toList, "\n  ".toList, "\n".toList],
      Utf8.bytes text = text := by
    intro text htext
    refine Utf8.bytes_ascii ?_
    revert text
    decide
  simp only [List.forall_mem_cons, List.not_mem_nil, false_imp_iff, implies_true, and_true] at hascii
  obtain ⟨hblank, hopened, hclosed, hgap, hbreak⟩ := hascii
  simp only [Utf8.bytes_append, hblank, hopened, hclosed, hgap, hbreak, ← hkey, hopen, hclose, List.append_assoc]

theorem string_written (val : List Char) :
    Written (Item · (.string (shown val))) ("<string>".toList ++ xmlEsc val ++ "</string>".toList) :=
  (xmlEsc_written val).around (by decide) (by decide) fun _ => Item.string

theorem stringElem_written (key val : List Char) :
    Written (Entries · [(shown key, .string (shown val))]) (stringElem key val) := by
  have hentry := entry_written key (string_written val)
  have hopen : "</key>\n  <string>".toList = "</key>\n  ".toList ++ "<string>".toList := by decide
  have hclose : "</string>\n".toList = "</string>".toList ++ "\n".toList := by decide
  have hlines : stringElem key val = "  <key>".toList ++ xmlEsc key ++ "</key>\n  ".toList ++
      ("<string>".toList ++ xmlEsc val ++ "</string>".toList) ++ "\n".toList := by
    unfold stringElem
    simp only [hopen, hclose, List.append_assoc]
  rw [hlines]
  exact hentry

theorem boolElem_written (key : List Char) (v : Bool) :
    Written (Entries · [(shown key, .bool v)]) (boolElem key v) := by
  have hitem : Written (Item · (.bool v)) ('<' :: (if v then "true".toList else "false".toList) ++ ['/', '>']) :=
    .ascii (by cases v <;> decide) (.bool v)
  have hentry := entry_written key hitem
  have hopen : "</key>\n  <".toList = "</key>\n  ".toList ++ ['<'] := by decide
  have hclose : "/>\n".toList = ['/', '>'] ++ "\n".toList := by decide
  have hlines : boolElem key v = "  <key>".toList ++ xmlEsc key ++ "</key>\n  ".toList ++
      ('<' :: (if v then "true".toList else "false".toList) ++ ['/', '>']) ++ "\n".toList := by
    unfold boolElem
    simp only [hopen, hclose, List.append_assoc, List.cons_append, List.nil_append]
  rw [hlines]
  exact hentry

/-- Blanks around items are not items. -/
theorem items_between (front back : List Char) {text : List Char} {vs : List Value} (h : Written (Items · vs) text)
    (hfront : ∀ c ∈ front, blank c = true ∧ c.toNat < 128) (hback : ∀ c ∈ back, blank c = true ∧ c.toNat < 128) :
    Written (Items · vs) (front ++ text ++ back) := by
  refine h.around (fun c hc => (hfront c hc).2) (fun c hc => (hback c hc).2) fun cs hcs => ?_
  have hall := ((Items.blank fun c hc => (hfront c hc).1).append hcs).append (.blank fun c hc => (hback c hc).1)
  rwa [List.nil_append, List.append_nil] at hall

theorem arrayString_written (val : List Char) :
    Written (Items · [.string (shown val)]) (arrayString val) := by
  have hstring := (string_written val).mono fun _ => Item.items
  have hitems := items_between "    ".toList "\n".toList hstring (by decide) (by decide)
  have hopen : "    <string>".toList = "    ".toList ++ "<string>".toList := by decide
  have hclose : "</string>\n".toList = "</string>".toList ++ "\n".toList := by decide
  have hlines : arrayString val = "    ".toList ++
      ("<string>".toList ++ xmlEsc val ++ "</string>".toList) ++ "\n".toList := by
    unfold arrayString
    simp only [hopen, hclose, List.append_assoc]
  rw [hlines]
  exact hitems

theorem arrayStrings_written (l : List (List Char)) :
    Written (Items · (l.map fun s => .string (shown s))) (l.flatMap arrayString) := by
  induction l with
  | nil => exact .ascii (by decide) (.blank fun c hc => absurd hc List.not_mem_nil)
  | cons a l ih => exact (arrayString_written a).append ih fun cs ds h h' => h.append h'

/-! ### What is read -/

/-- What the plist says. -/
def Service.environment (c : Service) : List (List Char × Value) :=
  [("HOME".toList, .string (shown c.Home))] ++
  if c.XDGData ≠ [] then [("XDG_DATA_HOME".toList, .string (shown c.XDGData))] else []

def Service.plist (c : Service) : List (List Char × Value) :=
  [("Label".toList, .string (shown c.launchdLabelFor))] ++
  [("ProgramArguments".toList, .array ((c.Binary :: c.args).map fun s => .string (shown s)))] ++
  [("RunAtLoad".toList, .bool true)] ++
  [("KeepAlive".toList, .bool true)] ++
  (if c.System then [("UserName".toList, .string (shown c.User))] else []) ++
  [("EnvironmentVariables".toList, .dict c.environment)]

theorem entries_written {s t : List Char} {es es' : List (List Char × Value)} (h : Written (Entries · es) s)
    (h' : Written (Entries · es') t) : Written (Entries · (es ++ es')) (s ++ t) :=
  h.append h' fun _ _ hcs hds => hcs.append hds

theorem optional_written {p : Prop} [Decidable p] {text : List Char} {es : List (List Char × Value)}
    (h : Written (Entries · es) text) : Written (Entries · (if p then es else [])) (if p then text else []) := by
  split
  · exact h
  · exact .ascii (by decide) (.blank fun c hc => absurd hc List.not_mem_nil)

/-- The arguments, each on a line of its own. -/
theorem arguments_written (c : Service) :
    Written (Item · (.array ((c.Binary :: c.args).map fun s => .string (shown s))))
      ("<array>".toList ++ ("\n".toList ++ (arrayString c.Binary ++ c.args.flatMap arrayString) ++ "  ".toList) ++
        "</array>".toList) := by
  have hitems := arrayStrings_written (c.Binary :: c.args)
  rw [List.flatMap_cons] at hitems
  have hlines := items_between "\n".toList "  ".toList hitems (by decide) (by decide)
  exact hlines.around (by decide) (by decide) fun _ => Item.array

theorem dict_written {text : List Char} {es : List (List Char × Value)} (h : Written (Entries · es) text)
    (gap : List Char) (hgap : ∀ c ∈ gap, blank c = true ∧ c.toNat < 128) :
    Written (Item · (.dict es)) ("<dict>".toList ++ ("\n".toList ++ text ++ gap) ++ "</dict>".toList) := by
  have hlines : Written (Entries · es) ("\n".toList ++ text ++ gap) := by
    refine h.around (by decide) (fun c hc => (hgap c hc).2) fun cs hcs => ?_
    have hall := ((Entries.blank (s := "\n".toList) (by decide)).append hcs).append (.blank fun c hc => (hgap c hc).1)
    rwa [List.nil_append, List.append_nil] at hall
  exact hlines.around (by decide) (by decide) fun _ => Item.dict

/-- A key stands for itself. -/
theorem keys_plain : ∀ key ∈ ["Label", "ProgramArguments", "RunAtLoad", "KeepAlive", "UserName", "EnvironmentVariables",
    "HOME", "XDG_DATA_HOME"].map String.toList, shown key = key ∧ xmlEsc key = key := by
  decide +kernel

theorem environment_written (c : Service) :
    Written (Entries · c.environment)
      (stringElem "HOME".toList c.Home ++ if c.XDGData ≠ [] then stringElem "XDG_DATA_HOME".toList c.XDGData else []) := by
  have hhome := (keys_plain "HOME".toList (by simp)).1
  have hdata := (keys_plain "XDG_DATA_HOME".toList (by simp)).1
  have hwritten := entries_written (stringElem_written "HOME".toList c.Home)
    (optional_written (p := c.XDGData ≠ []) (stringElem_written "XDG_DATA_HOME".toList c.XDGData))
  rwa [hhome, hdata] at hwritten

/-- The lines of the outermost dictionary. -/
def body (c : Service) : List Char :=
  stringElem "Label".toList c.launchdLabelFor ++
  ("  <key>".toList ++ xmlEsc "ProgramArguments".toList ++ "</key>\n  ".toList ++
    ("<array>".toList ++ ("\n".toList ++ (arrayString c.Binary ++ c.args.flatMap arrayString) ++ "  ".toList) ++
      "</array>".toList) ++ "\n".toList) ++
  boolElem "RunAtLoad".toList true ++
  boolElem "KeepAlive".toList true ++
  (if c.System then stringElem "UserName".toList c.User else []) ++
  ("  <key>".toList ++ xmlEsc "EnvironmentVariables".toList ++ "</key>\n  ".toList ++
    ("<dict>".toList ++ ("\n".toList ++ (stringElem "HOME".toList c.Home ++
      if c.XDGData ≠ [] then stringElem "XDG_DATA_HOME".toList c.XDGData else []) ++ "  ".toList) ++
      "</dict>".toList) ++ "\n".toList)

theorem body_written (c : Service) : Written (Entries · c.plist) (body c) := by
  have hlabel := (keys_plain "Label".toList (by simp)).1
  have harguments := (keys_plain "ProgramArguments".toList (by simp)).1
  have hload := (keys_plain "RunAtLoad".toList (by simp)).1
  have halive := (keys_plain "KeepAlive".toList (by simp)).1
  have huser := (keys_plain "UserName".toList (by simp)).1
  have henv := (keys_plain "EnvironmentVariables".toList (by simp)).1
  have hcommand := entries_written (stringElem_written "Label".toList c.launchdLabelFor)
    (entry_written "ProgramArguments".toList (arguments_written c))
  have hflags := entries_written (entries_written hcommand (boolElem_written "RunAtLoad".toList true))
    (boolElem_written "KeepAlive".toList true)
  have huserName := entries_written hflags
    (optional_written (p := c.System = true) (stringElem_written "UserName".toList c.User))
  have hall := entries_written huserName (entry_written "EnvironmentVariables".toList
    (dict_written (environment_written c) "  ".toList (by decide)))
  rwa [hlabel, harguments, hload, halive, huser, henv] at hall

/-- What stands in front of the list. -/
def prologue : List Char :=
  "<?xml version=\"1.0\" encoding=\"UTF-8\"?>".toList ++ "\n".toList ++
  "<!DOCTYPE plist PUBLIC \"-//Apple//DTD PLIST 1.0//EN\" \"http://www.apple.com/DTDs/PropertyList-1.0.dtd\">".toList ++
  "\n".toList

theorem renderLaunchdPlist_eq (c : Service) : renderLaunchdPlist c =
    prologue ++ ("<plist version=\"1.0\">".toList ++
      ("\n".toList ++ ("<dict>".toList ++ ("\n".toList ++ body c ++ []) ++ "</dict>".toList) ++ "\n".toList) ++
      "</plist>".toList) ++ "\n".toList := by
  have hname := (keys_plain "ProgramArguments".toList (by simp)).2
  have henv := (keys_plain "EnvironmentVariables".toList (by simp)).2
  have hdeclared : "<?xml version=\"1.0\" encoding=\"UTF-8\"?>\n".toList =
      "<?xml version=\"1.0\" encoding=\"UTF-8\"?>".toList ++ "\n".toList :=
    spelled_eq (append_spelled toList_ofList) rfl
  have htype :
      "<!DOCTYPE plist PUBLIC \"-//Apple//DTD PLIST 1.0//EN\" \"http://www.apple.com/DTDs/PropertyList-1.0.dtd\">\n".toList =
      "<!DOCTYPE plist PUBLIC \"-//Apple//DTD PLIST 1.0//EN\" \"http://www.apple.com/DTDs/PropertyList-1.0.dtd\">".toList ++
        "\n".toList :=
    spelled_eq (append_spelled toList_ofList) rfl
  have hopen : "<plist version=\"1.0\">\n<dict>\n".toList =
      "<plist version=\"1.0\">".toList ++ "\n".toList ++ "<dict>".toList ++ "\n".toList :=
    spelled_eq (append_spelled (append_spelled (append_spelled toList_ofList))) rfl
  have harguments : "  <key>ProgramArguments</key>\n  <array>\n".toList =
      "  <key>".toList ++ "ProgramArguments".toList ++ "</key>\n  ".toList ++ "<array>".toList ++ "\n".toList :=
    spelled_eq (append_spelled (append_spelled (append_spelled (append_spelled toList_ofList)))) rfl
  have harray : "  </array>\n".toList = "  ".toList ++ "</array>".toList ++ "\n".toList :=
    spelled_eq (append_spelled (append_spelled toList_ofList)) rfl
  have hvariables : "  <key>EnvironmentVariables</key>\n  <dict>\n".toList =
      "  <key>".toList ++ "EnvironmentVariables".toList ++ "</key>\n  ".toList ++ "<dict>".toList ++ "\n".toList :=
    spelled_eq (append_spelled (append_spelled (append_spelled (append_spelled toList_ofList)))) rfl
  have hdict : "  </dict>\n".toList = "  ".toList ++ "</dict>".toList ++ "\n".toList :=
    spelled_eq (append_spelled (append_spelled toList_ofList)) rfl
  have hclose : "</dict>\n</plist>\n".toList =
      "</dict>".toList ++ "\n".toList ++ "</plist>".toList ++ "\n".toList :=
    spelled_eq (append_spelled (append_spelled (append_spelled toList_ofList))) rfl
  unfold renderLaunchdPlist prologue body
  simp only [hname, henv, hdeclared, htype, hopen, harguments, harray, hvariables, hdict, hclose, List.append_assoc,
    List.append_nil]

theorem quiet_spelled {l : List Char} {m : Xml.Mode} (h : Xml.quiet .text l = some m) :
    Xml.quiet .text (String.ofList l).toList = some m := spelled (P := (Xml.quiet .text · = some m)) h

/-- The document holds what was configured, each string as it is read back. -/
theorem renderLaunchdPlist_written (c : Service) :
    Written (fun cs => Plist.read cs = some (.dict c.plist)) (renderLaunchdPlist c) := by
  have hdict := dict_written (body_written c) [] fun c hc => absurd hc List.not_mem_nil
  have hlist := items_between "\n".toList "\n".toList (hdict.mono fun _ => Item.items) (by decide) (by decide)
  have hprologue : Content prologue ([] ++ "\n".toList.map .char ++ [] ++ "\n".toList.map .char) :=
    (((Content.quiet (quiet_spelled (by decide +kernel))).append (.blank (by decide))).append
      (.quiet (quiet_spelled (by decide +kernel)))).append (.blank (by decide))
  have hstart : Reads "<plist version=\"1.0\">".toList
      [.opened "plist".toList [("version".toList, "1.0".toList)]] :=
    @Reads.event "<plist version=\"1.0\"".toList (.attributed "plist".toList [("version".toList, "1.0".toList)]) '>' _
      (quiet_spelled (by decide +kernel)) rfl
  obtain ⟨cs, hcs, hitems⟩ := hlist
  have hread := read_document hprologue (by decide) hstart hitems (.blank (s := "\n".toList) (by decide))
    (isBlank_chars (by decide))
  refine ⟨_, ?_, hread⟩
  have hfront : Utf8.bytes prologue = prologue := Utf8.bytes_ascii (by decide +kernel)
  have hopen : Utf8.bytes "<plist version=\"1.0\">".toList = "<plist version=\"1.0\">".toList :=
    Utf8.bytes_ascii (by decide)
  have hclose : Utf8.bytes "</plist>".toList = "</plist>".toList := Utf8.bytes_ascii (by decide)
  have hbreak : Utf8.bytes "\n".toList = "\n".toList := Utf8.bytes_ascii (by decide)
  rw [renderLaunchdPlist_eq, hcs, Utf8.bytes_append, Utf8.bytes_append, Utf8.bytes_append, Utf8.bytes_append, hfront,
    hopen, hclose, hbreak]

/-! ### The job -/

/-- A string with all replaced that a document does not hold. -/
def mended (s : List Char) : List Char := Utf8.bytes (shown s)

theorem stringsOf_array (l : List (List Char)) :
    stringsOf (.array (l.map fun s => .string (shown s))) = some (l.map mended) := by
  induction l with
  | nil => rfl
  | cons s l ih =>
    rw [stringsOf] at ih ⊢
    rw [List.map_cons, List.mapM_cons, ih]
    rfl

theorem variablesOf_environment (c : Service) :
    variablesOf (some (.dict c.environment)) = some (("HOME".toList, mended c.Home) ::
      if c.XDGData ≠ [] then [("XDG_DATA_HOME".toList, mended c.XDGData)] else []) := by
  have hhome : Utf8.bytes "HOME".toList = "HOME".toList := Utf8.bytes_ascii (by decide)
  have hdata : Utf8.bytes "XDG_DATA_HOME".toList = "XDG_DATA_HOME".toList := Utf8.bytes_ascii (by decide)
  rw [variablesOf, Service.environment]
  split
  · rw [List.singleton_append, List.mapM_cons, List.mapM_cons, List.mapM_nil]
    simp only [stringOf, Option.map_some, hhome, hdata]
    rfl
  · rw [List.append_nil, List.mapM_cons, List.mapM_nil]
    simp only [stringOf, Option.map_some, hhome]
    rfl

theorem jobOf_plist (c : Service) : jobOf (.dict c.plist) = some (c.job.map mended) := by
  have hlabel : c.plist.lookup "Label".toList = some (.string (shown c.launchdLabelFor)) := rfl
  have harguments : c.plist.lookup "ProgramArguments".toList =
      some (.array ((c.Binary :: c.args).map fun s => .string (shown s))) := rfl
  have hload : c.plist.lookup "RunAtLoad".toList = some (.bool true) := rfl
  have halive : c.plist.lookup "KeepAlive".toList = some (.bool true) := rfl
  have huser : c.plist.lookup "UserName".toList = if c.System then some (.string (shown c.User)) else none := by
    unfold Service.plist
    cases c.System with
    | false => rfl
    | true => rfl
  have hvariables : c.plist.lookup "EnvironmentVariables".toList = some (.dict c.environment) := by
    unfold Service.plist
    cases c.System with
    | false => rfl
    | true => rfl
  have henvironment := variablesOf_environment c
  unfold jobOf
  simp only [hlabel, harguments, hload, halive, huser, hvariables, Option.bind_some, stringOf, stringsOf_array, flagOf,
    henvironment]
  unfold Service.job Job.map
  by_cases hdata : c.XDGData ≠ []
  · simp only [if_pos hdata]
    cases c.System with
    | false => rfl
    | true => rfl
  · simp only [if_neg hdata]
    cases c.System with
    | false => rfl
    | true => rfl

theorem mended_iff {s : List Char} : mended s = s ↔ ∃ text, s = Utf8.bytes text ∧ ∀ d ∈ text, isChar d = true := by
  constructor
  · intro h
    refine ⟨shown s, h.symm, fun d hd => ?_⟩
    obtain ⟨c, -, rfl⟩ := List.mem_map.mp hd
    unfold mend
    split
    · assumption
    · decide
  · intro h
    obtain ⟨text, rfl, htext⟩ := h
    rw [mended, shown, raw_bytes, Utf8.lossy_encode]
    exact congrArg Utf8.bytes ((List.map_congr_left fun d hd => if_pos (htext d hd)).trans (List.map_id text))

-- a byte that begins no character
example : mended ['/', 'ÿ'] = Utf8.bytes ['/', '\uFFFD'] := by decide +kernel

theorem map_fixed {α : Type*} {f : α → α} {l : List α} : l.map f = l ↔ ∀ a ∈ l, f a = a := by
  conv_lhs => rhs; rw [← List.map_id l]
  exact List.map_inj_left

/-- A job is as it was exactly if each of its strings is. -/
theorem Job.map_eq_iff {f : List Char → List Char} {j : Job} : j.map f = j ↔ ∀ s ∈ j.strings, f s = s := by
  obtain ⟨label, arguments, runAtLoad, keepAlive, user, environment⟩ := j
  have huser : user.map f = user ↔ ∀ s ∈ user.toList, f s = s := by
    cases user with
    | none => simp
    | some s => simp
  have hvariables : environment.map (fun e => (e.1, f e.2)) = environment ↔ ∀ s ∈ environment.map Prod.snd, f s = s := by
    rw [map_fixed, List.forall_mem_map]
    exact forall₂_congr fun e _ => by rw [Prod.ext_iff]; simp
  simp only [Job.map, Job.mk.injEq, true_and, map_fixed (f := f), huser, hvariables, Job.strings, List.mem_append,
    List.mem_cons, or_imp, forall_and, forall_eq, and_assoc]

/-- **launchd loads every rendered plist: as the configured job, with what a document does not hold replaced
in its strings. So it is the configured job exactly when each string is text of XML's characters.** -/
theorem renderLaunchdPlist_loads (c : Service) :
    load (renderLaunchdPlist c) = some (c.job.map mended) ∧
      (load (renderLaunchdPlist c) = some c.job ↔
        ∀ s ∈ c.job.strings, ∃ text, s = Utf8.bytes text ∧ ∀ d ∈ text, isChar d = true) := by
  have hload : load (renderLaunchdPlist c) = some (c.job.map mended) := by
    obtain ⟨cs, hcs, hread⟩ := renderLaunchdPlist_written c
    simp only [load, hcs, raw_bytes, Utf8.lossy_encode, if_true, hread, Option.bind_some]
    exact jobOf_plist c
  refine ⟨hload, ?_⟩
  rw [hload, Option.some_inj, Job.map_eq_iff]
  exact forall₂_congr fun s _ => mended_iff

end Marshal.Startup
