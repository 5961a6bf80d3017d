import Marshal.Lib.Url

/-! The scan for a repository's host key.

A repository is named by an `ssh://` URL or the way of scp. Where no key is pinned yet, the host and
the port are taken from the name, joined by a colon, taken apart again and scanned. The two parsers
and the colon disagree with git on some names: an IPv6 address without a port, and an `@` that is not
the one before the host (`scan_host_iff`). -/
namespace Marshal.Dashboard
open Separator (cut cutLast)

/-! ### The scan -/

/-- Host and port of an SSH remote; both empty if there is none. -/
def sshHostPort (repo : List Char) : List Char × List Char :=
  if "https://".toList <+: repo ∨ "http://".toList <+: repo then ([], [])
  else if "ssh://".toList <+: repo then
    match Url.Parse repo with
    | some u => if u.Hostname.head? = some '-' then ([], []) else (u.Hostname, u.Port)
    | none => ([], [])
  else
    let s := match cut '@' repo with
      | some (_, s) => s
      | none => repo
    match cut ':' s with
    | some (host, _) => if host.head? = some '-' then ([], []) else (host, [])
    | none => ([], [])

/-- The arguments of `ssh-keyscan`. -/
def scanHost (hostport : List Char) : List (List Char) :=
  let (host, port) := match cutLast ':' hostport with
    | some (host, port) => (host, port)
    | none => (hostport, [])
  (if port ≠ [] then ["-p".toList, port] else []) ++ [host]

/-- The scan that `resolveCredential` runs for a repository, if the name has a host. -/
def scanned (repo : List Char) : Option (List (List Char)) :=
  let (host, port) := sshHostPort repo
  if host ≠ [] then some (scanHost (if port ≠ [] then host ++ ':' :: port else host)) else none

/-! ### What git connects to -/

/-- A DNS name or an IPv4 address. -/
def IsName (s : List Char) : Prop :=
  s ≠ [] ∧ s.head? ≠ some '-' ∧ ∀ c ∈ s, c.isAlphanum = true ∨ c ∈ ['-', '.', '_']

/-- An IPv6 address without a zone. -/
def IsAddress (s : List Char) : Prop :=
  Url.ipv6 s = true ∧ ∀ c ∈ s, (Url.unhex c).isSome = true ∨ c ∈ [':', '.']

def IsUser (s : List Char) : Prop :=
  s ≠ [] ∧ ∀ c ∈ s, c.isAlphanum = true ∨
    c ∈ ['-', '.', '_', '~', '!', '$', '&', '\'', '(', ')', '*', '+', ',', ';', '=', '@']

def IsPort (s : List Char) : Prop := s.all Char.isDigit = true ∧ Nat.ofDigitChars 10 s 0 < 65536

inductive Host where
  | name (s : List Char) (valid : IsName s)
  | ipv6 (s : List Char) (valid : IsAddress s)

/-- As it stands in the name of a repository. -/
def Host.text : Host → List Char
  | name s _ => s
  | ipv6 s _ => '[' :: s ++ [']']

/-- As it is connected to. -/
def Host.target : Host → List Char
  | name s _ => s
  | ipv6 s _ => s

def Host.isName : Host → Prop
  | name _ _ => True
  | ipv6 _ _ => False

def userText (user : Option { s // IsUser s }) : List Char :=
  match user with
  | none => []
  | some u => u.1 ++ ['@']

def portText (port : Option { s // IsPort s }) : List Char :=
  match port with
  | none => []
  | some p => ':' :: p.1

def portDigits (port : Option { s // IsPort s }) : List Char :=
  match port with
  | none => []
  | some p => p.1

def scpText (user : Option { s // IsUser s }) (host : Host) (path : List Char) : List Char :=
  userText user ++ (host.text ++ ':' :: path)

/-- A repository behind SSH: `[user@]host:path`, which is no URL, or `ssh://[user@]host[:port]/path`, whose
escapes are undone first. In the path, `@[` would begin the host. -/
inductive Remote where
  | scp (user : Option { s // IsUser s }) (host : Host) (path : List Char)
    (plain : ¬ "://".toList <:+: scpText user host path) (bracket : ¬ "@[".toList <:+: path)
  | url (user : Option { s // IsUser s }) (host : Host) (port : Option { s // IsPort s }) (path : List Char)
    (bracket : ¬ "@[".toList <:+: (Url.unescape .path path).getD path)

def Remote.text : Remote → List Char
  | scp user host path _ _ => scpText user host path
  | url user host port path _ => "ssh://".toList ++ (userText user ++ (host.text ++ portText port) ++ '/' :: path)

/-- The host and the port; without a port it is that of SSH. -/
def Remote.target : Remote → List Char × List Char
  | scp _ host _ _ _ => (host.target, [])
  | url _ host port _ _ => (host.target, portDigits port)

/-- A host that is found is the one that git connects to, and the scan is for it and its port. -/
def Remote.Scanned (r : Remote) : Prop :=
  (sshHostPort r.text).1 ≠ [] → sshHostPort r.text = r.target ∧
    scanned r.text = some ((if r.target.2 ≠ [] then ["-p".toList, r.target.2] else []) ++ [r.target.1]) ∧
    r.target.1.head? ≠ some '-'

/-- Where the parsers agree with git. -/
def Remote.Plain (r : Remote) : Prop :=
  match r with
  | scp (some u) host _ _ _ => match cut '@' u.1 with
    | none => host.isName
    | some (_, more) => more.head? = some '-'
  | scp none host path _ _ => match cut '@' path with
    | none => host.isName
    | some (_, more) => match cut ':' more with
      | none => True
      | some (front, _) => front = [] ∨ front.head? = some '-' ∨ host.isName ∧ front = host.target
  | url _ host _ _ _ => host.isName ∨ r.target.2 ≠ [] ∨ Url.Parse r.text = none

/-! ### The way of scp -/

theorem alphanum_ne {c d : Char} (hc : c.isAlphanum = true) (hd : d.isAlphanum = false) : c ≠ d := by
  intro heq
  rw [heq, hd] at hc
  cases hc

theorem name_notMem {s : List Char} (h : IsName s) {d : Char} (hd : d.isAlphanum = false)
    (hmark : d ∉ ['-', '.', '_']) : d ∉ s := by
  intro hmem
  rcases h.2.2 d hmem with hc | hc
  · exact alphanum_ne hc hd rfl
  · exact hmark hc

theorem user_notMem {s : List Char} (h : IsUser s) {d : Char} (hd : d.isAlphanum = false)
    (hmark : d ∉ ['-', '.', '_', '~', '!', '$', '&', '\'', '(', ')', '*', '+', ',', ';', '=', '@']) : d ∉ s := by
  intro hmem
  rcases h.2 d hmem with hc | hc
  · exact alphanum_ne hc hd rfl
  · exact hmark hc

theorem address_notMem {s : List Char} (h : IsAddress s) {d : Char} (hd : Url.unhex d = none)
    (hmark : d ∉ [':', '.']) : d ∉ s := by
  intro hmem
  rcases h.2 d hmem with hc | hc
  · rw [hd] at hc
    cases hc
  · exact hmark hc

theorem address_colon {s : List Char} (h : IsAddress s) : ':' ∈ s := by
  have hfind := ((Bool.and_eq_true _ _).mp h.1).1
  exact List.mem_of_find?_eq_some (eq_of_beq hfind)

theorem hostText_at (host : Host) : '@' ∉ host.text := by
  cases host with
  | name s valid => exact name_notMem valid (by decide) (by decide)
  | ipv6 s valid => simp [Host.text, address_notMem valid (d := '@') (by decide) (by decide)]

/-- A text up to its first colon is a host, unless it is a flag. -/
def front (s : List Char) : List Char × List Char :=
  match cut ':' s with
  | some (host, _) => if host.head? = some '-' then ([], []) else (host, [])
  | none => ([], [])

theorem sshHostPort_scp {text : List Char} (h : ¬ "://".toList <:+: text) :
    sshHostPort text = front (match cut '@' text with
      | some (_, s) => s
      | none => text) := by
  have hscheme : ∀ name : List Char, ¬ name ++ "://".toList <+: text :=
    fun name hfront => h ((List.suffix_append name _).isInfix.trans hfront.isInfix)
  have hhttp : ¬ ("https://".toList <+: text ∨ "http://".toList <+: text) :=
    not_or.mpr ⟨hscheme "https".toList, hscheme "http".toList⟩
  have hssh : ¬ "ssh://".toList <+: text := hscheme "ssh".toList
  rw [sshHostPort, if_neg hhttp, if_neg hssh]
  rfl

theorem scanHost_name {s : List Char} (h : ':' ∉ s) : scanHost s = [s] := by
  rw [scanHost, Separator.cutLast_eq_none.mpr h]
  rfl

/-- What is found up to the first colon of `s` agrees with git where nothing is found, or a flag,
or the name that git finds. -/
theorem scanned_front {r : Remote} {host : Host} (htarget : r.target = (host.target, [])) {s : List Char}
    (hs : sshHostPort r.text = front s) : r.Scanned ↔ ∀ p ∈ cut ':' s,
      p.1 = [] ∨ p.1.head? = some '-' ∨ host.isName ∧ p.1 = host.target := by
  rw [Remote.Scanned, scanned, hs, htarget, front]
  cases hcut : cut ':' s with
  | none => simp
  | some p =>
    obtain ⟨a, b⟩ := p
    obtain ⟨hcolon, -⟩ := Separator.cut_eq_some.mp hcut
    simp only [Option.mem_some_iff, forall_eq']
    by_cases hflag : a.head? = some '-'
    · simp [hflag]
    rw [if_neg hflag]
    constructor
    · intro h
      by_cases hne : a = []
      · exact .inl hne
      · obtain ⟨heq, -⟩ := h hne
        have ha : a = host.target := congrArg Prod.fst heq
        refine .inr (.inr ⟨?_, ha⟩)
        cases host with
        | name t valid => trivial
        | ipv6 t valid =>
          have htext : a = t := ha
          exact absurd (htext ▸ address_colon valid) hcolon
    · intro h hne
      rcases h with hnil | hhead | ⟨-, rfl⟩
      · exact absurd hnil hne
      · exact absurd hhead hflag
      · exact ⟨rfl, by simp [hne, scanHost_name hcolon], hflag⟩

/-- The host as it stands in the name, up to the colon. -/
theorem front_host (host : Host) (more : List Char) :
    (∀ p ∈ cut ':' (host.text ++ ':' :: more),
      p.1 = [] ∨ p.1.head? = some '-' ∨ host.isName ∧ p.1 = host.target) ↔ host.isName := by
  cases host with
  | name s valid =>
    have hcut := Separator.cut_append (name_notMem valid (d := ':') (by decide) (by decide)) more
    simp [Host.text, Host.target, Host.isName, hcut]
  | ipv6 s valid =>
    obtain ⟨a, b, rfl, ha⟩ := List.eq_append_cons_of_mem (address_colon valid)
    have hcut : cut ':' ('[' :: (a ++ ':' :: b) ++ [']'] ++ ':' :: more) = some ('[' :: a, b ++ [']'] ++ ':' :: more) := by
      refine Separator.cut_eq_some.mpr ⟨by simp [ha], by simp⟩
    show (∀ p ∈ cut ':' ('[' :: (a ++ ':' :: b) ++ [']'] ++ ':' :: more), _) ↔ False
    rw [hcut]
    simp [Host.isName]

/-- With an `@` in the user, what is found has one too. -/
theorem front_user (host : Host) {before more : List Char} (h : IsUser (before ++ '@' :: more)) (path : List Char) :
    (∀ p ∈ cut ':' (more ++ '@' :: (host.text ++ ':' :: path)),
      p.1 = [] ∨ p.1.head? = some '-' ∨ host.isName ∧ p.1 = host.target) ↔ more.head? = some '-' := by
  have hcolon : ':' ∉ more ++ ['@'] := by
    have hnot := user_notMem h (d := ':') (by decide) (by decide)
    simp only [List.mem_append, List.mem_cons, not_or] at hnot
    simp [hnot.2.2]
  obtain ⟨a, b, hsplit, ha⟩ := List.eq_append_cons_of_mem
    (show ':' ∈ host.text ++ ':' :: path from List.mem_append_right _ List.mem_cons_self)
  have hcut : cut ':' (more ++ '@' :: (host.text ++ ':' :: path)) = some (more ++ '@' :: a, b) := by
    have hfront := Separator.cut_front hcolon (host.text ++ ':' :: path)
    rw [hsplit, Separator.cut_append ha] at hfront
    simpa [hsplit] using hfront
  have hhead : (more ++ '@' :: a).head? = some '-' ↔ more.head? = some '-' := by
    cases more with
    | nil => simp
    | cons c more => simp
  have hname : ¬ (host.isName ∧ more ++ '@' :: a = host.target) := by
    intro heq
    cases host with
    | name s valid =>
      have htarget : more ++ '@' :: a = s := heq.2
      exact name_notMem valid (d := '@') (by decide) (by decide) (htarget ▸ by simp)
    | ipv6 s valid => exact heq.1
  rw [hcut]
  simp only [Option.mem_some_iff, forall_eq', hhead]
  constructor
  · intro hfound
    rcases hfound with hnil | hflag | heq
    · exact absurd hnil (by simp)
    · exact hflag
    · exact absurd heq hname
  · exact fun hflag => .inr (.inl hflag)

theorem scanned_scp (user : Option { s // IsUser s }) (host : Host) (path : List Char)
    (plain : ¬ "://".toList <:+: scpText user host path) (bracket : ¬ "@[".toList <:+: path) :
    (Remote.scp user host path plain bracket).Scanned ↔ (Remote.scp user host path plain bracket).Plain := by
  have hhost := hostText_at host
  have hssh := sshHostPort_scp plain
  have hfront : ∀ s, sshHostPort (scpText user host path) = front s →
      ((Remote.scp user host path plain bracket).Scanned ↔ ∀ p ∈ cut ':' s,
        p.1 = [] ∨ p.1.head? = some '-' ∨ host.isName ∧ p.1 = host.target) :=
    fun s hs => scanned_front (r := .scp user host path plain bracket) rfl hs
  cases user with
  | some u =>
    have htext : scpText (some u) host path = u.1 ++ '@' :: (host.text ++ ':' :: path) := by
      simp [scpText, userText]
    cases hcut : cut '@' u.1 with
    | none =>
      have hat : cut '@' (scpText (some u) host path) = some (u.1, host.text ++ ':' :: path) := by
        rw [htext, Separator.cut_append (Separator.cut_eq_none.mp hcut)]
      rw [hat] at hssh
      rw [hfront _ hssh, front_host, Remote.Plain]
      simp only [hcut]
    | some p =>
      obtain ⟨before, more⟩ := p
      obtain ⟨hbefore, heq⟩ := Separator.cut_eq_some.mp hcut
      have hat : cut '@' (scpText (some u) host path) =
          some (before, more ++ '@' :: (host.text ++ ':' :: path)) := by
        rw [htext, heq, List.append_assoc, List.cons_append, Separator.cut_append hbefore]
      rw [hat] at hssh
      rw [hfront _ hssh, front_user host (heq ▸ u.2), Remote.Plain]
      simp only [hcut]
  | none =>
    have hat : cut '@' (scpText none host path) =
        (cut '@' path).map fun p => (host.text ++ [':'] ++ p.1, p.2) := by
      have hbefore : '@' ∉ host.text ++ [':'] := by simp [hhost]
      have hsplit := Separator.cut_front hbefore path
      rw [List.append_assoc, List.singleton_append] at hsplit
      exact hsplit
    rw [hat] at hssh
    cases hcut : cut '@' path with
    | none =>
      rw [hcut] at hssh
      rw [hfront _ hssh, Remote.Plain]
      simp only [hcut]
      exact front_host host path
    | some p =>
      obtain ⟨before, more⟩ := p
      rw [hcut] at hssh
      rw [hfront _ hssh, Remote.Plain]
      simp only [hcut]
      cases hcolon : cut ':' more with
      | none => simp [hcolon]
      | some q => simp [hcolon]

/-! ### URLs -/

theorem hex_alphanum {c : Char} (h : (Url.unhex c).isSome = true) : c.isAlphanum = true := by
  have hrange : ('0' ≤ c ∧ c ≤ '9') ∨ ('a' ≤ c ∧ c ≤ 'f') ∨ ('A' ≤ c ∧ c ≤ 'F') := by
    by_contra hnot
    simp only [not_or] at hnot
    rw [Url.unhex, if_neg hnot.1, if_neg hnot.2.1, if_neg hnot.2.2] at h
    cases h
  delta Char.isAlphanum Char.isAlpha Char.isUpper Char.isLower Char.isDigit
  simp only [ge_iff_le, Char.le_def,
    UInt32.le_iff_toNat_le, Bool.or_eq_true, Bool.and_eq_true, decide_eq_true_eq, Char.reduceVal,
    UInt32.reduceToNat] at hrange ⊢
  omega

theorem digit_alphanum {c : Char} (h : c.isDigit = true) : c.isAlphanum = true := by simp [Char.isAlphanum, h]

theorem alphanum_plain {c : Char} (h : c.isAlphanum = true) : c ≠ '%' ∧ Url.shouldEscape .host c = false :=
  ⟨alphanum_ne h (by decide), by simp [Url.shouldEscape, h]⟩

theorem portText_digits (port : Option { s // IsPort s }) : ∀ c ∈ portText port, c = ':' ∨ c.isDigit = true := by
  intro c hc
  cases port with
  | none => exact absurd hc List.not_mem_nil
  | some p =>
    rcases List.mem_cons.mp hc with rfl | hc
    · exact .inl rfl
    · exact .inr (List.all_eq_true.mp p.2.1 c hc)

theorem portText_notMem (port : Option { s // IsPort s }) {d : Char} (hd : d.isDigit = false) (hcolon : d ≠ ':') :
    d ∉ portText port := by
  intro hmem
  rcases portText_digits port d hmem with hc | hc
  · exact hcolon hc
  · rw [hd] at hc
    cases hc

theorem validOptionalPort_text (port : Option { s // IsPort s }) : Url.validOptionalPort (portText port) = true := by
  cases port with
  | none => rfl
  | some p => simp only [portText, Url.validOptionalPort, beq_self_eq_true, Bool.true_and, p.2.1]

theorem parseHost_text (host : Host) (port : Option { s // IsPort s }) :
    Url.parseHost "ssh".toList (host.text ++ portText port) = some (host.text ++ portText port) := by
  have hport : ∀ c ∈ portText port, c ≠ '%' ∧ Url.shouldEscape .host c = false := by
    intro c hc
    rcases portText_digits port c hc with rfl | hdigit
    · decide
    · exact alphanum_plain (digit_alphanum hdigit)
  have hbracket := portText_notMem port (d := '[') (by decide) (by decide)
  cases host with
  | name s valid =>
    have hopen : '[' ∉ s ++ portText port := by simp [name_notMem valid (d := '[') (by decide) (by decide), hbracket]
    have hplain : ∀ c ∈ s, c ≠ '%' ∧ Url.shouldEscape .host c = false := by
      intro c hc
      rcases valid.2.2 c hc with halnum | hmark
      · exact alphanum_plain halnum
      · have hmarks : ∀ c ∈ ['-', '.', '_'], c ≠ '%' ∧ Url.shouldEscape .host c = false := by decide
        exact hmarks c hmark
    have hportOf : Url.validOptionalPort (Url.portOf "ssh".toList (s ++ portText port)) = true := by
      have hscheme : ¬ ("ssh".toList = "postgresql".toList ∨ "ssh".toList = "postgres".toList) := by decide
      have hcolon := name_notMem valid (d := ':') (by decide) (by decide)
      rw [Url.portOf, if_neg hscheme]
      cases port with
      | none =>
        rw [portText, List.append_nil, Separator.cut_eq_none.mpr hcolon]
        rfl
      | some p =>
        rw [portText, Separator.cut_append hcolon]
        exact validOptionalPort_text (some p)
    show Url.parseHost "ssh".toList (s ++ portText port) = some (s ++ portText port)
    rw [Url.parseHost, if_neg hopen, if_pos hportOf, Url.unescape_host (List.forall_mem_append.mpr ⟨hplain, hport⟩)]
  | ipv6 s valid =>
    have hclose := portText_notMem port (d := ']') (by decide) (by decide)
    have hopen : '[' ∉ s := address_notMem valid (by decide) (by decide)
    have hplain : ∀ c ∈ s, c ≠ '%' ∧ Url.shouldEscape .host c = false := by
      intro c hc
      rcases valid.2 c hc with hhex | hmark
      · exact alphanum_plain (hex_alphanum hhex)
      · have hmarks : ∀ c ∈ [':', '.'], c ≠ '%' ∧ Url.shouldEscape .host c = false := by decide
        exact hmarks c hmark
    have haddress : Url.unescapeAddress s = some s := by
      rw [Url.unescapeAddress, Url.zoneCut_none fun hmem => (hplain _ hmem).1 rfl]
      exact Url.unescape_host hplain
    have htext : (Host.ipv6 s valid).text ++ portText port = ('[' :: s) ++ ']' :: portText port := by
      simp [Host.text]
    have hbefore : cutLast '[' ('[' :: s) = some ([], s) := Separator.cutLast_append hopen []
    rw [htext, Url.parseHost, if_pos (by simp), Separator.cutLast_append hclose]
    simp [validOptionalPort_text, hbefore, haddress, valid.1]

/-- The host and the port are found again. -/
theorem splitHostPort_text (host : Host) (port : Option { s // IsPort s }) :
    Url.splitHostPort (host.text ++ portText port) = (host.target, portDigits port) := by
  have hstrip : ∀ s : List Char, ('[' :: (s ++ [']'])).getLast? = some ']' := fun s => by
    rw [← List.cons_append, List.getLast?_concat]
  cases host with
  | name s valid =>
    have hcolon := name_notMem valid (d := ':') (by decide) (by decide)
    have hhead : ¬ (s.head? = some '[' ∧ s.getLast? = some ']') := fun h =>
      name_notMem valid (d := '[') (by decide) (by decide) (List.mem_of_mem_head? h.1)
    cases port with
    | none =>
      have hcut : cutLast ':' s = none := Separator.cutLast_eq_none.mpr hcolon
      simp [Url.splitHostPort, Host.text, Host.target, portText, portDigits, hcut, hhead]
    | some p =>
      have hdigits : ':' ∉ p.1 := fun hmem => absurd (List.all_eq_true.mp p.2.1 _ hmem) (by decide)
      have hcut : cutLast ':' (s ++ ':' :: p.1) = some (s, p.1) := Separator.cutLast_append hdigits s
      simp [Url.splitHostPort, Host.text, Host.target, portText, portDigits, hcut, hhead, p.2.1]
  | ipv6 s valid =>
    cases port with
    | none =>
      obtain ⟨a, b, hcut⟩ : ∃ a b, cutLast ':' ('[' :: s ++ [']']) = some (a, b) := by
        cases hcut : cutLast ':' ('[' :: s ++ [']']) with
        | none => exact absurd (by simp [address_colon valid]) (Separator.cutLast_eq_none.mp hcut)
        | some p => exact ⟨p.1, p.2, rfl⟩
      obtain ⟨-, htext⟩ := Separator.cutLast_eq_some.mp hcut
      have hb : b.all Char.isDigit = false := by
        have hlast : (a ++ ':' :: b).getLast? = some ']' := htext ▸ hstrip s
        rw [List.getLast?_append_of_ne_nil _ (List.cons_ne_nil _ _)] at hlast
        rcases List.mem_cons.mp (List.mem_of_getLast? hlast) with heq | hmem
        · exact absurd heq (by decide)
        · exact List.all_eq_false.mpr ⟨']', hmem, by decide⟩
      have hdrop : (s ++ [']']).dropLast = s := List.dropLast_concat
      have hlast := hstrip s
      simp only [Url.splitHostPort, Host.text, Host.target, portText, portDigits, List.append_nil, hcut, hb]
      simp [hdrop, hlast]
    | some p =>
      have hdigits : ':' ∉ p.1 := fun hmem => absurd (List.all_eq_true.mp p.2.1 _ hmem) (by decide)
      have hcut : cutLast ':' ('[' :: s ++ [']'] ++ ':' :: p.1) = some ('[' :: s ++ [']'], p.1) :=
        Separator.cutLast_append hdigits _
      have hdrop : (s ++ [']']).dropLast = s := List.dropLast_concat
      have hlast := hstrip s
      simp only [Url.splitHostPort, Host.text, Host.target, portText, portDigits, hcut, p.2.1]
      simp [hdrop, hlast]

theorem Parse_remote {user : Option { s // IsUser s }} {host : Host} {port : Option { s // IsPort s }} {path : List Char}
    {bracket : ¬ "@[".toList <:+: (Url.unescape .path path).getD path} {u : Url.URL}
    (h : Url.Parse (Remote.url user host port path bracket).text = some u) :
    u.Hostname = host.target ∧ u.Port = portDigits port := by
  have hat : '@' ∉ host.text ++ portText port := by
    simp [hostText_at host, portText_notMem port (d := '@') (by decide) (by decide)]
  have hmarks : ∀ d ∈ ['/', '?', '#'], d ∉ userText user ++ (host.text ++ portText port) := by
    intro d hd
    have hfacts : ∀ d ∈ ['/', '?', '#'], d.isAlphanum = false ∧ d ∉ ['-', '.', '_', '~', '!', '$', '&', '\'', '(',
        ')', '*', '+', ',', ';', '=', '@'] ∧ d ∉ ['-', '.', '_'] ∧ Url.unhex d = none ∧ d.isDigit = false := by decide
    obtain ⟨halnum, hmark, hname, hhex, hdigit⟩ := hfacts d hd
    have hcolon : d ∉ [':', '.', '[', ']'] := by
      revert d
      decide
    simp only [List.mem_cons, List.not_mem_nil, or_false, not_or] at hcolon
    have huser : d ∉ userText user := by
      cases user with
      | none => exact List.not_mem_nil
      | some v =>
        have hv := user_notMem v.2 halnum hmark
        simp only [List.mem_cons, not_or] at hmark
        simp [userText, hv, hmark]
    have hhost : d ∉ host.text := by
      cases host with
      | name s valid => exact name_notMem valid halnum hname
      | ipv6 s valid =>
        have hs := address_notMem valid hhex (by simp [hcolon])
        simp [Host.text, hs, hcolon]
    simp [huser, hhost, portText_notMem port hdigit hcolon.1]
  obtain ⟨name, hauthority⟩ := Url.Parse_host (fun c hc => by
    refine ⟨?_, ?_, ?_⟩
    all_goals
      intro heq
      exact hmarks _ (by decide) (heq ▸ hc)) h
  have hhost : Url.parseHost "ssh".toList (host.text ++ portText port) = some u.Host := by
    cases user with
    | none => exact Url.parseAuthority_none hat hauthority
    | some v =>
      rw [userText, List.append_assoc, List.singleton_append] at hauthority
      exact Url.parseAuthority_some hat hauthority
  rw [parseHost_text] at hhost
  have hsplit := splitHostPort_text host port
  rw [Option.some.inj hhost] at hsplit
  exact ⟨congrArg Prod.fst hsplit, congrArg Prod.snd hsplit⟩

theorem sshHostPort_url (text : List Char) (h : "ssh://".toList <+: text) :
    sshHostPort text = match Url.Parse text with
      | some u => if u.Hostname.head? = some '-' then ([], []) else (u.Hostname, u.Port)
      | none => ([], []) := by
  have hhttp : ¬ ("https://".toList <+: text ∨ "http://".toList <+: text) := by
    obtain ⟨rest, rfl⟩ := h
    intro hfront
    rcases hfront with ⟨more, heq⟩ | ⟨more, heq⟩
    · exact absurd (List.cons.inj heq).1 (by decide)
    · exact absurd (List.cons.inj heq).1 (by decide)
  rw [sshHostPort, if_neg hhttp, if_pos h]

theorem target_head (host : Host) : host.target ≠ [] ∧ host.target.head? ≠ some '-' := by
  cases host with
  | name s valid => exact ⟨valid.1, valid.2.1⟩
  | ipv6 s valid =>
    refine ⟨List.ne_nil_of_mem (address_colon valid), fun hhead => ?_⟩
    exact address_notMem valid (d := '-') (by decide) (by decide) (List.mem_of_mem_head? hhead)

theorem scanHost_join {port : List Char} (h : ':' ∉ port) (host : List Char) :
    scanHost (host ++ ':' :: port) = (if port ≠ [] then ["-p".toList, port] else []) ++ [host] := by
  rw [scanHost, Separator.cutLast_append h]

/-- An address on its own is taken apart at its last colon. -/
theorem scanHost_address {s : List Char} (h : ':' ∈ s) : scanHost s ≠ [s] := by
  intro heq
  cases hcut : cutLast ':' s with
  | none => exact Separator.cutLast_eq_none.mp hcut h
  | some p =>
    obtain ⟨a, b⟩ := p
    obtain ⟨-, hs⟩ := Separator.cutLast_eq_some.mp hcut
    rw [scanHost, hcut] at heq
    dsimp only at heq
    split at heq
    · cases heq
    · have ha : a = s := (List.cons.inj heq).1
      have hlength := congrArg List.length (ha.trans hs)
      rw [List.length_append, List.length_cons] at hlength
      omega

theorem scanned_url (user : Option { s // IsUser s }) (host : Host) (port : Option { s // IsPort s }) (path : List Char)
    (bracket : ¬ "@[".toList <:+: (Url.unescape .path path).getD path) :
    (Remote.url user host port path bracket).Scanned ↔ (Remote.url user host port path bracket).Plain := by
  have hssh := sshHostPort_url (Remote.url user host port path bracket).text ⟨_, rfl⟩
  cases hparse : Url.Parse (Remote.url user host port path bracket).text with
  | none =>
    rw [hparse] at hssh
    rw [Remote.Scanned, hssh]
    exact iff_of_true (fun hne => absurd rfl hne) (.inr (.inr hparse))
  | some u =>
    obtain ⟨hname, hport⟩ := Parse_remote hparse
    obtain ⟨hne, hflag⟩ := target_head host
    simp only [hparse, hname, hport, if_neg hflag] at hssh
    have hplain : (Remote.url user host port path bracket).Plain ↔ host.isName ∨ portDigits port ≠ [] := by
      simp [Remote.Plain, hparse, Remote.target]
    have hcolon : ':' ∉ portDigits port := by
      cases port with
      | none => exact List.not_mem_nil
      | some p => exact fun hmem => absurd (List.all_eq_true.mp p.2.1 _ hmem) (by decide)
    rw [hplain, Remote.Scanned, scanned, hssh]
    by_cases hdigits : portDigits port = []
    · cases host with
      | name s valid =>
        have hs := scanHost_name (name_notMem valid (d := ':') (by decide) (by decide))
        simp [Remote.target, Host.target, Host.isName, hdigits, hs, valid.1, valid.2.1]
      | ipv6 s valid =>
        have hs := scanHost_address (address_colon valid)
        simp [Remote.target, Host.target, Host.isName, hdigits, hs, List.ne_nil_of_mem (address_colon valid)]
    · have hs := scanHost_join hcolon host.target
      simp [Remote.target, hdigits, hs, hne, hflag]

/-! ### Names in general -/

theorem front_flag (s : List Char) : (front s).1.head? ≠ some '-' := by
  unfold front
  split
  · split
    · simp
    · rename_i hflag
      exact hflag
  · simp

/-- Whatever the name, no flag is found. -/
theorem sshHostPort_flag (repo : List Char) : (sshHostPort repo).1.head? ≠ some '-' := by
  unfold sshHostPort
  split
  · simp
  · split
    · split
      · split
        · simp
        · rename_i hflag
          exact hflag
      · simp
    · exact front_flag _

theorem scanHost_last (hostport : List Char) : ∃ host, (scanHost hostport).getLast? = some host ∧ host <+: hostport := by
  rw [scanHost]
  cases hcut : cutLast ':' hostport with
  | none => exact ⟨hostport, by simp, List.prefix_rfl⟩
  | some p =>
    obtain ⟨host, port⟩ := p
    obtain ⟨-, rfl⟩ := Separator.cutLast_eq_some.mp hcut
    exact ⟨host, by simp, List.prefix_append _ _⟩

theorem scanned_flag {repo : List Char} {args : List (List Char)} (h : scanned repo = some args) :
    ∀ host ∈ args.getLast?, host.head? ≠ some '-' := by
  intro host hhost
  have hflag := sshHostPort_flag repo
  unfold scanned at h
  generalize sshHostPort repo = p at h hflag
  obtain ⟨found, port⟩ := p
  dsimp only at h hflag
  split at h
  · rename_i hne
    have hargs := Option.some.inj h
    obtain ⟨last, hlast, hfront⟩ := scanHost_last (if port ≠ [] then found ++ ':' :: port else found)
    rw [hargs, Option.mem_def.mp hhost] at hlast
    obtain rfl := Option.some.inj hlast
    intro hhead
    refine hflag ?_
    have hjoined : (if port ≠ [] then found ++ ':' :: port else found).head? = found.head? := by
      cases found with
      | nil => exact absurd rfl hne
      | cons c found => split <;> rfl
    rw [← hjoined]
    obtain ⟨rest, hrest⟩ := hfront
    rw [← hrest, List.head?_append, hhead]
    rfl
  · cases h

example : sshHostPort "git@[::1]:srv/app.git".toList = ("[".toList, []) := by decide +kernel

theorem no_bracket {s : List Char} (h : '@' ∉ s) : ¬ "@[".toList <:+: s :=
  fun hpart => h (hpart.subset List.mem_cons_self)

def loopback : Remote :=
  .url (some ⟨"git".toList, by decide +kernel, by decide +kernel⟩)
    (.ipv6 "::1".toList ⟨by decide +kernel, by decide +kernel⟩) none "srv/app.git".toList
    (no_bracket (by decide +kernel))

end Marshal.Dashboard
