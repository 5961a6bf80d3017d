import Marshal.Lib.Separator
import Marshal.Lib.Utf8

/-! URLs, as `net/url` parses and writes them.

A string of bytes is a list of characters, each below 256 and standing for one byte. What is accepted
depends on the part of the URL (`Mode`): a host may escape only what is not ASCII, and between brackets it is
an IPv6 address. -/
namespace Url

/-! ### Escapes -/

inductive Mode where
  | path
  | userPassword
  | host
  | zone
  | fragment
  deriving DecidableEq, Repr

def shouldEscape (mode : Mode) (c : Char) : Bool :=
  if c.isAlphanum then false
  else if (mode = .host ∨ mode = .zone) ∧
    c ∈ ['!', '$', '&', '\'', '(', ')', '*', '+', ',', ';', '=', ':', '[', ']', '<', '>', '"'] then false
  else if c ∈ ['-', '_', '.', '~'] then false
  else if c ∈ ['$', '&', '+', ',', '/', ':', ';', '=', '?', '@'] then
    match mode with
    | .path => c == '?'
    | .userPassword => c == '@' || c == '/' || c == '?' || c == ':'
    | .fragment => false
    | .host | .zone => true
  else !(mode == .fragment && c ∈ ['!', '(', ')', '*'])

def unhex (c : Char) : Option Nat :=
  if '0' ≤ c ∧ c ≤ '9' then some (c.toNat - 48)
  else if 'a' ≤ c ∧ c ≤ 'f' then some (c.toNat - 87)
  else if 'A' ≤ c ∧ c ≤ 'F' then some (c.toNat - 55)
  else none

def upperhex (n : Nat) : Char := if n < 10 then Char.ofNat (48 + n) else Char.ofNat (55 + n)

/-- The text with its escapes replaced, unless there is one that the part does not allow. -/
def unescape (mode : Mode) : List Char → Option (List Char)
  | [] => some []
  | '%' :: a :: b :: rest => match unhex a, unhex b with
    | some x, some y =>
      let v := Char.ofNat (16 * x + y)
      if mode = .host ∧ x < 8 ∧ (a, b) ≠ ('2', '5') then none
      else if mode = .zone ∧ (a, b) ≠ ('2', '5') ∧ v ≠ ' ' ∧ shouldEscape .host v = true then none
      else (unescape mode rest).map (v :: ·)
    | _, _ => none
  | '%' :: _ => none
  | c :: rest =>
    if (mode = .host ∨ mode = .zone) ∧ c.toNat < 128 ∧ shouldEscape mode c = true then none
    else (unescape mode rest).map (c :: ·)

def escape (mode : Mode) (s : List Char) : List Char :=
  s.flatMap fun c =>
    if shouldEscape mode c then ['%', upperhex (c.toNat / 16), upperhex (c.toNat % 16)] else [c]

/-- What an escaped text may be written with. -/
def validEncoded (mode : Mode) (s : List Char) : Bool :=
  s.all fun c =>
    c ∈ ['!', '$', '&', '\'', '(', ')', '*', '+', ',', ';', '=', ':', '@', '[', ']', '%'] || !shouldEscape mode c

/-- The way a text was given stands for the text. -/
def stands (mode : Mode) (raw text : List Char) : Bool :=
  raw != [] && validEncoded mode raw && unescape mode raw == some text

/-! ### IPv6 addresses -/

/-- Four numbers up to 255, none with a leading zero. -/
def ipv4 (s : List Char) : Bool :=
  let fields := s.splitOn '.'
  fields.length == 4 && fields.all fun f => 0 < f.length && f.length ≤ 3 && f.all Char.isDigit &&
    (f.head? != some '0' || f.length == 1) && Nat.ofDigitChars 10 f 0 ≤ 255

def group (f : List Char) : Bool := 0 < f.length && f.length ≤ 4 && f.all fun c => (unhex c).isSome

/-- How many groups these are; an IPv4 address at the end is two. -/
def groups (s : List Char) : Option Nat :=
  match (s.splitOn ':').reverse with
  | [] => none
  | last :: init =>
    if init.all group then
      if group last then some (init.length + 1) else if ipv4 last then some (init.length + 2) else none
    else none

/-- What is before and after the first `::`. -/
def ellipsis : List Char → Option (List Char × List Char)
  | ':' :: ':' :: rest => some ([], rest)
  | c :: rest => (ellipsis rest).map fun p => (c :: p.1, p.2)
  | [] => none

def eightGroups (s : List Char) : Bool :=
  match ellipsis s with
  | none => groups s == some 8
  | some (l, r) =>
    let left := if l = [] then some 0 else if (l.splitOn ':').all group then groups l else none
    let right := if r = [] then some 0 else groups r
    match left, right with
    | some m, some n => m + n ≤ 7
    | _, _ => false

/-- The text is an IPv6 address, with or without a zone. -/
def ipv6 (s : List Char) : Bool :=
  s.find? (fun c => c == '.' || c == ':' || c == '%') == some ':' &&
    match Separator.cut '%' s with
    | none => eightGroups s
    | some (addr, zone) => zone != [] && eightGroups addr

/-! ### Parsing -/

structure Userinfo where
  username : List Char
  password : Option (List Char) := none
  deriving DecidableEq, Repr

structure URL where
  Scheme : List Char := []
  Opaque : List Char := []
  User : Option Userinfo := none
  /-- With the port, if there is one. -/
  Host : List Char := []
  Path : List Char := []
  RawPath : List Char := []
  OmitHost : Bool := false
  ForceQuery : Bool := false
  RawQuery : List Char := []
  Fragment : List Char := []
  RawFragment : List Char := []
  deriving DecidableEq, Repr

/-- The scheme and what is after its colon; the whole text where there is none. `seen` is in front of the
rest of the text. -/
def schemeFrom (seen : List Char) : List Char → Option (List Char × List Char)
  | [] => some ([], seen)
  | c :: rest =>
    if c.isAlpha then schemeFrom (seen ++ [c]) rest
    else if c.isDigit ∨ c = '+' ∨ c = '-' ∨ c = '.' then
      if seen = [] then some ([], c :: rest) else schemeFrom (seen ++ [c]) rest
    else if c = ':' then if seen = [] then none else some (seen, rest)
    else some ([], seen ++ c :: rest)

def validOptionalPort : List Char → Bool
  | [] => true
  | c :: rest => c == ':' && rest.all Char.isDigit

def validUserinfo (s : List Char) : Bool :=
  s.all fun c => c.isAlphanum ||
    c ∈ ['-', '.', '_', ':', '~', '!', '$', '&', '\'', '(', ')', '*', '+', ',', ';', '=', '%', '@']

/-- What is before and after the first `%25`. -/
def zoneCut : List Char → Option (List Char × List Char)
  | '%' :: '2' :: '5' :: rest => some ([], '%' :: '2' :: '5' :: rest)
  | c :: rest => (zoneCut rest).map fun p => (c :: p.1, p.2)
  | [] => none

def unescapeAddress (s : List Char) : Option (List Char) :=
  match zoneCut s with
  | none => unescape .host s
  | some (addr, zone) => do
    let addr ← unescape .host addr
    let zone ← unescape .zone zone
    some (addr ++ zone)

/-- The colon before the port: the only one, or the last under a scheme that always allowed more. -/
def portOf (scheme host : List Char) : List Char :=
  if scheme = "postgresql".toList ∨ scheme = "postgres".toList then
    match Separator.cutLast ':' host with
    | none => []
    | some (_, port) => ':' :: port
  else
    match Separator.cut ':' host with
    | none => []
    | some (_, port) => ':' :: port

def parseHost (scheme host : List Char) : Option (List Char) :=
  if '[' ∈ host then do
    let (before, colonPort) ← Separator.cutLast ']' host
    if !validOptionalPort colonPort then none
    else do
      let (front, address) ← Separator.cutLast '[' before
      if front ≠ [] then none
      else do
        let address ← unescapeAddress address
        if ipv6 address then some ('[' :: address ++ ']' :: colonPort) else none
  else if validOptionalPort (portOf scheme host) then unescape .host host
  else none

def parseUserinfo (s : List Char) : Option Userinfo :=
  if !validUserinfo s then none
  else match Separator.cut ':' s with
    | none => (unescape .userPassword s).map fun name => ⟨name, none⟩
    | some (name, password) => do
      let name ← unescape .userPassword name
      let password ← unescape .userPassword password
      some ⟨name, some password⟩

def parseAuthority (scheme authority : List Char) : Option (Option Userinfo × List Char) :=
  match Separator.cutLast '@' authority with
  | none => (parseHost scheme authority).map fun host => (none, host)
  | some (userinfo, host) => do
    let host ← parseHost scheme host
    let user ← parseUserinfo userinfo
    some (some user, host)

def URL.setPath (u : URL) (p : List Char) : Option URL :=
  (unescape .path p).map fun path =>
    { u with Path := path, RawPath := if escape .path path = p then [] else p }

def URL.setFragment (u : URL) (f : List Char) : Option URL :=
  (unescape .fragment f).map fun frag =>
    { u with Fragment := frag, RawFragment := if escape .fragment frag = f then [] else f }

/-- What is before and after the first slash, which belongs to the second part. -/
def authorityCut (s : List Char) : List Char × List Char :=
  match Separator.cut '/' s with
  | none => (s, [])
  | some (authority, path) => (authority, '/' :: path)

/-- The URL of what is after the scheme and before the query. -/
def parseRest (u : URL) (rest : List Char) : Option URL :=
  if rest.head? ≠ some '/' then
    if u.Scheme ≠ [] then some { u with Opaque := rest }
    else if ':' ∈ rest.takeWhile (· != '/') then none
    else u.setPath rest
  else if (u.Scheme ≠ [] ∨ ¬ "///".toList <+: rest) ∧ "//".toList <+: rest then
    let (authority, path) := authorityCut (rest.drop 2)
    match parseAuthority u.Scheme authority with
    | none => none
    | some (user, host) => { u with User := user, Host := host }.setPath path
  else if u.Scheme ≠ [] then { u with OmitHost := true }.setPath rest
  else u.setPath rest

/-- `parse`: a URL without its fragment. -/
def parse (raw : List Char) : Option URL :=
  if raw.any fun c => c.toNat < 32 || c.toNat == 127 then none
  else if raw = ['*'] then some { Path := ['*'] }
  else match schemeFrom [] raw with
    | none => none
    | some (scheme, rest) =>
      let u : URL := { Scheme := scheme.map Char.toLower }
      match Separator.cut '?' rest with
      | none => parseRest u rest
      | some (rest, []) => parseRest { u with ForceQuery := true } rest
      | some (rest, query) => parseRest { u with RawQuery := query } rest

def Parse (raw : List Char) : Option URL :=
  match Separator.cut '#' raw with
  | none => parse raw
  | some (front, []) => parse front
  | some (front, frag) => do
    let u ← parse front
    u.setFragment frag

/-! ### Reading and writing -/

def splitHostPort (hostPort : List Char) : List Char × List Char :=
  let (host, port) := match Separator.cutLast ':' hostPort with
    | some (host, port) => if port.all Char.isDigit then (host, port) else (hostPort, [])
    | none => (hostPort, [])
  (if host.head? = some '[' ∧ host.getLast? = some ']' then (host.drop 1).dropLast else host, port)

def URL.Hostname (u : URL) : List Char := (splitHostPort u.Host).1
def URL.Port (u : URL) : List Char := (splitHostPort u.Host).2

def User (username : List Char) : Userinfo := ⟨username, none⟩

def Userinfo.String (u : Userinfo) : List Char :=
  if u.username = [] ∧ u.password.getD [] = [] then []
  else escape .userPassword u.username ++ match u.password with
    | none => []
    | some password => ':' :: escape .userPassword password

def URL.EscapedPath (u : URL) : List Char :=
  if stands .path u.RawPath u.Path then u.RawPath
  else if u.Path = ['*'] then ['*']
  else escape .path u.Path

def URL.EscapedFragment (u : URL) : List Char :=
  if stands .fragment u.RawFragment u.Fragment then u.RawFragment else escape .fragment u.Fragment

/-- What is written of the user and the host. -/
def URL.authority (u : URL) : List Char :=
  if u.Scheme = [] ∧ u.Host = [] ∧ u.User = none ∨ u.OmitHost = true ∧ u.Host = [] ∧ u.User = none then []
  else (if u.Host ≠ [] ∨ u.Path ≠ [] ∨ u.User ≠ none then ['/', '/'] else []) ++
    (match u.User with
      | none => []
      | some user => user.String ++ ['@']) ++ escape .host u.Host

def URL.hierarchy (u : URL) : List Char :=
  let path := u.EscapedPath
  u.authority ++
    (if path ≠ [] ∧ path.head? ≠ some '/' ∧ u.Host ≠ [] then ['/'] else []) ++
    (if u.Scheme = [] ∧ u.authority = [] ∧ ':' ∈ path.takeWhile (· != '/') then ['.', '/'] else []) ++ path

def URL.String (u : URL) : List Char :=
  (if u.Scheme ≠ [] then u.Scheme ++ [':'] else []) ++
    (if u.Opaque ≠ [] then u.Opaque else u.hierarchy) ++
    (if u.ForceQuery = true ∨ u.RawQuery ≠ [] then '?' :: u.RawQuery else []) ++
    (if u.Fragment ≠ [] then '#' :: u.EscapedFragment else [])

/-! ### The scheme -/

/-- A scheme begins with a letter. -/
theorem schemeFrom_alpha {seen rest scheme after : List Char} (hseen : ∀ c ∈ seen.head?, c.isAlpha = true)
    (h : schemeFrom seen rest = some (scheme, after)) : ∀ c ∈ scheme.head?, c.isAlpha = true := by
  induction rest generalizing seen with
  | nil =>
    cases h
    simp
  | cons c rest ih =>
    unfold schemeFrom at h
    split at h
    · rename_i halpha
      refine ih (fun d hd => ?_) h
      cases seen with
      | nil =>
        obtain rfl : c = d := by simpa using hd
        exact halpha
      | cons e seen => exact hseen d (by simpa using hd)
    · split at h
      · split at h
        · cases h
          simp
        · rename_i hne
          refine ih (fun d hd => ?_) h
          cases seen with
          | nil => exact absurd rfl hne
          | cons e seen => exact hseen d (by simpa using hd)
      · split at h
        · split at h
          · cases h
          · cases h
            exact hseen
        · cases h
          simp

theorem isAlpha_toLower {c : Char} (h : c.isAlpha = true) : c.toLower.isAlpha = true := by
  delta Char.isAlpha Char.isUpper Char.isLower Char.toLower at h ⊢
  split
  · rename_i hupper
    simp only [ge_iff_le, UInt32.le_iff_toNat_le, UInt32.toNat_add, Bool.or_eq_true, Bool.and_eq_true,
      decide_eq_true_eq, Char.reduceVal, UInt32.reduceSub, UInt32.reduceToNat] at hupper ⊢
    omega
  · exact h

theorem setPath_some {u v : URL} {p : List Char} (h : u.setPath p = some v) :
    v.Scheme = u.Scheme ∧ v.Host = u.Host ∧ v.Opaque = u.Opaque := by
  obtain ⟨path, -, rfl⟩ := Option.map_eq_some_iff.mp h
  exact ⟨rfl, rfl, rfl⟩

theorem setFragment_some {u v : URL} {f : List Char} (h : u.setFragment f = some v) :
    v.Scheme = u.Scheme ∧ v.Host = u.Host ∧ v.Opaque = u.Opaque := by
  obtain ⟨frag, -, rfl⟩ := Option.map_eq_some_iff.mp h
  exact ⟨rfl, rfl, rfl⟩

/-- A URL with a host is not opaque. -/
theorem parseRest_some {u v : URL} {rest : List Char} (h : parseRest u rest = some v) (hhost : u.Host = [])
    (hnone : u.Opaque = []) : v.Scheme = u.Scheme ∧ (v.Host ≠ [] → v.Opaque = []) := by
  unfold parseRest at h
  split at h
  · split at h
    · cases h
      exact ⟨rfl, fun hne => absurd hhost hne⟩
    · split at h
      · cases h
      · obtain ⟨hscheme, -, hop⟩ := setPath_some h
        exact ⟨hscheme, fun _ => hop.trans hnone⟩
  · split at h
    · simp only at h
      split at h
      · cases h
      · obtain ⟨hscheme, -, hop⟩ := setPath_some h
        exact ⟨hscheme, fun _ => hop.trans hnone⟩
    · split at h
      · obtain ⟨hscheme, -, hop⟩ := setPath_some h
        exact ⟨hscheme, fun _ => hop.trans hnone⟩
      · obtain ⟨hscheme, -, hop⟩ := setPath_some h
        exact ⟨hscheme, fun _ => hop.trans hnone⟩

theorem parse_some {raw : List Char} {u : URL} (h : parse raw = some u) :
    (∀ c ∈ u.Scheme.head?, c.isAlpha = true) ∧ (u.Host ≠ [] → u.Opaque = []) := by
  unfold parse at h
  split at h
  · cases h
  · split at h
    · cases h
      exact ⟨by simp, fun _ => rfl⟩
    · split at h
      · cases h
      · rename_i scheme rest hscheme
        have halpha := schemeFrom_alpha (by simp) hscheme
        have hlower : ∀ c ∈ (scheme.map Char.toLower).head?, c.isAlpha = true := by
          cases scheme with
          | nil => simp
          | cons d scheme =>
            have hd := isAlpha_toLower (halpha d rfl)
            simpa using hd
        dsimp only at h
        split at h
        · obtain ⟨hs, hop⟩ := parseRest_some h rfl rfl
          exact ⟨hs ▸ hlower, hop⟩
        · obtain ⟨hs, hop⟩ := parseRest_some h rfl rfl
          exact ⟨hs ▸ hlower, hop⟩
        · obtain ⟨hs, hop⟩ := parseRest_some h rfl rfl
          exact ⟨hs ▸ hlower, hop⟩

theorem Parse_some {raw : List Char} {u : URL} (h : Parse raw = some u) :
    (∀ c ∈ u.Scheme.head?, c.isAlpha = true) ∧ (u.Host ≠ [] → u.Opaque = []) := by
  unfold Parse at h
  split at h
  · exact parse_some h
  · exact parse_some h
  · obtain ⟨v, hparse, hfrag⟩ := Option.bind_eq_some_iff.mp h
    obtain ⟨hscheme, hhost, hop⟩ := setFragment_some hfrag
    rw [hscheme, hhost, hop]
    exact parse_some hparse

/-- A parsed URL with a host is written with a letter or a slash first, whatever user it is given. -/
theorem head_String {raw : List Char} {u : URL} (h : Parse raw = some u) (hhost : u.Host ≠ []) (user : Userinfo) :
    ∃ c, ({ u with User := some user } : URL).String.head? = some c ∧ (c.isAlpha = true ∨ c = '/') := by
  obtain ⟨halpha, hnone⟩ := Parse_some h
  cases hscheme : u.Scheme with
  | cons c scheme =>
    refine ⟨c, ?_, .inl (halpha c (by rw [hscheme]; rfl))⟩
    simp [URL.String]
  | nil =>
    refine ⟨'/', ?_, .inr rfl⟩
    simp [URL.String, URL.hierarchy, URL.authority, hnone hhost, hhost]

/-! ### The host -/

theorem parseRest_host {u v : URL} {authority path : List Char} (hslash : '/' ∉ authority) (hscheme : u.Scheme ≠ [])
    (h : parseRest u ('/' :: '/' :: (authority ++ '/' :: path)) = some v) :
    ∃ user, parseAuthority u.Scheme authority = some (user, v.Host) := by
  have hcut : authorityCut (authority ++ '/' :: path) = (authority, '/' :: path) := by
    rw [authorityCut, Separator.cut_append hslash]
  have htwo : "//".toList <+: '/' :: '/' :: (authority ++ '/' :: path) := ⟨_, rfl⟩
  rw [parseRest, if_neg (by simp), if_pos ⟨.inl hscheme, htwo⟩, List.drop_succ_cons, List.drop_succ_cons,
    List.drop_zero, hcut] at h
  dsimp only at h
  split at h
  · cases h
  · rename_i user host hauthority
    obtain ⟨-, hhost, -⟩ := setPath_some h
    exact ⟨user, by rw [hauthority, hhost]⟩

/-- The host of an `ssh://` URL is that of its authority. -/
theorem Parse_host {u : URL} {authority path : List Char} (hplain : ∀ c ∈ authority, c ≠ '/' ∧ c ≠ '?' ∧ c ≠ '#')
    (h : Parse ("ssh://".toList ++ (authority ++ '/' :: path)) = some u) :
    ∃ user, parseAuthority "ssh".toList authority = some (user, u.Host) := by
  have hslash : '/' ∉ authority := fun hmem => (hplain _ hmem).1 rfl
  have hquery : '?' ∉ '/' :: '/' :: (authority ++ ['/']) := by
    simp [show '?' ∉ authority from fun hmem => (hplain _ hmem).2.1 rfl]
  have hhash : '#' ∉ "ssh://".toList ++ (authority ++ ['/']) := by
    simp [show '#' ∉ authority from fun hmem => (hplain _ hmem).2.2 rfl]
  have hparse : ∀ path v, parse ("ssh://".toList ++ (authority ++ '/' :: path)) = some v →
      ∃ user, parseAuthority "ssh".toList authority = some (user, v.Host) := by
    intro path v hv
    have hscheme : schemeFrom [] ("ssh://".toList ++ (authority ++ '/' :: path)) =
        some ("ssh".toList, '/' :: '/' :: (authority ++ '/' :: path)) := rfl
    have hlower : "ssh".toList.map Char.toLower = "ssh".toList := by decide
    have hfront := Separator.cut_front hquery path
    have htext : ('/' :: '/' :: (authority ++ ['/'])) ++ path = '/' :: '/' :: (authority ++ '/' :: path) := by simp
    rw [htext] at hfront
    unfold parse at hv
    split at hv
    · cases hv
    · split at hv
      · rename_i hstar
        cases hstar
      · rw [hscheme] at hv
        dsimp only at hv
        rw [hfront, hlower] at hv
        cases hcut : Separator.cut '?' path with
        | none =>
          rw [hcut] at hv
          exact parseRest_host hslash (by simp) hv
        | some p =>
          obtain ⟨before, query⟩ := p
          rw [hcut] at hv
          have hbefore : ('/' :: '/' :: (authority ++ ['/'])) ++ before = '/' :: '/' :: (authority ++ '/' :: before) := by
            simp
          simp only [Option.map_some, hbefore] at hv
          cases query with
          | nil => exact parseRest_host hslash (by simp) hv
          | cons c query => exact parseRest_host hslash (by simp) hv
  have hfront := Separator.cut_front hhash path
  have htext : "ssh://".toList ++ (authority ++ ['/']) ++ path = "ssh://".toList ++ (authority ++ '/' :: path) := by
    simp
  rw [htext] at hfront
  unfold Parse at h
  rw [hfront] at h
  cases hcut : Separator.cut '#' path with
  | none =>
    rw [hcut] at h
    exact hparse path u h
  | some p =>
    obtain ⟨before, frag⟩ := p
    rw [hcut] at h
    have hbefore : "ssh://".toList ++ (authority ++ ['/']) ++ before =
        "ssh://".toList ++ (authority ++ '/' :: before) := by simp
    simp only [Option.map_some, hbefore] at h
    cases frag with
    | nil => exact hparse before u h
    | cons c frag =>
      obtain ⟨v, hv, hfrag⟩ := Option.bind_eq_some_iff.mp h
      obtain ⟨-, hhost, -⟩ := setFragment_some hfrag
      rw [hhost]
      exact hparse before v hv

theorem parseAuthority_none {scheme authority host : List Char} {user : Option Userinfo} (hat : '@' ∉ authority)
    (h : parseAuthority scheme authority = some (user, host)) : parseHost scheme authority = some host := by
  rw [parseAuthority, Separator.cutLast_eq_none.mpr hat] at h
  obtain ⟨host', hhost, heq⟩ := Option.map_eq_some_iff.mp h
  cases heq
  exact hhost

theorem parseAuthority_some {scheme name authority host : List Char} {user : Option Userinfo} (hat : '@' ∉ authority)
    (h : parseAuthority scheme (name ++ '@' :: authority) = some (user, host)) :
    parseHost scheme authority = some host := by
  rw [parseAuthority, Separator.cutLast_append hat] at h
  obtain ⟨host', hhost, h⟩ := Option.bind_eq_some_iff.mp h
  obtain ⟨user', -, heq⟩ := Option.bind_eq_some_iff.mp h
  cases heq
  exact hhost

theorem zoneCut_none {s : List Char} (h : '%' ∉ s) : zoneCut s = none := by
  induction s with
  | nil => rfl
  | cons c s ih =>
    rw [List.mem_cons, not_or] at h
    obtain ⟨hc, hs⟩ := h
    rw [zoneCut.eq_def]
    split
    · rename_i heq
      exact absurd (List.cons.inj heq).1.symm hc
    · rename_i heq
      cases heq
      rw [ih hs]
      rfl
    · rename_i heq
      cases heq

theorem unescape_host {s : List Char} (h : ∀ c ∈ s, c ≠ '%' ∧ shouldEscape .host c = false) :
    unescape .host s = some s := by
  induction s with
  | nil => rfl
  | cons c s ih =>
    obtain ⟨⟨hpercent, hescape⟩, hs⟩ := List.forall_mem_cons.mp h
    rw [unescape.eq_def]
    split
    · rename_i heq
      cases heq
    · rename_i heq
      exact absurd (List.cons.inj heq).1 hpercent
    · rename_i heq
      exact absurd (List.cons.inj heq).1 hpercent
    · rename_i heq
      cases heq
      rw [if_neg (by simp [hescape]), ih hs]
      rfl

/-! ### What a browser writes

A text is written as its UTF-8 bytes, each as an escape unless it is one of the characters that stand for
themselves. -/

def percentEncode (plain : Char → Bool) (s : List Char) : List Char :=
  s.flatMap fun c => if plain c then [c] else ['%', upperhex (c.toNat / 16), upperhex (c.toNat % 16)]

def componentPlain (c : Char) : Bool := c.isAlphanum || c ∈ ['-', '_', '.', '!', '~', '*', '\'', '(', ')']

def encodeURIComponent (text : List Char) : List Char := percentEncode componentPlain (Utf8.bytes text)

def formPlain (c : Char) : Bool := c.isAlphanum || c ∈ ['*', '-', '.', '_']

/-- A space is a plus sign in a form. -/
def formEncode (text : List Char) : List Char :=
  (Utf8.bytes text).flatMap fun c => if c = ' ' then ['+'] else percentEncode formPlain [c]

def URLSearchParams (pairs : List (List Char × List Char)) : List Char :=
  ['&'].intercalate (pairs.map fun p => formEncode p.1 ++ '=' :: formEncode p.2)

/-- The segments of a path once what stands for this directory, and for the one above, is carried out. -/
def resolve {α : Type*} (dot dots : α → Bool) (empty : α) (out : List α) : List α → List α
  | [] => out
  | [s] => if dots s then out.dropLast ++ [empty] else if dot s then out ++ [empty] else out ++ [s]
  | s :: more => resolve dot dots empty (if dots s then out.dropLast else if dot s then out else out ++ [s]) more

/-- The ways of writing a dot. -/
def dotted : List (List Char) := [".".toList, "%2e".toList, "%2E".toList]

def isDot (s : List Char) : Bool := dotted.contains s

def isDots (s : List Char) : Bool := (dotted.flatMap fun d => dotted.map (d ++ ·)).contains s

/-- What a browser asks for when it is given a path on its own host. -/
def requestTarget (url : List Char) : List Char :=
  let (path, query) := match Separator.cut '?' url with
    | none => (url, [])
    | some (path, query) => (path, '?' :: query)
  ((resolve isDot isDots [] [] ((path.drop 1).splitOn '/')).flatMap ('/' :: ·)) ++ query

/-- The target of a request, without its host. -/
def ParseRequestURI (raw : List Char) : Option URL :=
  if raw.any fun c => c.toNat < 32 || c.toNat == 127 then none
  else if raw.head? ≠ some '/' then none
  else match Separator.cut '?' raw with
    | none => URL.setPath {} raw
    | some (path, []) => URL.setPath { ForceQuery := true } path
    | some (path, query) => URL.setPath { RawQuery := query } path

def QueryUnescape (s : List Char) : Option (List Char) :=
  unescape .path (s.map fun c => if c = '+' then ' ' else c)

/-- A piece of a query: a key and its value. -/
def queryPair (piece : List Char) : Option (List Char × List Char) :=
  if ';' ∈ piece ∨ piece = [] then none
  else do
    let (key, value) := (Separator.cut '=' piece).getD (piece, [])
    return (← QueryUnescape key, ← QueryUnescape value)

/-- The pairs of a query, in their order; what cannot be read is left out. -/
def ParseQuery (query : List Char) : List (List Char × List Char) := (query.splitOn '&').filterMap queryPair

theorem upperhex_cases {n : Nat} (h : n < 16) : unhex (upperhex n) = some n ∧ (upperhex n).isAlphanum = true := by
  revert n
  decide

section Encode
variable {plain : Char → Bool} {s : List Char}

/-- An escaped byte is read as the byte. -/
theorem unescape_escape {c : Char} (hc : c.toNat < 256) (rest : List Char) :
    unescape .path ('%' :: upperhex (c.toNat / 16) :: upperhex (c.toNat % 16) :: rest) =
      (unescape .path rest).map (c :: ·) := by
  have hhigh := (upperhex_cases (show c.toNat / 16 < 16 by omega)).1
  have hlow := (upperhex_cases (show c.toNat % 16 < 16 by omega)).1
  have hbyte : Char.ofNat (16 * (c.toNat / 16) + c.toNat % 16) = c := by
    rw [Nat.div_add_mod, Char.ofNat_toNat]
  rw [unescape]
  simp only [hhigh, hlow, hbyte, reduceCtorEq, false_and, if_false]

theorem unescape_plain {c : Char} (hc : c ≠ '%') (rest : List Char) :
    unescape .path (c :: rest) = (unescape .path rest).map (c :: ·) := by
  rw [unescape.eq_def]
  split
  · rename_i heq
    cases heq
  · rename_i heq
    exact absurd (List.cons.inj heq).1 hc
  · rename_i heq
    exact absurd (List.cons.inj heq).1 hc
  · rename_i heq
    cases heq
    simp only [reduceCtorEq, false_or, false_and, if_false]

theorem unescape_percentEncode (hplain : plain '%' = false) (hs : ∀ c ∈ s, c.toNat < 256) (rest : List Char) :
    unescape .path (percentEncode plain s ++ rest) = (unescape .path rest).map (s ++ ·) := by
  induction s with
  | nil => exact Option.map_id'.symm
  | cons c s ih =>
    obtain ⟨hc, hs⟩ := List.forall_mem_cons.mp hs
    have hrest : unescape .path (percentEncode plain (c :: s) ++ rest) =
        (unescape .path (percentEncode plain s ++ rest)).map (c :: ·) := by
      rw [percentEncode, List.flatMap_cons, ← percentEncode]
      split
      · rename_i hpc
        have hne : c ≠ '%' := by
          intro h
          rw [h, hplain] at hpc
          cases hpc
        exact unescape_plain hne _
      · exact unescape_escape hc _
    rw [hrest, ih hs, Option.map_map]
    rfl

theorem bytes_lt {text : List Char} : ∀ c ∈ Utf8.bytes text, c.toNat < 256 := by
  intro c hc
  obtain ⟨b, -, rfl⟩ := List.mem_map.mp hc
  exact b.toNat_lt

theorem mem_percentEncode {c : Char} (hs : ∀ d ∈ s, d.toNat < 256) (hc : c ∈ percentEncode plain s) :
    plain c = true ∨ c = '%' ∨ c.isAlphanum = true := by
  obtain ⟨d, hd, hc⟩ := List.mem_flatMap.mp hc
  have hbyte := hs d hd
  split at hc
  · rw [List.mem_singleton] at hc
    subst hc
    exact .inl ‹_›
  · simp only [List.mem_cons, List.not_mem_nil, or_false] at hc
    rcases hc with rfl | rfl | rfl
    · exact .inr (.inl rfl)
    · exact .inr (.inr (upperhex_cases (by omega)).2)
    · exact .inr (.inr (upperhex_cases (by omega)).2)

end Encode

/-- The characters of an encoded component. -/
theorem mem_encodeURIComponent {text : List Char} {c : Char} (hc : c ∈ encodeURIComponent text) :
    componentPlain c = true ∨ c = '%' := by
  rcases mem_percentEncode bytes_lt hc with hplain | hpercent | halpha
  · exact .inl hplain
  · exact .inr hpercent
  · exact .inl (by rw [componentPlain, halpha, Bool.true_or])

theorem alphanum_visible {c : Char} (hc : c.isAlphanum = true) : 32 ≤ c.toNat ∧ c.toNat ≠ 127 := by
  delta Char.isAlphanum Char.isAlpha Char.isUpper Char.isLower Char.isDigit at hc
  simp only [Bool.or_eq_true, Bool.and_eq_true, decide_eq_true_eq, ge_iff_le, UInt32.le_iff_toNat_le] at hc
  show 32 ≤ c.val.toNat ∧ c.val.toNat ≠ 127
  rcases hc with (hc | hc) | hc
  · have hlow : 65 ≤ c.val.toNat := hc.1
    have hhigh : c.val.toNat ≤ 90 := hc.2
    omega
  · have hlow : 97 ≤ c.val.toNat := hc.1
    have hhigh : c.val.toNat ≤ 122 := hc.2
    omega
  · have hlow : 48 ≤ c.val.toNat := hc.1
    have hhigh : c.val.toNat ≤ 57 := hc.2
    omega

theorem componentPlain_visible {c : Char} (hc : componentPlain c = true) : 32 ≤ c.toNat ∧ c.toNat ≠ 127 ∧ c ≠ '?' := by
  rcases Bool.or_eq_true_iff.mp hc with halpha | hmark
  · refine ⟨(alphanum_visible halpha).1, (alphanum_visible halpha).2, ?_⟩
    rintro rfl
    revert halpha
    decide
  · have hmarks : ∀ d ∈ ['-', '_', '.', '!', '~', '*', '\'', '(', ')'], 32 ≤ d.toNat ∧ d.toNat ≠ 127 ∧ d ≠ '?' := by
      decide
    exact hmarks c (of_decide_eq_true hmark)

theorem componentPlain_valid {c : Char} (hc : componentPlain c = true) : validEncoded .path [c] = true := by
  rcases Bool.or_eq_true_iff.mp hc with halpha | hmark
  · have hescape : shouldEscape .path c = false := if_pos halpha
    simp [validEncoded, hescape]
  · have hmarks : ∀ d ∈ ['-', '_', '.', '!', '~', '*', '\'', '(', ')'], validEncoded .path [d] = true := by decide
    exact hmarks c (of_decide_eq_true hmark)

theorem unescape_component (text : List Char) : unescape .path (encodeURIComponent text) = some (Utf8.bytes text) := by
  have h := @unescape_percentEncode componentPlain _ (by decide) (@bytes_lt text) []
  rwa [List.append_nil, unescape, Option.map_some, List.append_nil] at h

/-- A path is passed on as it was given if it is written with the characters of a path. -/
theorem component_inj {s t : List Char} (h : encodeURIComponent s = encodeURIComponent t) : s = t := by
  have hbytes := congrArg (unescape .path) h
  rw [unescape_component, unescape_component, Option.some_inj] at hbytes
  exact Utf8.bytes_inj hbytes

/-- A component that reads as plain text is that text. -/
theorem component_of_mem {t plain : List Char} {written : List (List Char)} (hplain : Utf8.bytes plain = plain)
    (hwritten : ∀ w ∈ written, unescape .path w = some plain) (hmem : encodeURIComponent plain ∈ written) :
    written.contains (encodeURIComponent t) = decide (t = plain) := by
  rw [Bool.eq_iff_iff, List.contains_iff_mem, decide_eq_true_iff]
  constructor
  · intro h
    have hread := hwritten _ h
    rw [unescape_component, Option.some_inj] at hread
    exact Utf8.bytes_inj (hread.trans hplain.symm)
  · intro h
    rwa [h]

theorem isDot_component (t : List Char) : isDot (encodeURIComponent t) = decide (t = ['.']) :=
  component_of_mem (by decide) (by decide) (by decide)

theorem isDots_component (t : List Char) : isDots (encodeURIComponent t) = decide (t = ['.', '.']) :=
  component_of_mem (by decide) (by decide) (by decide)

section Resolve
variable {α β : Type*} {dot dots : α → Bool} {empty : α}

theorem resolve_cons (s : α) {more : List α} (hmore : more ≠ []) (out : List α) :
    resolve dot dots empty out (s :: more) =
      resolve dot dots empty (if dots s then out.dropLast else if dot s then out else out ++ [s]) more := by
  cases more with
  | nil => exact absurd rfl hmore
  | cons t more => rfl

theorem resolve_map (f : β → α) (empty' : β) (hempty : f empty' = empty) (out segments : List β) :
    resolve dot dots empty (out.map f) (segments.map f) =
      (resolve (fun s => dot (f s)) (fun s => dots (f s)) empty' out segments).map f := by
  subst hempty
  induction segments generalizing out with
  | nil => rfl
  | cons s more ih =>
    by_cases hmore : more = []
    · subst hmore
      simp only [List.map_cons, List.map_nil, resolve]
      split
      · rw [List.map_append, List.map_dropLast, List.map_singleton]
      · split <;> rw [List.map_append, List.map_singleton]
    · rw [List.map_cons, resolve_cons _ (by rwa [ne_eq, List.map_eq_nil_iff]), resolve_cons s hmore, ← ih]
      congr 1
      split
      · exact (List.map_dropLast).symm
      · split
        · rfl
        · rw [List.map_append, List.map_singleton]

/-- A path without dots is left as it is. -/
theorem resolve_plain {segments : List α} (h : ∀ s ∈ segments, dot s = false ∧ dots s = false) (out : List α) :
    resolve dot dots empty out segments = out ++ segments := by
  induction segments generalizing out with
  | nil => exact (List.append_nil out).symm
  | cons s more ih =>
    obtain ⟨⟨hdot, hdots⟩, hmore⟩ := List.forall_mem_cons.mp h
    by_cases hnil : more = []
    · subst hnil
      simp only [resolve, hdot, hdots, Bool.false_eq_true, if_false]
    · rw [resolve_cons s hnil, hdot, hdots, if_neg Bool.false_ne_true, if_neg Bool.false_ne_true, ih hmore,
        List.append_assoc, List.singleton_append]

theorem resolve_ne_nil {segments : List α} (h : segments ≠ []) (out : List α) :
    resolve dot dots empty out segments ≠ [] := by
  induction segments generalizing out with
  | nil => exact absurd rfl h
  | cons s more ih =>
    by_cases hnil : more = []
    · subst hnil
      simp only [resolve]
      split
      · exact List.concat_ne_nil _ _
      · split <;> exact List.concat_ne_nil _ _
    · rw [resolve_cons s hnil]
      exact ih hnil _

end Resolve

theorem setPath_escaped {u v : URL} {p : List Char} (hvalid : validEncoded .path ('/' :: p) = true)
    (h : u.setPath ('/' :: p) = some v) : v.EscapedPath = '/' :: p := by
  obtain ⟨path, hpath, rfl⟩ := Option.map_eq_some_iff.mp h
  unfold URL.EscapedPath
  by_cases hescape : escape .path path = '/' :: p
  · have hnot : path ≠ ['*'] := by
      intro hstar
      rw [hstar, show escape .path ['*'] = "%2A".toList by decide] at hescape
      cases hescape
    simp only [hescape, if_true, stands, bne_self_eq_false, Bool.false_and, Bool.false_eq_true, if_false, hnot]
  · have hstands : stands .path ('/' :: p) path = true := by
      rw [stands, hvalid, hpath, beq_self_eq_true]
      rfl
    simp only [if_neg hescape, hstands, if_true]

theorem QueryUnescape_formEncode (text : List Char) : QueryUnescape (formEncode text) = some (Utf8.bytes text) := by
  have hfront : ∀ s : List Char, (∀ c ∈ s, c.toNat < 256) →
      QueryUnescape (s.flatMap fun c => if c = ' ' then ['+'] else percentEncode formPlain [c]) = some s := by
    intro s
    induction s with
    | nil => exact fun _ => rfl
    | cons c s ih =>
      intro hs
      obtain ⟨hc, hs⟩ := List.forall_mem_cons.mp hs
      have hrest := ih hs
      unfold QueryUnescape at hrest ⊢
      rw [List.flatMap_cons, List.map_append]
      split
      · rename_i hspace
        subst hspace
        have hplus : ['+'].map (fun c => if c = '+' then ' ' else c) = [' '] := rfl
        rw [hplus, List.singleton_append, unescape_plain (by decide), hrest]
        rfl
      · have hkeep : (percentEncode formPlain [c]).map (fun c => if c = '+' then ' ' else c) =
            percentEncode formPlain [c] := by
          refine (List.map_congr_left fun d hd => if_neg ?_).trans (List.map_id _)
          rintro rfl
          have hplus := mem_percentEncode (s := [c]) (by simpa using hc) hd
          revert hplus
          decide
        rw [hkeep, unescape_percentEncode (by decide) (by simpa using hc), hrest]
        rfl
  exact hfront _ bytes_lt

/-- The characters of an encoded key or value. -/
theorem mem_formEncode {text : List Char} {c : Char} (hc : c ∈ formEncode text) :
    formPlain c = true ∨ c = '%' ∨ c = '+' := by
  obtain ⟨d, hd, hc⟩ := List.mem_flatMap.mp hc
  split at hc
  · exact .inr (.inr (List.mem_singleton.mp hc))
  · rcases mem_percentEncode (s := [d]) (by simpa using bytes_lt d hd) hc with hplain | hpercent | halpha
    · exact .inl hplain
    · exact .inr (.inl hpercent)
    · exact .inl (by rw [formPlain, halpha, Bool.true_or])

theorem mem_intercalate {α : Type*} {sep a : α} {ls : List (List α)} (h : a ∈ [sep].intercalate ls) :
    a = sep ∨ ∃ l ∈ ls, a ∈ l := by
  induction ls with
  | nil => cases h
  | cons l ls ih =>
    cases ls with
    | nil =>
      rw [List.intercalate_singleton] at h
      exact .inr ⟨l, List.mem_cons_self, h⟩
    | cons l' ls =>
      rw [List.intercalate_cons_cons, List.mem_append, List.mem_append, List.mem_singleton] at h
      rcases h with (h | h) | h
      · exact .inr ⟨l, List.mem_cons_self, h⟩
      · exact .inl h
      · rcases ih h with h | ⟨m, hm, ha⟩
        · exact .inl h
        · exact .inr ⟨m, List.mem_cons_of_mem l hm, ha⟩

theorem query_visible {pairs : List (List Char × List Char)} {c : Char} (hc : c ∈ URLSearchParams pairs) :
    32 ≤ c.toNat ∧ c.toNat ≠ 127 := by
  have hform : ∀ {text : List Char}, c ∈ formEncode text → 32 ≤ c.toNat ∧ c.toNat ≠ 127 := by
    intro text hc
    rcases mem_formEncode hc with hplain | rfl | rfl
    · rcases Bool.or_eq_true_iff.mp hplain with halpha | hmark
      · exact alphanum_visible halpha
      · have hmarks : ∀ d ∈ ['*', '-', '.', '_'], 32 ≤ d.toNat ∧ d.toNat ≠ 127 := by decide
        exact hmarks c (of_decide_eq_true hmark)
    · decide
    · decide
  rcases mem_intercalate hc with rfl | ⟨piece, hpiece, hc⟩
  · decide
  · obtain ⟨p, -, rfl⟩ := List.mem_map.mp hpiece
    rcases List.mem_append.mp hc with hc | hc
    · exact hform hc
    · rcases List.mem_cons.mp hc with rfl | hc
      · decide
      · exact hform hc

/-- **A query is read as the pairs it was written from.** -/
theorem ParseQuery_URLSearchParams (pairs : List (List Char × List Char)) :
    ParseQuery (URLSearchParams pairs) = pairs.map fun p => (Utf8.bytes p.1, Utf8.bytes p.2) := by
  have hnone : ∀ d : Char, formPlain d = false → d ≠ '%' → d ≠ '+' → ∀ text, d ∉ formEncode text := by
    intro d hplain hpercent hplus text hd
    rcases mem_formEncode hd with h | h | h
    · rw [hplain] at h
      cases h
    · exact hpercent h
    · exact hplus h
  have hpiece : ∀ p : List Char × List Char, queryPair (formEncode p.1 ++ '=' :: formEncode p.2) =
      some (Utf8.bytes p.1, Utf8.bytes p.2) := by
    intro p
    have hequals := hnone '=' (by decide) (by decide) (by decide) p.1
    have hsemi : ';' ∉ formEncode p.1 ++ '=' :: formEncode p.2 := by
      have hfirst := hnone ';' (by decide) (by decide) (by decide) p.1
      have hsecond := hnone ';' (by decide) (by decide) (by decide) p.2
      simp [hfirst, hsecond]
    rw [queryPair, if_neg (not_or.mpr ⟨hsemi, by simp⟩), Separator.cut_append hequals]
    simp only [Option.getD_some, QueryUnescape_formEncode]
    rfl
  cases pairs with
  | nil => rfl
  | cons p pairs =>
    have hamp : ∀ l ∈ (p :: pairs).map (fun p => formEncode p.1 ++ '=' :: formEncode p.2), '&' ∉ l := by
      intro l hl
      obtain ⟨q, -, rfl⟩ := List.mem_map.mp hl
      have hfirst := hnone '&' (by decide) (by decide) (by decide) q.1
      have hsecond := hnone '&' (by decide) (by decide) (by decide) q.2
      simp [hfirst, hsecond]
    rw [ParseQuery, URLSearchParams, List.splitOn_intercalate '&' hamp (by simp), List.filterMap_map]
    exact (List.filterMap_congr fun p _ => hpiece p).trans (congrFun List.filterMap_eq_map' _)

theorem URLSearchParams_ne_nil {pairs : List (List Char × List Char)} (h : pairs ≠ []) : URLSearchParams pairs ≠ [] := by
  obtain ⟨p, pairs, rfl⟩ := List.exists_cons_of_ne_nil h
  intro hnil
  have hpairs := ParseQuery_URLSearchParams (p :: pairs)
  rw [hnil] at hpairs
  cases hpairs

end Url
