import Marshal.Config
import Marshal.Dashboard.Mux
import Marshal.Dashboard.Stamps

/-! The dashboard's routes.

Every endpoint but logging in and out is behind a session, and the page's own routes are what is left over.
The page calls the endpoints by URLs with names in their paths; a name arrives as it is unless it is
empty, a dot or two, or a single slash (`call_served`). -/
namespace Marshal.Dashboard
open ServeMux Url

/-! ### Requests -/

structure Incoming where
  method : List Char
  target : List Char
  cookie : Option String

inductive Served where
  | badRequest
  | redirected
  | unauthorized
  | notFound
  /-- A file of the page, or the page itself. -/
  | page
  /-- The endpoint is called: by whom, with the names in its path and with the pairs of the query. -/
  | called (user : Option String) (e : Endpoint) (names : List (List Char)) (query : List (List Char × List Char))
  deriving DecidableEq, Repr

variable (hash : String → String)

/-- The user of a cookie, as `requireSession` finds it. -/
def Handler.requireSession (d : Handler) (cookie : Option String) : Option String := do
  let tok ← cookie
  let (user, stamp) ← (d.sessions.store.validate hash d.sessions.now tok).2
  if (d.auth.stores .server).data.DashboardCredentialStamp hash user = some stamp then some user else none

/-- Unknown paths of the interface are not the page. -/
def spa (u : URL) : Served := if "/api/".toList <+: u.Path then .notFound else .page

def Handler.serve (d : Handler) (q : Incoming) : Served :=
  match ParseRequestURI q.target with
  | none => .badRequest
  | some u => match findHandler mux q.method u.EscapedPath with
    | .redirect => .redirected
    | .unmatched => .notFound
    | .handled (.bare .spa) _ => spa u
    | .handled (.bare e) names => .called none e names (ParseQuery u.RawQuery)
    | .handled (.requireSession e) names => match d.requireSession hash q.cookie with
      | none => .unauthorized
      | some user => .called (some user) e names (ParseQuery u.RawQuery)

/-- What a browser sends for a call. -/
def Call.request (c : Call) (cookie : Option String) : Incoming := ⟨c.method, requestTarget c.url, cookie⟩

/-- The names that the stores and the configuration admit. -/
theorem carried_valid {name : String} (h : Config.validAppName name = true) : Carried name.toList := by
  unfold Config.validAppName at h
  split at h
  · cases h
  · rename_i c rest hname
    have hc := (Bool.and_eq_true_iff.mp h).1
    rw [hname, Carried]
    simp only [List.mem_cons, List.cons.injEq, reduceCtorEq, List.not_mem_nil, or_false, false_or, not_or, not_and]
    refine ⟨?_, ?_, ?_⟩
    · rintro rfl
      cases hc
    · rintro rfl
      cases hc
    · rintro rfl
      cases hc

/-- A slash of its own leads to the page. -/
theorem find_slash {method path : List Char} (hmethod : method ∈ methods) (hslash : ['/'] ∈ segments path) :
    find mux method path = some (pageRoute, []) := by
  have hhead : method ≠ "HEAD".toList := by
    intro h
    rw [h] at hmethod
    revert hmethod
    decide
  obtain ⟨s, more, hcons⟩ := List.exists_cons_of_ne_nil (List.ne_nil_of_mem hslash)
  rw [find, search_slash (mux_registered.plain method hmethod) hslash, if_neg hhead, mux_registered.rest, hcons,
    Option.none_or, Option.none_or, search_rest]

/-! ### Paths -/

theorem pathOf_concat (front : List (List Char)) (last : List Char) :
    pathOf (front ++ [last]) = pathOf front ++ '/' :: encodeURIComponent last := by
  rw [pathOf, List.flatMap_append, List.flatMap_singleton, ← pathOf]

theorem appURL_eq (agent app : List Char) :
    appURL agent app = pathOf (["api".toList, "fleet".toList, agent, "apps".toList] ++ [app]) := by
  obtain ⟨hfront, hmiddle, -⟩ := written
  show appURL agent app = pathOf (["api".toList, "fleet".toList] ++ [agent] ++ ["apps".toList] ++ [app])
  rw [pathOf_concat, pathOf_concat, pathOf_concat]
  unfold appURL
  simp only [hfront, hmiddle, List.append_assoc, List.cons_append, List.nil_append]

/-- The query follows the path behind a question mark. -/
theorem queried (path word : List Char) {pairs : List (List Char × List Char)} (hpairs : pairs ≠ []) :
    path ++ (word ++ ['?']) ++ URLSearchParams pairs =
      path ++ word ++ if pairs = [] then [] else '?' :: URLSearchParams pairs := by
  rw [if_neg hpairs, List.append_assoc, List.append_assoc, List.append_assoc, List.singleton_append]

variable (c : Call)

theorem url_eq : c.url =
    pathOf (c.front ++ [c.last]) ++ if c.query = [] then [] else '?' :: URLSearchParams c.query := by
  obtain ⟨-, -, hdir, hfile, hrename, htest, hcredentials, hchannels, hrules⟩ := written
  cases c with
  | listDir agent app path =>
    show appURL agent app ++ "/dir?".toList ++ URLSearchParams (Call.query (.listDir agent app path)) = _
    simp only [hdir, appURL_eq]
    rw [pathOf_concat (Call.front _)]
    exact queried _ _ (List.cons_ne_nil _ _)
  | readFile agent app path | writeFile agent app path | deleteFile agent app path | fileDownloadURL agent app path
  | createFile agent app path =>
    show appURL agent app ++ "/file?".toList ++ URLSearchParams _ = _
    simp only [hfile, appURL_eq]
    rw [pathOf_concat (Call.front _)]
    exact queried _ _ (List.cons_ne_nil _ _)
  | renameFile agent app =>
    show appURL agent app ++ "/rename".toList = _
    simp only [hrename, appURL_eq]
    rw [pathOf_concat (Call.front _)]
    exact (List.append_nil _).symm
  | deleteCredential name =>
    show "/api/credentials/".toList ++ _ = _
    simp only [hcredentials, List.append_assoc, List.singleton_append]
    rw [pathOf_concat]
    exact (List.append_nil _).symm
  | deleteChannel name =>
    show "/api/notifications/channels/".toList ++ _ = _
    simp only [hchannels, List.append_assoc, List.singleton_append]
    rw [pathOf_concat]
    exact (List.append_nil _).symm
  | testChannel name =>
    show "/api/notifications/channels/".toList ++ encodeURIComponent name ++ "/test".toList =
      pathOf (["api".toList, "notifications".toList, "channels".toList] ++ [name] ++ ["test".toList]) ++ []
    rw [pathOf_concat, pathOf_concat, List.append_nil]
    simp only [hchannels, htest, List.append_assoc, List.cons_append, List.nil_append]
  | deleteRule name =>
    show "/api/notifications/rules/".toList ++ _ = _
    simp only [hrules, List.append_assoc, List.singleton_append]
    rw [pathOf_concat]
    exact (List.append_nil _).symm

/-! ### What a call meets -/

theorem route_mem_calls : c.route ∈ callRoutes := by
  have hget : ∀ i (h : i < 11), callRoutes.get ⟨i, h⟩ ∈ callRoutes := fun i h => List.get_mem callRoutes ⟨i, h⟩
  cases c with
  | listDir agent app path => exact hget 0 (by decide)
  | readFile agent app path => exact hget 1 (by decide)
  | fileDownloadURL agent app path => exact hget 2 (by decide)
  | writeFile agent app path => exact hget 3 (by decide)
  | createFile agent app path => exact hget 4 (by decide)
  | deleteFile agent app path => exact hget 5 (by decide)
  | renameFile agent app => exact hget 6 (by decide)
  | deleteCredential name => exact hget 7 (by decide)
  | deleteChannel name => exact hget 8 (by decide)
  | testChannel name => exact hget 9 (by decide)
  | deleteRule name => exact hget 10 (by decide)

theorem route_mem : c.route ∈ mux := mux_registered.calls c.route (route_mem_calls c)

theorem method_mem : c.method ∈ methods := by
  have hget : "GET".toList ∈ methods := by decide
  have hpost : "POST".toList ∈ methods := by decide
  have hput : "PUT".toList ∈ methods := by decide
  have hdelete : "DELETE".toList ∈ methods := by decide
  cases c with
  | listDir agent app path | readFile agent app path | fileDownloadURL agent app path => exact hget
  | writeFile agent app path | createFile agent app path => exact hput
  | deleteFile agent app path | deleteCredential name | deleteChannel name | deleteRule name => exact hdelete
  | renameFile agent app | testChannel name => exact hpost

theorem method_connect {method : List Char} (h : method ∈ methods) : method ≠ "CONNECT".toList := by
  intro heq
  rw [heq] at h
  revert h
  decide

theorem bytes_slash {name : List Char} : Utf8.bytes name = ['/'] ↔ name = ['/'] := by
  have hslash : Utf8.bytes ['/'] = ['/'] := by decide
  constructor
  · intro h
    exact Utf8.bytes_inj (h.trans hslash.symm)
  · intro h
    rw [h, hslash]

/-- Where no name is a slash the path matches the route of the call, with its names for the wildcards. -/
theorem matches_route (h : ∀ n ∈ c.names, n ≠ ['/']) :
    Matches c.pattern ((c.front ++ [c.last]).map Utf8.bytes) (c.names.map Utf8.bytes) := by
  have hwords := words_plain
  simp only [List.map_cons, List.map_nil, List.forall_mem_cons, List.not_mem_nil, false_imp_iff, implies_true, and_true]
    at hwords
  obtain ⟨hapi, hfleet, happs, hdir, hfile, hrename, hcredentials, hnotifications, hchannels, hrules, htest⟩ := hwords
  have hwild : ∀ n ∈ c.names, Utf8.bytes n ≠ ['/'] := fun n hn heq => h n hn (bytes_slash.mp heq)
  have happ : ∀ agent app verb : List Char, Utf8.bytes agent ≠ ['/'] → Utf8.bytes app ≠ ['/'] →
      Utf8.bytes verb = verb →
      Matches [.literal "api".toList, .literal "fleet".toList, .wild, .literal "apps".toList, .wild, .literal verb]
        (["api".toList, "fleet".toList, agent, "apps".toList, app, verb].map Utf8.bytes)
        ([agent, app].map Utf8.bytes) := by
    intro agent app verb hagent happ hverb
    simp only [List.map_cons, List.map_nil, hapi.2.1, hfleet.2.1, happs.2.1, hverb]
    exact .literal (.literal (.wild hagent (.literal (.wild happ (.literal .done)))))
  cases c with
  | listDir agent app path =>
    exact happ agent app _ (hwild _ (by simp [Call.names])) (hwild _ (by simp [Call.names])) hdir.2.1
  | readFile agent app path | fileDownloadURL agent app path | writeFile agent app path | createFile agent app path
  | deleteFile agent app path =>
    exact happ agent app _ (hwild _ (by simp [Call.names])) (hwild _ (by simp [Call.names])) hfile.2.1
  | renameFile agent app =>
    exact happ agent app _ (hwild _ (by simp [Call.names])) (hwild _ (by simp [Call.names])) hrename.2.1
  | deleteCredential name =>
    have hname := hwild name (by simp [Call.names])
    show Matches _ (["api".toList, "credentials".toList, name].map Utf8.bytes) ([name].map Utf8.bytes)
    simp only [List.map_cons, List.map_nil, hapi.2.1, hcredentials.2.1]
    exact .literal (.literal (.wild hname .done))
  | deleteChannel name =>
    have hname := hwild name (by simp [Call.names])
    show Matches _ (["api".toList, "notifications".toList, "channels".toList, name].map Utf8.bytes)
      ([name].map Utf8.bytes)
    simp only [List.map_cons, List.map_nil, hapi.2.1, hnotifications.2.1, hchannels.2.1]
    exact .literal (.literal (.literal (.wild hname .done)))
  | testChannel name =>
    have hname := hwild name (by simp [Call.names])
    show Matches _ (["api".toList, "notifications".toList, "channels".toList, name, "test".toList].map Utf8.bytes)
      ([name].map Utf8.bytes)
    simp only [List.map_cons, List.map_nil, hapi.2.1, hnotifications.2.1, hchannels.2.1, htest.2.1]
    exact .literal (.literal (.literal (.wild hname (.literal .done))))
  | deleteRule name =>
    have hname := hwild name (by simp [Call.names])
    show Matches _ (["api".toList, "notifications".toList, "rules".toList, name].map Utf8.bytes)
      ([name].map Utf8.bytes)
    simp only [List.map_cons, List.map_nil, hapi.2.1, hnotifications.2.1, hrules.2.1]
    exact .literal (.literal (.literal (.wild hname .done)))

theorem names_mem {n : List Char} (h : n ∈ c.names) : n ∈ c.front ++ [c.last] := by
  cases c with
  | listDir agent app path | readFile agent app path | fileDownloadURL agent app path | writeFile agent app path
  | createFile agent app path | deleteFile agent app path | renameFile agent app =>
    simp only [Call.names, List.mem_cons, List.not_mem_nil, or_false] at h
    rcases h with rfl | rfl
    · simp [Call.front]
    · simp [Call.front]
  | deleteCredential name | deleteChannel name | deleteRule name =>
    rw [List.mem_singleton.mp h]
    exact List.mem_append_right _ (List.mem_singleton.mpr rfl)
  | testChannel name =>
    rw [List.mem_singleton.mp h]
    simp [Call.front]

/-- What is not a name is a word of the routes. -/
theorem carried_of_names (h : ∀ n ∈ c.names, Carried n) : ∀ t ∈ c.front ++ [c.last], Carried t := by
  have hwords : ∀ w ∈ ["api", "fleet", "apps", "dir", "file", "rename", "credentials", "notifications", "channels", "rules",
      "test"].map String.toList, Carried w := fun w hw => (words_plain w hw).2.2
  simp only [List.map_cons, List.map_nil, List.forall_mem_cons, List.not_mem_nil, false_imp_iff, implies_true, and_true]
    at hwords
  obtain ⟨hapi, hfleet, happs, hdir, hfile, hrename, hcredentials, hnotifications, hchannels, hrules, htest⟩ := hwords
  have hname : ∀ {n : List Char}, n ∈ c.names → Carried n := fun hn => h _ hn
  have happ : ∀ agent app verb : List Char, Carried agent → Carried app → Carried verb →
      ∀ t ∈ ["api".toList, "fleet".toList, agent, "apps".toList, app, verb], Carried t := by
    intro agent app verb hagent happ hverb
    simp only [List.forall_mem_cons, List.not_mem_nil, false_imp_iff, implies_true, and_true]
    exact ⟨hapi, hfleet, hagent, happs, happ, hverb⟩
  have hnamed : ∀ kind name : List Char, Carried kind → Carried name →
      ∀ t ∈ ["api".toList, "notifications".toList, kind, name], Carried t := by
    intro kind name hkind hname
    simp only [List.forall_mem_cons, List.not_mem_nil, false_imp_iff, implies_true, and_true]
    exact ⟨hapi, hnotifications, hkind, hname⟩
  cases c with
  | listDir agent app path => exact happ agent app _ (hname (by simp [Call.names])) (hname (by simp [Call.names])) hdir
  | readFile agent app path | fileDownloadURL agent app path | writeFile agent app path | createFile agent app path
  | deleteFile agent app path =>
    exact happ agent app _ (hname (by simp [Call.names])) (hname (by simp [Call.names])) hfile
  | renameFile agent app => exact happ agent app _ (hname (by simp [Call.names])) (hname (by simp [Call.names])) hrename
  | deleteCredential name =>
    show ∀ t ∈ ["api".toList, "credentials".toList, name], Carried t
    simp only [List.forall_mem_cons, List.not_mem_nil, false_imp_iff, implies_true, and_true]
    exact ⟨hapi, hcredentials, hname (by simp [Call.names])⟩
  | deleteChannel name => exact hnamed _ name hchannels (hname (by simp [Call.names]))
  | deleteRule name => exact hnamed _ name hrules (hname (by simp [Call.names]))
  | testChannel name =>
    intro t ht
    rcases List.mem_append.mp ht with ht | ht
    · exact hnamed _ name hchannels (hname (by simp [Call.names])) t ht
    · rw [List.mem_singleton.mp ht]
      exact htest

theorem route_plain : c.route.segments.getLast? ≠ some .rest := by
  have hplain := (mux_registered.plain c.method (method_mem c) _ (mem_table (route_mem c))).2
  exact fun h => hplain (List.mem_of_getLast? h)

/-- A call with names that a path carries is handled, with its names. -/
theorem findHandler_call (h : ∀ t ∈ c.front ++ [c.last], Carried t) :
    findHandler mux c.method (pathOf (c.front ++ [c.last])) =
      .handled (.requireSession c.endpoint) (c.names.map Utf8.bytes) := by
  have hordinary : ∀ t ∈ c.front ++ [c.last], t ∉ [[], ['.'], ['.', '.']] := fun t ht => (carried_iff.mp (h t ht)).1
  have hlast : c.last ≠ [] := fun hnil => hordinary c.last (by simp) (by rw [hnil]; exact List.mem_cons_self)
  have hnames : ∀ n ∈ c.names, n ≠ ['/'] := fun n hn => (carried_iff.mp (h n (names_mem c hn))).2
  have hmatches := matches_route c hnames
  rw [← @segments_pathOf c.front c.last hlast] at hmatches
  have happart := mux_registered.apart c.method (method_mem c)
  exact @findHandler_eq _ _ c.route _ happart (route_mem c) (method_connect (method_mem c)) (route_plain c) _
    ((cleanPath_pathOf hlast).mpr hordinary) hmatches

/-- Whatever a path is made of, what it calls behind a session is called with names that a path carries. -/
theorem handled_carried {method : List Char} (hmethod : method ∈ methods) {texts values : List (List Char)}
    (hne : texts ≠ []) {e : Endpoint}
    (h : findHandler mux method (pathOf texts) = .handled (.requireSession e) values) :
    ∀ v ∈ values, ∃ t, v = Utf8.bytes t ∧ Carried t := by
  obtain ⟨hclean, r, hhandler, hfind⟩ := findHandler_sound h
  obtain ⟨front, last, rfl⟩ := (List.eq_nil_or_concat' texts).resolve_left hne
  have hlast : last ≠ [] := by
    -- a slash at the end is not a name, and leads to the page
    intro hlast
    have hslash := slash_mem_segments (pathOf front)
    have hpath : pathOf (front ++ [last]) = pathOf front ++ ['/'] := by
      rw [hlast]
      exact pathOf_concat front []
    rw [← hpath] at hslash
    rw [find_slash hmethod hslash] at hfind
    cases hfind
    cases hhandler
  have hordinary := (cleanPath_pathOf hlast).mp (hclean (method_connect hmethod))
  intro v hv
  obtain ⟨hmem, hv⟩ := (find_sound hfind).2.values_mem v hv
  rw [segments_pathOf hlast] at hmem
  obtain ⟨t, ht, rfl⟩ := List.mem_map.mp hmem
  exact ⟨t, rfl, carried_iff.mpr ⟨hordinary t ht, fun heq => hv (bytes_slash.mpr heq)⟩⟩

theorem front_ne (c : Call) : c.front ++ [c.last] ≠ [] := List.concat_ne_nil _ _

/-- What the server reads of a call. -/
theorem parsed : ∃ u, ParseRequestURI (requestTarget c.url) = some u ∧
    u.EscapedPath = pathOf (resolved (c.front ++ [c.last])) ∧
    ParseQuery u.RawQuery = c.query.map fun p => (Utf8.bytes p.1, Utf8.bytes p.2) := by
  obtain ⟨u, hparse, hescaped, -, hquery⟩ := ParseRequestURI_pathOf (resolve_ne_nil (front_ne c) []) c.query
  rw [url_eq, requestTarget_pathOf (front_ne c)]
  exact ⟨u, hparse, hescaped, hquery⟩

theorem resolved_carried {texts : List (List Char)} (h : ∀ t ∈ texts, Carried t) : resolved texts = texts := by
  have hplain : ∀ t ∈ texts, decide (t = ['.']) = false ∧ decide (t = ['.', '.']) = false := by
    intro t ht
    have hcarried := (carried_iff.mp (h t ht)).1
    simp only [List.mem_cons, List.not_mem_nil, or_false, not_or] at hcarried
    exact ⟨decide_eq_false hcarried.2.1, decide_eq_false hcarried.2.2⟩
  exact resolve_plain hplain []

variable {hash : String → String} (d : Handler) (cookie : Option String)

theorem served_carried (h : ∀ n ∈ c.names, Carried n) : d.serve hash (c.request cookie) =
    match d.requireSession hash cookie with
    | none => .unauthorized
    | some user => .called (some user) c.endpoint (c.names.map Utf8.bytes)
        (c.query.map fun p => (Utf8.bytes p.1, Utf8.bytes p.2)) := by
  have hcarried := carried_of_names c h
  obtain ⟨u, hparse, hescaped, hquery⟩ := parsed c
  rw [resolved_carried hcarried] at hescaped
  unfold Handler.serve Call.request
  simp only [hparse, hescaped, findHandler_call c hcarried, hquery]

/-- **A call of the page, as a browser sends it, calls its endpoint for a user with the names and the query it was
made with, exactly when the session of the cookie is this user's and no name is empty, a dot or two, or a
single slash.** -/
theorem call_served (user : String) :
    d.serve hash (c.request cookie) = .called (some user) c.endpoint (c.names.map Utf8.bytes)
        (c.query.map fun p => (Utf8.bytes p.1, Utf8.bytes p.2)) ↔
      (∀ n ∈ c.names, Carried n) ∧ d.requireSession hash cookie = some user := by
  constructor
  · intro h
    have hnames : ∀ n ∈ c.names, Carried n := by
      obtain ⟨u, hparse, hescaped, -⟩ := parsed c
      unfold Handler.serve Call.request at h
      simp only [hparse, hescaped] at h
      split at h
      · cases h
      · cases h
      · unfold spa at h
        split at h <;> cases h
      · cases h
      · rename_i e values hfound
        have hvalues : values = c.names.map Utf8.bytes := by
          split at h
          · cases h
          · injection h
        intro n hn
        have hmem : Utf8.bytes n ∈ values := by
          rw [hvalues]
          exact List.mem_map_of_mem hn
        obtain ⟨t, hbytes, ht⟩ := handled_carried (method_mem c) (resolve_ne_nil (front_ne c) []) hfound _ hmem
        rwa [Utf8.bytes_inj hbytes]
    rw [served_carried c d cookie hnames] at h
    split at h
    · cases h
    · injection h with huser
      exact ⟨hnames, huser ▸ ‹_›⟩
  · intro h
    rw [served_carried c d cookie h.1, h.2]

/-! ### Who is served -/

section Served
variable {cr : Server.Crypto} {e : Handler} {q : Incoming} {user : Option String} {endpoint : Endpoint}
  {names : List (List Char)} {pairs : List (List Char × List Char)}

/-- An endpoint is called for a session, unless it is one of the two that need none. -/
theorem called_cases (h : e.serve hash q = .called user endpoint names pairs) :
    (endpoint = .login ∨ endpoint = .logout) ∧ user = none ∨
      ∃ u, user = some u ∧ e.requireSession hash q.cookie = some u := by
  unfold Handler.serve at h
  split at h
  · cases h
  rename_i url hparse
  split at h
  · cases h
  · cases h
  · unfold spa at h
    split at h <;> cases h
  · rename_i bare values hpage hfound
    obtain ⟨-, r, hhandler, hfind⟩ := findHandler_sound hfound
    have hr := (find_sound hfind).1
    cases h
    rcases mux_registered.bare r hr with hguarded | hbare
    · rw [hhandler] at hguarded
      cases hguarded
    · rw [hhandler] at hbare
      simp only [List.mem_cons, HandlerFunc.bare.injEq, List.not_mem_nil, or_false] at hbare
      rcases hbare with rfl | rfl | rfl
      · exact .inl ⟨.inl rfl, rfl⟩
      · exact .inl ⟨.inr rfl, rfl⟩
      · exact absurd rfl hpage
  · split at h
    · cases h
    · rename_i u hsession
      cases h
      exact .inr ⟨u, rfl, hsession⟩

/-- A session in force is in the store, with the stamp of its user's record. -/
theorem session_some {u : String} (h : e.requireSession hash q.cookie = some u) :
    ∃ tok sess record, q.cookie = some tok ∧ e.sessions.store.m.get (hash tok) = some sess ∧ sess.user = u ∧
      (e.auth.stores .server).data.users.get u = some record ∧ record.stamp hash = sess.stamp := by
  obtain ⟨tok, hcookie, h⟩ := Option.bind_eq_some_iff.mp h
  obtain ⟨⟨user, stamp⟩, hvalidate, h⟩ := Option.bind_eq_some_iff.mp h
  dsimp only at h
  by_cases hstamp : (e.auth.stores .server).data.DashboardCredentialStamp hash user = some stamp
  · rw [if_pos hstamp] at h
    cases h
    obtain ⟨record, hrecord, hrecordStamp⟩ := Option.map_eq_some_iff.mp hstamp
    unfold SessionStore.validate at hvalidate
    split at hvalidate
    · cases hvalidate
    · rename_i sess hsess
      split at hvalidate
      · cases hvalidate
        exact ⟨tok, sess, record, hcookie, hsess, rfl, hrecord, hrecordStamp⟩
      · cases hvalidate
  · rw [if_neg hstamp] at h
    cases h

/-- The page of one who is logged in. -/
def listing : Call := .listDir "east".toList "web".toList []

end Served

end Marshal.Dashboard
