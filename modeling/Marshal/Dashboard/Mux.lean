import Marshal.Lib.ServeMux

/-! The patterns of the dashboard's multiplexer, and the URLs its page asks for.

The page calls the endpoints by URLs with names in their paths. Of one method no two patterns match the same
path, and all but three handlers are behind a session (`mux_registered`). -/
namespace Marshal.Dashboard
open ServeMux Url

inductive Endpoint where
  | login
  | logout
  | session
  | updateStatus
  | fleet
  | metrics
  | logs
  | logsDownload
  | logstats
  | errors
  | ackError
  | control
  | connectToken
  | apps
  | redeploy
  | listCredentials
  | createCredential
  | deleteCredential
  | getNotifications
  | putChannel
  | deleteChannelHandler
  | testChannel
  | testAll
  | putRule
  | deleteRuleHandler
  | putSettings
  | listDirFiles
  | readFileFiles
  | writeFileFiles
  | deleteFileFiles
  | renameFiles
  | spa
  deriving DecidableEq, Repr

/-- A handler as it is, or behind `requireSession`. -/
inductive HandlerFunc where
  | bare (e : Endpoint)
  | requireSession (e : Endpoint)
  deriving DecidableEq, Repr

def HandlerFunc.guarded : HandlerFunc → Bool
  | bare _ => false
  | requireSession _ => true

/-- What `newHandler` registers. -/
def patterns : List (String × HandlerFunc) := [
  ("POST /api/login", .bare .login),
  ("POST /api/logout", .bare .logout),
  ("GET /api/session", .requireSession .session),
  ("GET /api/update", .requireSession .updateStatus),
  ("GET /api/fleet", .requireSession .fleet),
  ("GET /api/metrics", .requireSession .metrics),
  ("GET /api/logs", .requireSession .logs),
  ("GET /api/logs/download", .requireSession .logsDownload),
  ("GET /api/logstats", .requireSession .logstats),
  ("GET /api/errors", .requireSession .errors),
  ("POST /api/errors/ack", .requireSession .ackError),
  ("POST /api/control", .requireSession .control),
  ("POST /api/fleet/connect-token", .requireSession .connectToken),
  ("POST /api/apps", .requireSession .apps),
  ("POST /api/apps/redeploy", .requireSession .redeploy),
  ("GET /api/credentials", .requireSession .listCredentials),
  ("POST /api/credentials", .requireSession .createCredential),
  ("DELETE /api/credentials/\x7bname\x7d", .requireSession .deleteCredential),
  ("GET /api/notifications", .requireSession .getNotifications),
  ("POST /api/notifications/channels", .requireSession .putChannel),
  ("DELETE /api/notifications/channels/\x7bname\x7d", .requireSession .deleteChannelHandler),
  ("POST /api/notifications/channels/\x7bname\x7d/test", .requireSession .testChannel),
  ("POST /api/notifications/test", .requireSession .testAll),
  ("POST /api/notifications/rules", .requireSession .putRule),
  ("DELETE /api/notifications/rules/\x7bname\x7d", .requireSession .deleteRuleHandler),
  ("PUT /api/notifications/settings", .requireSession .putSettings),
  ("GET /api/fleet/\x7bagent\x7d/apps/\x7bapp\x7d/dir", .requireSession .listDirFiles),
  ("GET /api/fleet/\x7bagent\x7d/apps/\x7bapp\x7d/file", .requireSession .readFileFiles),
  ("PUT /api/fleet/\x7bagent\x7d/apps/\x7bapp\x7d/file", .requireSession .writeFileFiles),
  ("DELETE /api/fleet/\x7bagent\x7d/apps/\x7bapp\x7d/file", .requireSession .deleteFileFiles),
  ("POST /api/fleet/\x7bagent\x7d/apps/\x7bapp\x7d/rename", .requireSession .renameFiles),
  ("/", .bare .spa)]

def routeOf (p : String × HandlerFunc) : Option (Route HandlerFunc) :=
  (parsePattern p.1.toList).map fun m => ⟨m.1, m.2, p.2⟩

def mux : List (Route HandlerFunc) := patterns.filterMap routeOf

/-! ### What the page asks for -/

/-- The functions of the page that put a name into the path. -/
inductive Call where
  | listDir (agent app path : List Char)
  | readFile (agent app path : List Char)
  | fileDownloadURL (agent app path : List Char)
  | writeFile (agent app path : List Char)
  | createFile (agent app path : List Char)
  | deleteFile (agent app path : List Char)
  | renameFile (agent app : List Char)
  | deleteCredential (name : List Char)
  | deleteChannel (name : List Char)
  | testChannel (name : List Char)
  | deleteRule (name : List Char)

def appURL (agent app : List Char) : List Char :=
  "/api/fleet/".toList ++ encodeURIComponent agent ++ "/apps/".toList ++ encodeURIComponent app

namespace Call

def method : Call → List Char
  | listDir .. | readFile .. | fileDownloadURL .. => "GET".toList
  | writeFile .. | createFile .. => "PUT".toList
  | deleteFile .. | deleteCredential _ | deleteChannel _ | deleteRule _ => "DELETE".toList
  | renameFile .. | testChannel _ => "POST".toList

def query : Call → List (List Char × List Char)
  | listDir _ _ path | readFile _ _ path | writeFile _ _ path | deleteFile _ _ path => [("path".toList, path)]
  | fileDownloadURL _ _ path => [("path".toList, path), ("raw".toList, "1".toList)]
  | createFile _ _ path => [("path".toList, path), ("create".toList, "1".toList)]
  | renameFile .. | deleteCredential _ | deleteChannel _ | testChannel _ | deleteRule _ => []

def url : Call → List Char
  | c@(listDir agent app _) => appURL agent app ++ "/dir?".toList ++ URLSearchParams c.query
  | c@(readFile agent app _) | c@(fileDownloadURL agent app _) | c@(writeFile agent app _) | c@(createFile agent app _)
  | c@(deleteFile agent app _) => appURL agent app ++ "/file?".toList ++ URLSearchParams c.query
  | renameFile agent app => appURL agent app ++ "/rename".toList
  | deleteCredential name => "/api/credentials/".toList ++ encodeURIComponent name
  | deleteChannel name => "/api/notifications/channels/".toList ++ encodeURIComponent name
  | testChannel name => "/api/notifications/channels/".toList ++ encodeURIComponent name ++ "/test".toList
  | deleteRule name => "/api/notifications/rules/".toList ++ encodeURIComponent name

/-- What is to be called. -/
def endpoint : Call → Endpoint
  | listDir .. => .listDirFiles
  | readFile .. | fileDownloadURL .. => .readFileFiles
  | writeFile .. | createFile .. => .writeFileFiles
  | deleteFile .. => .deleteFileFiles
  | renameFile .. => .renameFiles
  | deleteCredential _ => .deleteCredential
  | deleteChannel _ => .deleteChannelHandler
  | testChannel _ => .testChannel
  | deleteRule _ => .deleteRuleHandler

def names : Call → List (List Char)
  | listDir agent app _ | readFile agent app _ | fileDownloadURL agent app _ | writeFile agent app _ | createFile agent app _
  | deleteFile agent app _ | renameFile agent app => [agent, app]
  | deleteCredential name | deleteChannel name | testChannel name | deleteRule name => [name]

end Call

/-- A name that a path can carry. -/
def Carried (name : List Char) : Prop := name ∉ [[], ['.'], ['.', '.'], ['/']]

instance (name : List Char) : Decidable (Carried name) := inferInstanceAs (Decidable (_ ∉ _))

theorem carried_iff {name : List Char} : Carried name ↔ name ∉ [[], ['.'], ['.', '.']] ∧ name ≠ ['/'] := by
  have hsplit : [[], ['.'], ['.', '.'], ['/']] = [[], ['.'], ['.', '.']] ++ [['/']] := rfl
  rw [Carried, hsplit, List.mem_append, List.mem_singleton, not_or]

/-! ### The parts of a call -/

namespace Call

/-- The names of the path, up to the last, and the last. -/
def front : Call → List (List Char)
  | listDir agent app _ | readFile agent app _ | fileDownloadURL agent app _ | writeFile agent app _ | createFile agent app _
  | deleteFile agent app _ | renameFile agent app => ["api".toList, "fleet".toList, agent, "apps".toList, app]
  | deleteCredential _ => ["api".toList, "credentials".toList]
  | deleteChannel _ => ["api".toList, "notifications".toList, "channels".toList]
  | testChannel name => ["api".toList, "notifications".toList, "channels".toList, name]
  | deleteRule _ => ["api".toList, "notifications".toList, "rules".toList]

def last : Call → List Char
  | listDir .. => "dir".toList
  | readFile .. | fileDownloadURL .. | writeFile .. | createFile .. | deleteFile .. => "file".toList
  | renameFile .. => "rename".toList
  | testChannel _ => "test".toList
  | deleteCredential name | deleteChannel name | deleteRule name => name

def pattern : Call → List Segment
  | c@(listDir ..) | c@(readFile ..) | c@(fileDownloadURL ..) | c@(writeFile ..) | c@(createFile ..) | c@(deleteFile ..)
  | c@(renameFile ..) =>
    [.literal "api".toList, .literal "fleet".toList, .wild, .literal "apps".toList, .wild, .literal c.last]
  | deleteCredential _ => [.literal "api".toList, .literal "credentials".toList, .wild]
  | deleteChannel _ => [.literal "api".toList, .literal "notifications".toList, .literal "channels".toList, .wild]
  | testChannel _ =>
    [.literal "api".toList, .literal "notifications".toList, .literal "channels".toList, .wild, .literal "test".toList]
  | deleteRule _ => [.literal "api".toList, .literal "notifications".toList, .literal "rules".toList, .wild]

def route (c : Call) : Route HandlerFunc := ⟨c.method, c.pattern, .requireSession c.endpoint⟩

end Call

/-! ### The multiplexer -/

def methods : List (List Char) := ["GET".toList, "POST".toList, "PUT".toList, "DELETE".toList]

def pageRoute : Route HandlerFunc := ⟨[], [.rest], .bare .spa⟩

/-- A call of each function, with nothing in it. -/
def callRoutes : List (Route HandlerFunc) := [Call.route (.listDir [] [] []), Call.route (.readFile [] [] []),
  Call.route (.fileDownloadURL [] [] []), Call.route (.writeFile [] [] []), Call.route (.createFile [] [] []),
  Call.route (.deleteFile [] [] []), Call.route (.renameFile [] []), Call.route (.deleteCredential []),
  Call.route (.deleteChannel []), Call.route (.testChannel []), Call.route (.deleteRule [])]

/-- Every pattern is read; of one method no two match the same path, and none matches a slash of its own; and
what is registered for any method is the page. The calls have routes, and all but three handlers are behind
a session. -/
structure Registered (routes : List (Route HandlerFunc)) : Prop where
  length : routes.length = patterns.length
  apart : ∀ method ∈ methods, Apart (table routes method)
  plain : ∀ method ∈ methods, ∀ e ∈ table routes method, .literal ['/'] ∉ e.1 ∧ .rest ∉ e.1
  rest : table routes [] = [([.rest], pageRoute)]
  calls : ∀ r ∈ callRoutes, r ∈ routes
  bare : ∀ r ∈ routes, r.handler.guarded = true ∨ r.handler ∈ [.bare .login, .bare .logout, .bare .spa]

instance (routes : List (Route HandlerFunc)) : Decidable (Registered routes) :=
  decidable_of_iff (routes.length = patterns.length ∧ (∀ method ∈ methods, Apart (table routes method)) ∧
      (∀ method ∈ methods, ∀ e ∈ table routes method, .literal ['/'] ∉ e.1 ∧ .rest ∉ e.1) ∧
      table routes [] = [([.rest], pageRoute)] ∧ (∀ r ∈ callRoutes, r ∈ routes) ∧
      ∀ r ∈ routes, r.handler.guarded = true ∨ r.handler ∈ [.bare .login, .bare .logout, .bare .spa])
    ⟨fun h => ⟨h.1, h.2.1, h.2.2.1, h.2.2.2.1, h.2.2.2.2.1, h.2.2.2.2.2⟩,
      fun h => ⟨h.length, h.apart, h.plain, h.rest, h.calls, h.bare⟩⟩

/-- The patterns, character by character. -/
inductive Spelled : List (String × HandlerFunc) → List (List Char × HandlerFunc) → Prop
  | nil : Spelled [] []
  | cons {s : String} {l : List Char} {h : HandlerFunc} {ps : List (String × HandlerFunc)}
      {ts : List (List Char × HandlerFunc)} (hs : s.toList = l) (hps : Spelled ps ts) :
      Spelled ((s, h) :: ps) ((l, h) :: ts)

theorem Spelled.routes {ps : List (String × HandlerFunc)} {ts : List (List Char × HandlerFunc)} (h : Spelled ps ts) :
    ps.filterMap routeOf = ts.filterMap fun t => (parsePattern t.1).map fun m => ⟨m.1, m.2, t.2⟩ := by
  induction h with
  | nil => rfl
  | @cons s l h ps ts hs hps ih =>
    have htext : routeOf (s, h) = (parsePattern l).map fun m => ⟨m.1, m.2, h⟩ := by rw [routeOf, hs]
    rw [List.filterMap_cons, List.filterMap_cons, ih, htext]

theorem mux_registered : Registered mux := by
  -- strings are spelled first, which is not the kernel's work
  have hspelled : ∃ texts, Spelled patterns texts ∧
      Registered (texts.filterMap fun t => (parsePattern t.1).map fun m => ⟨m.1, m.2, t.2⟩) := by
    constructor
    constructor
    · unfold patterns
      repeat apply Spelled.cons String.toList_ofList
      exact .nil
    · decide +kernel
  obtain ⟨texts, hspelled, hregistered⟩ := hspelled
  rwa [mux, hspelled.routes]

/-! ### Words -/

/-- The words of the routes are written as they are. -/
theorem words_plain : ∀ w ∈ ["api", "fleet", "apps", "dir", "file", "rename", "credentials", "notifications", "channels",
    "rules", "test"].map String.toList, encodeURIComponent w = w ∧ Utf8.bytes w = w ∧ Carried w := by
  decide +kernel

/-- What the page writes around the names. -/
theorem written : "/api/fleet/".toList = pathOf ["api".toList, "fleet".toList] ++ ['/'] ∧
    "/apps/".toList = '/' :: encodeURIComponent "apps".toList ++ ['/'] ∧
    "/dir?".toList = '/' :: encodeURIComponent "dir".toList ++ ['?'] ∧
    "/file?".toList = '/' :: encodeURIComponent "file".toList ++ ['?'] ∧
    "/rename".toList = '/' :: encodeURIComponent "rename".toList ∧
    "/test".toList = '/' :: encodeURIComponent "test".toList ∧
    "/api/credentials/".toList = pathOf ["api".toList, "credentials".toList] ++ ['/'] ∧
    "/api/notifications/channels/".toList =
      pathOf ["api".toList, "notifications".toList, "channels".toList] ++ ['/'] ∧
    "/api/notifications/rules/".toList = pathOf ["api".toList, "notifications".toList, "rules".toList] ++ ['/'] := by
  decide +kernel

end Marshal.Dashboard
