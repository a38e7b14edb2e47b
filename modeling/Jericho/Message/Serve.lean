import Jericho.Controller.Auth
import Jericho.Server.StaticFiles

/-! `Bifrost::serve`: from a parsed request to what is written to the client. -/
namespace Jericho.Message
open StdText Util Server

/-- `authenticate` -/
def authenticate (req : Request) : Bool :=
  req.arg (lit "username") = lit "joey" && req.arg (lit "password") = lit "pass1234"

/-- The cookie object built from the `Cookie` header: a single cookie whose name has a prefix
ended by a dash. -/
def requestCookie (prizm : Prizm) (req : Request) : Option Cookie :=
  let cookieHeader := req.header (lit "Cookie")
  if cookieHeader = lit "undefined" then none
  else if 1 < (prizm.tokenizeStr cookieHeader (lit "; ")).length then none
  else
    match Occurrence.find (lit "-") cookieHeader with
    | none => none
    | some p =>
      let cook := cookieHeader.drop (p + 1)
      match Occurrence.find (lit "=") cook with
      | none => none
      | some q => some (Cookie.ofRequest req.client.address (cook.take q) (cook.drop (q + 1)))

/-- A cookie is built from what follows the first dash, at the first equals sign there. -/
theorem requestCookie_eq_some {prizm : Prizm} {req : Request} {cookie : Cookie}
    (h : requestCookie prizm req = some cookie) :
    ∃ pre key val, req.header (lit "Cookie") = pre ++ lit "-" ++ (key ++ lit "=" ++ val) ∧
      cookie = Cookie.ofRequest req.client.address key val := by
  unfold requestCookie at h
  dsimp only at h
  split_ifs at h
  cases hp : Occurrence.find (lit "-") (req.header (lit "Cookie")) with
  | none => simp [hp] at h
  | some p =>
    rw [hp] at h
    dsimp only at h
    cases hq : Occurrence.find (lit "=") ((req.header (lit "Cookie")).drop (p + 1)) with
    | none => simp [hq] at h
    | some q =>
      rw [hq] at h
      have hcook := Occurrence.find_split hq
      have hheader := Occurrence.find_split hp
      have hdash : (lit "-").length = 1 := rfl
      rw [hdash, hcook] at hheader
      exact ⟨_, _, _, hheader, (Option.some.inj h).symm⟩

/-- The session of a request, and the sessions `verify` leaves. -/
def findSession (prizm : Prizm) (now : Int) (sm : SessionManager) (req : Request) : Option Session × SessionManager :=
  match requestCookie prizm req with
  | none => (none, sm)
  | some cookie => SessionManager.verify now cookie sm

/-- The parts of a running node that serving reads. `stack` is what lies behind the array that
`Response::generate` reads past. -/
structure Node (σ : Type) where
  prizm : Prizm
  files : Files
  publicDirectory : Bytes
  router : Router σ
  stack : Bytes := []

/-- The state after serving, and what was written and called on the way. -/
structure Served (σ : Type) where
  system : System σ
  request : Request
  events : List Event

variable {σ : Type} (node : Node σ)

/-- The events of a route function: that it ran, and what it wrote. -/
def callEvents (path : Bytes) (sent : List Bytes) : List Event := .callback path :: sent.map .raw

/-- `exec` on the path of the request. -/
def execRoute (system : System σ) (req : Request) : Served σ × Bytes :=
  let out := node.router.exec req.path system req
  let called := ((node.router.route req.path).bind Route.callback).isSome
  (⟨out.system, out.request, if called then callEvents req.path out.sent else []⟩, out.result)

/-- `serve_cxx` for the path of a request. -/
def serveFile (path : Bytes) : Exec Event := serveCxx node.router node.files node.publicDirectory path

/-- `exec`, then the file of the path the request has by then. -/
def execAndServe (system : System σ) (req : Request) : Exec (Served σ) := do
  let out := (execRoute node system req).1
  let file ← serveFile node out.request.path
  return { out with events := out.events ++ [file] }

/-- A found secure route: its callback, or its file. -/
def runRoute (route : Route σ) (system : System σ) (req : Request) : Exec (Served σ) :=
  match route.callback with
  | some callback =>
    let out := callback system req
    .ok ⟨out.system, out.request, callEvents route.path out.sent⟩
  | none => execAndServe node system req

/-- The second half of the secure branch, which has no session check of its own. -/
def secureRoute (system : System σ) (req : Request) : Exec (Served σ) :=
  match node.router.route req.path with
  | some route => runRoute node route system req
  | none => .ok ⟨system, req, [.error (lit "305")]⟩

/-- The first half, entered without a session. A missing route is dereferenced. -/
def secureLogin (system : System σ) (req : Request) : Exec (Served σ) :=
  if authenticate req then
    match node.router.route req.path with
    | some route => runRoute node route system req
    | none => .error .undefined
  else .ok ⟨system, req, [.error (lit "305")]⟩

/-- The `ROUTE_SECURE` branch: the first half falls through into the second. -/
def serveSecure (system : System σ) (req : Request) (sesh : Option Session) : Exec (Served σ) := do
  let first ← if sesh.isSome then .ok ⟨system, req, []⟩ else secureLogin node system req
  let second ← secureRoute node first.system first.request
  return { second with events := first.events ++ second.events }

/-- The `ROUTE_RESOURCE` branch. -/
def serveResource (system : System σ) (req : Request) (sesh : Option Session) : Exec (Served σ) :=
  let out := node.router.runResource system req sesh
  let called := ((node.router.route req.path).bind Route.resource).isSome
  let before := if called then callEvents req.path out.sent else []
  match out.response with
  | some resp => do
    let events ← serveResponse node.router node.files node.publicDirectory out.request resp node.stack
    return ⟨out.system, out.request, before ++ events⟩
  | none => .ok ⟨out.system, out.request, before ++ [.error (lit "305")]⟩

/-- The `ROUTE_SYSTEM` branch: three results are answered later or not at all. -/
def serveSystem (system : System σ) (req : Request) : Served σ :=
  let (out, result) := execRoute node system req
  if result = lit "TICKET" ∨ result = lit "COMPLETE" ∨ result = lit "FNF" then out
  else { out with events := out.events ++ [.http (cstr result) (lit "text/html")] }

/-- `Bifrost::serve` -/
def serve (now : Int) (system : System σ) (req : Request) : Exec (Served σ) :=
  let (sesh, sm) := findSession node.prizm now system.sessionManager req
  let system := { system with sessionManager := sm }
  match node.router.protocol req.path with
  | .system => .ok (serveSystem node system req)
  | .resource => serveResource node system req sesh
  | .secure => serveSecure node system req sesh
  | .iris => do
    let file ← serveFile node (node.router.ipath req.path)
    return ⟨system, req, [file]⟩
  | .null | .http => execAndServe node system req
  | _ => .ok ⟨system, req, [.http (lit "Route does not exist") (lit "application/json")]⟩

/-- The calls of `compile_routes` that register pages; the API functions are left out. -/
def pageRoutes (clock : σ → Int) : List (Router.Registration σ) :=
  [.ipath (lit "/jericho/app") (lit "/jericho/app.iris"), .ipath (lit "/jericho/user") (lit "/jericho/user.iris"),
    .ipath (lit "/login-demo") (lit "/staging/main.iris"), .secure (lit "/staging/dashboard.iris") none,
    .ipath (lit "/celerity") (lit "/celerity/index.html"),
    .resource (lit "/user-login") (some (Controller.login clock)), .secure (lit "/jericho/denathrius.html") none]

/-- A node that serves these pages, with every file present. -/
def pageNode : Node Unit where
  prizm := Prizm.reference
  files := openFiles
  publicDirectory := lit "./public/web"
  router := Router.compile (pageRoutes fun _ => 0)

/-- A request for a path, from this machine, with a `Cookie` header. -/
def pageRequest (path cookie : Bytes) : Request :=
  { method := lit "GET", path := path, protocol := lit "HTTP/1.1", client := ⟨[], by decide, localhost⟩
    headers := (∅ : StrMap).insert (lit "Cookie") cookie }

end Jericho.Message
