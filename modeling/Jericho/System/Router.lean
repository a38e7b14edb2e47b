import Jericho.Session.SessionManager

/-! The route table. Route functions are arbitrary code over the rest of the system: they may
change it and the request, and write to the client. -/
namespace Jericho
open StdText Util Server

inductive RouteProtocol where
  | null
  | http
  | api
  | cluster
  | system
  | jericho
  | secure
  | controller
  | resource
  | db
  | raw
  | json
  | xml
  | yaml
  | csv
  | iris
  deriving DecidableEq

/-- What the handlers share: the sessions, and whatever else they work on. -/
structure System (σ : Type) where
  sessionManager : SessionManager
  state : σ

/-- A finished call of a route function: the system and request it leaves, the responses it
wrote itself, and the string it returns. -/
structure RouteOutcome (σ : Type) where
  system : System σ
  request : Request
  sent : List Bytes
  result : Bytes

/-- A response object, to be generated from the request. -/
structure Response where
  cookies : List Cookie := []
  deriving DecidableEq

structure ResourceOutcome (σ : Type) where
  system : System σ
  request : Request
  sent : List Bytes
  response : Option Response

abbrev RouteFunction (σ : Type) := System σ → Request → RouteOutcome σ
abbrev ResourceFunction (σ : Type) := System σ → Request → Option Session → ResourceOutcome σ

structure Route (σ : Type) where
  type : RouteProtocol
  path : Bytes
  callback : Option (RouteFunction σ) := none
  resource : Option (ResourceFunction σ) := none
  secure : Bool := false

structure Router (σ : Type) where
  routes : List (Route σ) := []
  routeProtocols : AList (fun _ : Bytes => RouteProtocol) := ∅
  routeTable : AList (fun _ : Bytes => Route σ) := ∅
  routeFunctions : AList (fun _ : Bytes => Option (RouteFunction σ)) := ∅
  httpFunctions : AList (fun _ : Bytes => Option (RouteFunction σ)) := ∅
  ipaths : StrMap := ∅
  securePaths : List Bytes := []

variable {σ : Type}

namespace Router

def securePath (router : Router σ) (path : Bytes) (fn : Option (RouteFunction σ)) : Router σ :=
  { router with
    routes := router.routes ++ [{ type := .secure, path := path, callback := fn, secure := true }]
    securePaths := router.securePaths ++ [path]
    routeProtocols := router.routeProtocols.insert path .secure }

def bind (router : Router σ) (protocol : RouteProtocol) (path : Bytes) (fn : Option (RouteFunction σ)) : Router σ :=
  let route : Route σ := { type := protocol, path := path, callback := fn }
  { router with
    routes := router.routes ++ [route]
    routeProtocols := router.routeProtocols.insert path protocol
    routeTable := router.routeTable.insert path route
    routeFunctions := if protocol = .api then router.routeFunctions.insert path fn else router.routeFunctions
    httpFunctions :=
      if protocol = .http ∨ protocol = .iris ∨ protocol = .system then router.httpFunctions.insert path fn
      else router.httpFunctions }

def setIpath (router : Router σ) (path ipath : Bytes) : Router σ :=
  { router with
    ipaths := router.ipaths.insert path ipath
    routeProtocols := router.routeProtocols.insert path .iris }

/-- The function goes to a table that is only asked whether it has the path (`hasFunction`). -/
def bindSystem (router : Router σ) (path : Bytes) (fn : Option (RouteFunction σ)) (protocol : RouteProtocol) :
    Router σ :=
  { router with
    routeProtocols := router.routeProtocols.insert path protocol
    routeFunctions := router.routeFunctions.insert path fn }

/-- `bindNode`, without the buffer it keeps. -/
def bindNode (router : Router σ) (path : Bytes) : Router σ :=
  { router with routeProtocols := router.routeProtocols.insert path .cluster }

def addResource (router : Router σ) (path : Bytes) (fn : Option (ResourceFunction σ)) : Router σ :=
  let route : Route σ := { type := .resource, path := path, resource := fn }
  { router with
    routes := router.routes ++ [route]
    routeProtocols := router.routeProtocols.insert path .resource
    routeTable := router.routeTable.insert path route }

def system (router : Router σ) (path : Bytes) (fn : Option (RouteFunction σ)) : Router σ :=
  let route : Route σ := { type := .system, path := path, callback := fn }
  { router with
    routes := router.routes ++ [route]
    routeProtocols := router.routeProtocols.insert path .system
    routeFunctions := router.routeFunctions.insert path fn
    routeTable := router.routeTable.insert path route }

/-- A registration call. -/
inductive Registration (σ : Type) where
  | secure (path : Bytes) (fn : Option (RouteFunction σ))
  | bind (protocol : RouteProtocol) (path : Bytes) (fn : Option (RouteFunction σ))
  | system (path : Bytes) (fn : Option (RouteFunction σ))
  | ipath (path ipath : Bytes)
  | bindSystem (path : Bytes) (fn : Option (RouteFunction σ)) (protocol : RouteProtocol)
  | bindNode (path : Bytes)
  | resource (path : Bytes) (fn : Option (ResourceFunction σ))

def register (router : Router σ) : Registration σ → Router σ
  | .secure path fn => router.securePath path fn
  | .bind protocol path fn => router.bind protocol path fn
  | .system path fn => router.system path fn
  | .ipath path ipath => router.setIpath path ipath
  | .bindSystem path fn protocol => router.bindSystem path fn protocol
  | .bindNode path => router.bindNode path
  | .resource path fn => router.addResource path fn

/-- A router as the registration calls build it. -/
def compile (calls : List (Registration σ)) : Router σ := calls.foldl register {}

def protocol (router : Router σ) (path : Bytes) : RouteProtocol :=
  (router.routeProtocols.lookup path).getD .null

def ipath (router : Router σ) (path : Bytes) : Bytes := router.ipaths.get path

def contains (router : Router σ) (path : Bytes) : Bool := (router.ipaths.lookup path).isSome

/-- The first route of a path. -/
def route (router : Router σ) (path : Bytes) : Option (Route σ) := router.routes.find? (·.path = path)

/-- Whether the first route of a path is a secure one. -/
def secured (router : Router σ) (path : Bytes) : Bool :=
  match router.route path with
  | some route => route.secure
  | none => false

def hasFunction (router : Router σ) (path : Bytes) : Bool :=
  (router.routeFunctions.lookup path).isSome || (router.httpFunctions.lookup path).isSome

/-- Calling a function of the table and returning at once what it wrote. -/
def silent (system : System σ) (request : Request) (result : Bytes) : RouteOutcome σ :=
  ⟨system, request, [], result⟩

/-- `exec`, by way of `subexec` and `Route::exec`. -/
def exec (router : Router σ) (path : Bytes) (system : System σ) (req : Request) : RouteOutcome σ :=
  match router.route path with
  | some route =>
    match route.callback with
    | some callback => callback system req
    | none => silent system req (lit "No callback")
  | none =>
    silent system req
      (lit "\x7b\"status\": \"500\", \"error\": \"Router::exec: Route not found!\"\x7d")

/-- `resource` with a request: the resource function of the first route, if it has one. -/
def runResource (router : Router σ) (system : System σ) (req : Request) (sesh : Option Session) : ResourceOutcome σ :=
  match router.route req.path with
  | some route =>
    match route.resource with
    | some fn => fn system req sesh
    | none => ⟨system, req, [], none⟩
  | none => ⟨system, req, [], none⟩

end Router
end Jericho
