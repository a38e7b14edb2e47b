import Jericho.System.Router

/-! The login controller. -/
namespace Jericho.Controller
open StdText Util Server
variable {σ : Type}

/-- The credentials the controller accepts. -/
def loginCredentials (req : Request) : Bool :=
  req.arg (lit "Username") = lit "joeybenz300" && req.arg (lit "Password") = lit "pass1234"

/-- The cookie every login is given, and every visit with a session. -/
def loginCookie (now : Int) : Cookie :=
  Cookie.token { expiration := now + 60 } (lit "sessionId") (lit "12klj987asd134hjase9") .host

def dashboard : Bytes := lit "/staging/dashboard.iris"

/-- `oauth::login`, with the clock of the system. -/
def login (clock : σ → Int) : ResourceFunction σ := fun system req sesh =>
  let now := clock system.state
  let granted : ResourceOutcome σ :=
    ⟨system, { req with path := dashboard }, [], some { cookies := [loginCookie now] }⟩
  if loginCredentials req then
    { granted with system := { system with sessionManager := system.sessionManager.create now } }
  else if sesh.isSome then granted
  else ⟨system, req, [], none⟩

end Jericho.Controller
