import Jericho.Message.Serve

/-! Who gets through: secure routes, and what a session cookie is worth. -/
namespace Jericho.Message
open StdText Util Server Controller
variable {σ : Type} (node : Node σ)

/-- Whether an event is access to what a route guards. -/
def Event.grants : Event → Bool
  | .callback _ => true
  | .file _ _ _ => true
  | _ => false

def responses (events : List Event) : Nat := events.countP Event.isResponse

/-- Serving returns, gives access only to a session or to accepted credentials, and sends exactly
one response. -/
def Guarded (now : Int) (system : System σ) (req : Request) : Prop :=
  ∃ out, serve node now system req = .ok out ∧
    (out.events.any Event.grants →
      (findSession node.prizm now system.sessionManager req).1.isSome ∨ authenticate req = true) ∧
    responses out.events = 1

/-- The file of a path is answered: it is refused, or it has a text. -/
def Answered (path : Bytes) : Prop :=
  Refused node.files node.publicDirectory (cstr path) ∨
    HasText node.router node.files node.publicDirectory (cstr path)

/-- A pass over the route of a request returns and sends this many responses: those of its callback, else one. -/
def PassSends (system : System σ) (req : Request) (n : Nat) : Prop :=
  match node.router.route req.path with
  | none => n = 1
  | some route =>
    match route.callback with
    | some callback => (callback system req).sent.length = n
    | none => Answered node req.path ∧ n = 1

theorem responses_append (a b : List Event) : responses (a ++ b) = responses a + responses b :=
  List.countP_append

theorem responses_callEvents (path : Bytes) (sent : List Bytes) : responses (callEvents path sent) = sent.length := by
  unfold responses callEvents
  rw [List.countP_cons_of_neg (by simp [Event.isResponse]), List.countP_map]
  exact List.countP_eq_length.mpr fun _ _ => rfl

/-- An answer of the file server is one response. -/
theorem serveFile_ok {path : Bytes} {e : Event} (h : serveFile node path = .ok e) :
    Answered node path ∧ responses [e] = 1 := by
  unfold serveFile at h
  by_cases hrefused : Refused node.files node.publicDirectory (cstr path)
  · rw [serveCxx_refused node.router hrefused] at h
    obtain rfl := Except.ok.inj h
    exact ⟨.inl hrefused, rfl⟩
  · by_cases htext : HasText node.router node.files node.publicDirectory (cstr path)
    · obtain ⟨bytes, hb⟩ := serveCxx_served node.router hrefused htext
      rw [hb] at h
      obtain rfl := Except.ok.inj h
      exact ⟨.inr htext, rfl⟩
    · obtain ⟨fault, hfault⟩ := serveCxx_thrown node.router hrefused htext
      rw [hfault] at h
      cases h

theorem serveFile_answered {path : Bytes} (h : Answered node path) : ∃ e, serveFile node path = .ok e := by
  by_cases hrefused : Refused node.files node.publicDirectory (cstr path)
  · exact ⟨_, serveCxx_refused node.router hrefused⟩
  · obtain ⟨bytes, hb⟩ := serveCxx_served node.router hrefused (h.resolve_left hrefused)
    exact ⟨_, hb⟩

/-- A route without callback serves the file of the request's path, once. -/
theorem execAndServe_of_none {system : System σ} {req : Request}
    (h : (node.router.route req.path).bind Route.callback = none) :
    execAndServe node system req = (serveFile node req.path).map fun e => ⟨system, req, [e]⟩ := by
  have hexec : node.router.exec req.path system req =
      Router.silent system req (node.router.exec req.path system req).result := by
    unfold Router.exec
    cases hr : node.router.route req.path with
    | none => rfl
    | some route =>
      rw [hr, Option.bind_some] at h
      simp [h, Router.silent]
  unfold execAndServe execRoute
  dsimp only
  rw [h, hexec]
  exact bind_return _ _

theorem runRoute_callback {route : Route σ} {callback : RouteFunction σ}
    (hc : route.callback = some callback) (system : System σ) (req : Request) :
    runRoute node route system req = .ok
      ⟨(callback system req).system, (callback system req).request,
        callEvents route.path (callback system req).sent⟩ := by
  unfold runRoute
  rw [hc]

theorem runRoute_file {route : Route σ} {req : Request} (hr : node.router.route req.path = some route)
    (hc : route.callback = none) (system : System σ) :
    runRoute node route system req = (serveFile node req.path).map fun e => ⟨system, req, [e]⟩ := by
  have hnone : (node.router.route req.path).bind Route.callback = none := by rw [hr, Option.bind_some, hc]
  unfold runRoute
  rw [hc]
  exact execAndServe_of_none node hnone

/-- The responses of a pass of the second half. -/
theorem secureRoute_sends {system : System σ} {req : Request} {n : Nat} :
    (∃ out, secureRoute node system req = .ok out ∧ responses out.events = n) ↔ PassSends node system req n := by
  unfold secureRoute PassSends
  cases hr : node.router.route req.path with
  | none =>
    constructor
    · rintro ⟨out, hout, rfl⟩
      obtain rfl := Except.ok.inj hout
      rfl
    · rintro rfl
      exact ⟨_, rfl, rfl⟩
  | some route =>
    dsimp only
    cases hc : route.callback with
    | some callback =>
      rw [runRoute_callback node hc]
      constructor
      · rintro ⟨out, hout, rfl⟩
        obtain rfl := Except.ok.inj hout
        exact (responses_callEvents _ _).symm
      · rintro rfl
        exact ⟨_, rfl, responses_callEvents _ _⟩
    | none =>
      rw [runRoute_file node hr hc]
      constructor
      · rintro ⟨out, hout, rfl⟩
        obtain ⟨e, he, rfl⟩ := map_eq_ok.mp hout
        exact serveFile_ok node he
      · rintro ⟨hanswered, rfl⟩
        obtain ⟨e, he⟩ := serveFile_answered node hanswered
        exact ⟨_, map_eq_ok.mpr ⟨e, he, rfl⟩, (serveFile_ok node he).2⟩

/-- The system after the cookie was verified. -/
def checkedSystem (now : Int) (system : System σ) (req : Request) : System σ :=
  { system with sessionManager := (findSession node.prizm now system.sessionManager req).2 }

theorem serve_of_secure {req : Request} (h : node.router.protocol req.path = .secure) (now : Int)
    (system : System σ) :
    serve node now system req = serveSecure node (checkedSystem node now system req) req
      (findSession node.prizm now system.sessionManager req).1 := by
  unfold serve checkedSystem
  dsimp only
  rw [h]

/-- An unauthenticated pass of the second half gives access, unless it sends a response of its own. -/
theorem secureRoute_grants_or {system : System σ} {req : Request} {out : Served σ}
    (h : secureRoute node system req = .ok out) : out.events.any Event.grants ∨ responses out.events = 1 := by
  unfold secureRoute at h
  cases hr : node.router.route req.path with
  | none =>
    rw [hr] at h
    obtain rfl := Except.ok.inj h
    exact .inr rfl
  | some route =>
    rw [hr] at h
    dsimp only at h
    cases hc : route.callback with
    | some callback =>
      rw [runRoute_callback node hc] at h
      obtain rfl := Except.ok.inj h
      exact .inl rfl
    | none =>
      rw [runRoute_file node hr hc] at h
      obtain ⟨e, he, rfl⟩ := map_eq_ok.mp h
      exact .inr (serveFile_ok node he).2

/-- A request without session and credentials is never handled as it should be: the error page
is followed by the route. -/
theorem serveSecure_unauthenticated {req : Request} (h : authenticate req = false) (system : System σ) :
    serveSecure node system req none = (secureRoute node system req).map fun second =>
      { second with events := .error (lit "305") :: second.events } := by
  unfold serveSecure secureLogin
  rw [h]
  exact bind_return _ _

theorem serveSecure_session {sesh : Option Session} (h : sesh.isSome) (system : System σ) (req : Request) :
    serveSecure node system req sesh = secureRoute node system req := by
  unfold serveSecure
  rw [h]
  cases hroute : secureRoute node system req with
  | error e =>
    change (secureRoute node system req >>= _) = _
    rw [hroute]
    rfl
  | ok out =>
    change (secureRoute node system req >>= _) = _
    rw [hroute]
    rfl

/-- With credentials the route is run, and then run again. -/
theorem serveSecure_authenticated {req : Request} (h : authenticate req = true) (system : System σ) {route : Route σ}
    (hr : node.router.route req.path = some route) :
    serveSecure node system req none = runRoute node route system req >>= fun first =>
      (secureRoute node first.system first.request).map fun second =>
        { second with events := first.events ++ second.events } := by
  unfold serveSecure secureLogin
  rw [h, hr]
  exact congrArg (Except.bind _) (funext fun first => bind_return _ _)

theorem serveSecure_unrouted {req : Request} (h : authenticate req = true) (system : System σ)
    (hr : node.router.route req.path = none) : serveSecure node system req none = .error .undefined := by
  unfold serveSecure secureLogin
  rw [h, hr]
  rfl

/-- The error page and an answered pass are two responses, and a pass that does not answer on its own
gives access. -/
theorem not_guarded_unauthenticated {system : System σ} {req : Request} {out : Served σ}
    (h : secureRoute node system req = .ok out) :
    ¬ (¬ (Event.error (lit "305") :: out.events).any Event.grants ∧
      responses (.error (lit "305") :: out.events) = 1) := by
  have hcount : responses (.error (lit "305") :: out.events) = responses out.events + 1 :=
    List.countP_cons_of_pos rfl
  rintro ⟨hguard, hone⟩
  rcases secureRoute_grants_or node h with h | h
  · exact hguard (by rw [List.any_cons, h, Bool.or_true])
  · omega

/-- A secure route is handled as it should be in two cases only: there is a session and the
route returns and answers once; or the credentials are accepted, the route has a callback, and its run
together with the pass that follows returns and answers once. -/
theorem secure_guarded_iff (now : Int) (system : System σ) {req : Request}
    (hsec : node.router.protocol req.path = .secure) :
    Guarded node now system req ↔
      (findSession node.prizm now system.sessionManager req).1.isSome ∧
        PassSends node (checkedSystem node now system req) req 1 ∨
      (findSession node.prizm now system.sessionManager req).1 = none ∧ authenticate req = true ∧
        ∃ callback, (node.router.route req.path).bind Route.callback = some callback ∧
          ∃ n, PassSends node (callback (checkedSystem node now system req) req).system
              (callback (checkedSystem node now system req) req).request n ∧
            (callback (checkedSystem node now system req) req).sent.length + n = 1 := by
  unfold Guarded
  rw [serve_of_secure node hsec]
  set system' := checkedSystem node now system req
  cases hsesh : (findSession node.prizm now system.sessionManager req).1 with
  | some sesh =>
    rw [serveSecure_session node rfl, ← secureRoute_sends]
    simp
  | none =>
    by_cases hauth : authenticate req = true
    · cases hr : node.router.route req.path with
      | none =>
        rw [serveSecure_unrouted node hauth system' hr]
        simp
      | some route =>
        rw [serveSecure_authenticated node hauth system' hr]
        cases hc : route.callback with
        | some callback =>
          rw [runRoute_callback node hc]
          constructor
          · rintro ⟨out, hout, -, hcount⟩
            obtain ⟨second, hsecond, rfl⟩ := map_eq_ok.mp hout
            rw [responses_append, responses_callEvents] at hcount
            exact .inr ⟨rfl, hauth, callback, by rw [Option.bind_some, hc],
              _, (secureRoute_sends node).mp ⟨second, hsecond, rfl⟩, hcount⟩
          · rintro (⟨hsome, -⟩ | ⟨-, -, callback', hcallback, n, hsends, hcount⟩)
            · cases hsome
            · rw [Option.bind_some, hc] at hcallback
              obtain rfl := Option.some.inj hcallback
              obtain ⟨second, hsecond, rfl⟩ := (secureRoute_sends node).mpr hsends
              refine ⟨_, map_eq_ok.mpr ⟨second, hsecond, rfl⟩, fun _ => .inr hauth, ?_⟩
              rw [responses_append, responses_callEvents]
              exact hcount
        | none =>
          rw [runRoute_file node hr hc]
          constructor
          · rintro ⟨out, hout, -, hcount⟩
            obtain ⟨first, hfirst, hrest⟩ := bind_eq_ok.mp hout
            obtain ⟨e, he, rfl⟩ := map_eq_ok.mp hfirst
            obtain ⟨second, hsecond, rfl⟩ := map_eq_ok.mp hrest
            have hsends : PassSends node system' req (responses second.events) :=
              (secureRoute_sends node).mp ⟨second, hsecond, rfl⟩
            unfold PassSends at hsends
            rw [hr] at hsends
            dsimp only at hsends
            rw [hc] at hsends
            rw [responses_append, (serveFile_ok node he).2, hsends.2] at hcount
            cases hcount
          · simp [hc]
    · have hauth : authenticate req = false := by simpa using hauth
      rw [serveSecure_unauthenticated node hauth]
      constructor
      · rintro ⟨out, hout, hguard, hcount⟩
        obtain ⟨second, hsecond, rfl⟩ := map_eq_ok.mp hout
        refine absurd ⟨fun hgrants => ?_, hcount⟩ (not_guarded_unauthenticated node hsecond)
        simpa [hauth] using hguard hgrants
      · simp [hauth]

/-- A session is enough for the dashboard. -/
theorem secure_guarded_session :
    Guarded pageNode 5 ⟨SessionManager.create [] 0, ()⟩
      (pageRequest (lit "/staging/dashboard.iris") (lit "__Host-sessionId=12klj987asd134hjase9")) := by
  refine (secure_guarded_iff pageNode 5 _ (by decide)).mpr (.inl ⟨by decide, ?_⟩)
  exact ⟨.inr ⟨[], [], rfl, rfl⟩, rfl⟩

/-- Without a session the dashboard is sent after the error page. -/
theorem secure_guarded_stranger :
    ¬ Guarded pageNode 5 ⟨[], ()⟩ (pageRequest (lit "/staging/dashboard.iris") []) := by
  rintro ⟨out, hout, -, hcount⟩
  have hserve : ∃ sent, serve pageNode 5 ⟨[], ()⟩ (pageRequest (lit "/staging/dashboard.iris") []) =
      .ok ⟨⟨[], ()⟩, pageRequest (lit "/staging/dashboard.iris") [],
        [.error (lit "305"), .file (lit "./public/web/staging/dashboard.iris") [] sent]⟩ := ⟨_, rfl⟩
  obtain ⟨sent, hsent⟩ := hserve
  rw [hsent] at hout
  obtain rfl := Except.ok.inj hout
  cases hcount

theorem requestCookie_addr {prizm : Prizm} {req : Request} {cookie : Cookie}
    (h : requestCookie prizm req = some cookie) : cookie.addr = req.client.address := by
  obtain ⟨pre, key, val, -, rfl⟩ := requestCookie_eq_some h
  rfl

theorem findSession_of_cookie {prizm : Prizm} {req : Request} {cookie : Cookie}
    (h : requestCookie prizm req = some cookie) (now : Int) (sm : SessionManager) :
    findSession prizm now sm req = SessionManager.verify now cookie sm := by
  unfold findSession
  rw [h]

/-- What a cookie holds is never compared: after any calls, every two requests from one address
that carry some cookie are given the same session, and they are given one exactly when they come
from this machine and the oldest session kept has not expired. -/
theorem session_by_address (prizm : Prizm) (calls : List SessionCall) (now : Int) {a b : Request} {c d : Cookie}
    (ha : requestCookie prizm a = some c) (hb : requestCookie prizm b = some d)
    (haddr : a.client.address = b.client.address) :
    findSession prizm now (SessionManager.run [] calls) a = findSession prizm now (SessionManager.run [] calls) b ∧
    ((findSession prizm now (SessionManager.run [] calls) a).1.isSome ↔ a.client.address = localhost ∧
      ∃ sesh, (SessionManager.run [] calls).head? = some sesh ∧ sesh.expired now = false) := by
  have hl : (SessionManager.run [] calls).Local := local_run (fun _ h => absurd h List.not_mem_nil) calls
  have hcd : c.addr = d.addr := by rw [requestCookie_addr ha, requestCookie_addr hb, haddr]
  rw [findSession_of_cookie ha, findSession_of_cookie hb, ← requestCookie_addr ha]
  exact ⟨verify_congr hcd now _, verify_isSome_iff hl now c⟩

/-- The header a browser returns after a login, and a made-up one. -/
theorem session_by_address_login :
    findSession Prizm.reference 5 (SessionManager.run [] [.create 0])
        (pageRequest dashboard (lit "__Host-sessionId=12klj987asd134hjase9")) =
      findSession Prizm.reference 5 (SessionManager.run [] [.create 0]) (pageRequest dashboard (lit "a-b=c")) := by
  have hissued : requestCookie Prizm.reference (pageRequest dashboard (lit "__Host-sessionId=12klj987asd134hjase9")) =
      some (Cookie.ofRequest localhost (lit "sessionId") (lit "12klj987asd134hjase9")) := rfl
  have hother : requestCookie Prizm.reference (pageRequest dashboard (lit "a-b=c")) =
      some (Cookie.ofRequest localhost (lit "b") (lit "c")) := rfl
  exact (session_by_address Prizm.reference [.create 0] 5 hissued hother rfl).1

/-- Both are given the session of the login. -/
theorem made_up_cookie_accepted :
    ¬ ((findSession Prizm.reference 5 (SessionManager.run [] [.create 0])
          (pageRequest dashboard (lit "__Host-sessionId=12klj987asd134hjase9"))).1.isSome ∧
      (findSession Prizm.reference 5 (SessionManager.run [] [.create 0])
          (pageRequest dashboard (lit "a-b=c"))).1 = none) := by
  decide

end Jericho.Message
