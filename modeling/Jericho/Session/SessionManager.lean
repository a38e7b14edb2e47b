import Jericho.Server.Request

/-! Cookies and login sessions. A session is looked up by the address in the cookie. -/
namespace Jericho
open StdText Util Server

inductive CookieSameSite where
  | none
  | lax
  | strict
  deriving DecidableEq

inductive CookiePrefix where
  | none
  | host
  | secure
  deriving DecidableEq

structure Cookie where
  expiration : Int := 0
  secure : Bool := true
  httpOnly : Bool := true
  sameSite : CookieSameSite := .lax
  path : Bytes := lit "undefined"
  domain : Bytes := lit "undefined"
  tokens : StrMap := ∅
  addr : Bytes := lit "undefined"
  maxAge : Int := 0
  deriving DecidableEq

/-- The constructor from a request: the peer address, and the pair the header carried. -/
def Cookie.ofRequest (addr key val : Bytes) : Cookie := { addr := addr, tokens := (∅ : StrMap).insert key val }

/-- `token` -/
def Cookie.token (cookie : Cookie) (key val : Bytes) (pre : CookiePrefix) : Cookie :=
  let text := match pre with
    | .host => lit "__Host-" ++ key ++ lit "=" ++ val ++ lit "; Path=/"
    | .secure => lit "__Secure-" ++ key ++ lit "=" ++ val
    | .none => key ++ lit "=" ++ val
  { cookie with tokens := cookie.tokens.insert key text }

/-- `generate`, for a given rendering of the expiry date. -/
def Cookie.generate (strftime : Int → Bytes) (cookie : Cookie) : Bytes :=
  (cookie.tokens.entries.flatMap (fun tok => tok.2 ++ lit "; ") ++
    (if cookie.expiration ≠ 0 then lit "Expires=" ++ strftime cookie.expiration ++ lit "; " else []) ++
    (if cookie.secure then lit "Secure; " else []) ++
    (if cookie.httpOnly then lit "HttpOnly; " else []) ++
    (match cookie.sameSite with
      | .lax => lit "SameSite=Lax; "
      | .strict => lit "SameSite=Strict; "
      | .none => []) ++
    (if cookie.domain ≠ lit "undefined" then lit "Domain=" ++ cookie.domain ++ lit "; " else []) ++
    (if cookie.path ≠ lit "undefined" then lit "Path=" ++ cookie.path ++ lit "; " else []) ++
    (if cookie.maxAge ≠ 0 then lit "Max-Age=" ++ toText cookie.maxAge ++ lit "; " else [])).dropLast

/-- The fields of a session that are ever set. -/
structure Session where
  addr : Bytes
  expiresAt : Int
  createdAt : Int
  deriving DecidableEq

/-- Whether the time of a session is up. The difference is taken to be in the range of `time_t`. -/
def Session.expired (sesh : Session) (now : Int) : Bool := ¬ (0 < sesh.expiresAt - now)

/-- `_sessions`, oldest first. -/
abbrev SessionManager := List Session

def localhost : Bytes := lit "127.0.0.1"

/-- `create`: every session gets the same address. -/
def SessionManager.create (sm : SessionManager) (now : Int) : SessionManager :=
  sm ++ [{ addr := localhost, createdAt := now, expiresAt := now + 600 }]

/-- `verify`: the first session of the address decides; if it has expired it is erased and the
search stops. -/
def SessionManager.verify (now : Int) (cookie : Cookie) : SessionManager → Option Session × SessionManager
  | [] => (none, [])
  | sesh :: rest =>
    if cookie.addr = sesh.addr then
      if sesh.expired now then (none, rest) else (some sesh, sesh :: rest)
    else
      let (found, rest') := verify now cookie rest
      (found, sesh :: rest')

/-- A call on the session manager. -/
inductive SessionCall where
  | create (now : Int)
  | verify (now : Int) (cookie : Cookie)

def SessionManager.step (sm : SessionManager) : SessionCall → SessionManager
  | .create now => sm.create now
  | .verify now cookie => (SessionManager.verify now cookie sm).2

def SessionManager.run (sm : SessionManager) (calls : List SessionCall) : SessionManager := calls.foldl step sm

/-- All sessions belong to the same address. -/
def SessionManager.Local (sm : SessionManager) : Prop := ∀ sesh ∈ sm, sesh.addr = localhost

theorem verify_subset (now : Int) (cookie : Cookie) (sm : SessionManager) :
    ∀ sesh ∈ (SessionManager.verify now cookie sm).2, sesh ∈ sm := by
  induction sm with
  | nil => simp [SessionManager.verify]
  | cons sesh rest ih =>
    intro s hs
    rw [SessionManager.verify] at hs
    split_ifs at hs with haddr hexp
    · exact List.mem_cons_of_mem _ hs
    · exact hs
    · rcases List.mem_cons.mp hs with rfl | hs
      · exact List.mem_cons_self
      · exact List.mem_cons_of_mem _ (ih s hs)

theorem local_step {sm : SessionManager} (h : sm.Local) (call : SessionCall) : (sm.step call).Local := by
  intro sesh hs
  cases call with
  | create now =>
    rcases List.mem_append.mp hs with hs | hs
    · exact h sesh hs
    · rw [List.mem_singleton.mp hs]
  | verify now cookie => exact h sesh (verify_subset now cookie sm sesh hs)

theorem local_run {sm : SessionManager} (h : sm.Local) (calls : List SessionCall) : (sm.run calls).Local := by
  induction calls generalizing sm with
  | nil => exact h
  | cons call calls ih => exact ih (local_step h call)

/-- Only the address of a cookie is looked at. -/
theorem verify_congr {c d : Cookie} (h : c.addr = d.addr) (now : Int) (sm : SessionManager) :
    SessionManager.verify now c sm = SessionManager.verify now d sm := by
  induction sm with
  | nil => rfl
  | cons sesh rest ih => rw [SessionManager.verify, SessionManager.verify, h, ih]

theorem verify_of_ne {cookie : Cookie} {sm : SessionManager} (hl : sm.Local) (h : cookie.addr ≠ localhost)
    (now : Int) : SessionManager.verify now cookie sm = (none, sm) := by
  induction sm with
  | nil => rfl
  | cons sesh rest ih =>
    have haddr : ¬ cookie.addr = sesh.addr := by
      rw [hl sesh List.mem_cons_self]
      exact h
    rw [SessionManager.verify, if_neg haddr, ih (fun s hs => hl s (List.mem_cons_of_mem _ hs))]

/-- Among local sessions the oldest one decides. -/
theorem verify_isSome_iff {sm : SessionManager} (hl : sm.Local) (now : Int) (cookie : Cookie) :
    (SessionManager.verify now cookie sm).1.isSome ↔
      cookie.addr = localhost ∧ ∃ sesh, sm.head? = some sesh ∧ sesh.expired now = false := by
  by_cases haddr : cookie.addr = localhost
  · cases sm with
    | nil => simp [SessionManager.verify]
    | cons sesh rest =>
      have hs : cookie.addr = sesh.addr := haddr.trans (hl sesh List.mem_cons_self).symm
      rw [SessionManager.verify, if_pos hs]
      by_cases hexp : sesh.expired now <;> simp [hexp, haddr]
  · simp [verify_of_ne hl haddr, haddr]

end Jericho
