import Jericho.System.Router

/-! The route list is searched from the front, the table of protocols keeps what came last. -/
namespace Jericho.Router
open StdText Util Server

variable {σ : Type}

/-- What a route answers with. -/
structure Handler (σ : Type) where
  callback : Option (RouteFunction σ) := none
  resource : Option (ResourceFunction σ) := none

/-- The handler that a path is answered with. -/
def handler (router : Router σ) (path : Bytes) : Handler σ :=
  match router.route path with
  | some route => ⟨route.callback, route.resource⟩
  | none => {}

namespace Registration

def path : Registration σ → Bytes
  | .secure path _ => path
  | .bind _ path _ => path
  | .system path _ => path
  | .ipath path _ => path
  | .bindSystem path _ _ => path
  | .bindNode path => path
  | .resource path _ => path

/-- The protocol a registration sets for its path. -/
def protocol : Registration σ → RouteProtocol
  | .secure _ _ => .secure
  | .bind protocol _ _ => protocol
  | .system _ _ => .system
  | .ipath _ _ => .iris
  | .bindSystem _ _ protocol => protocol
  | .bindNode _ => .cluster
  | .resource _ _ => .resource

/-- The handler a registration gives for its path. -/
def handler : Registration σ → Handler σ
  | .secure _ fn => { callback := fn }
  | .bind _ _ fn => { callback := fn }
  | .system _ fn => { callback := fn }
  | .ipath _ _ => {}
  | .bindSystem _ fn _ => { callback := fn }
  | .bindNode _ => {}
  | .resource _ fn => { resource := fn }

/-- The route a registration adds to the list, if it adds one. -/
def route : Registration σ → Option (Route σ)
  | .secure path fn => some { type := .secure, path := path, callback := fn, secure := true }
  | .bind protocol path fn => some { type := protocol, path := path, callback := fn }
  | .system path fn => some { type := .system, path := path, callback := fn }
  | .resource path fn => some { type := .resource, path := path, resource := fn }
  | .ipath _ _ => none
  | .bindSystem _ _ _ => none
  | .bindNode _ => none

/-- Whether a route is secure depends on the call that adds it, whatever its protocol. -/
def secures : Registration σ → Bool
  | .secure _ _ => true
  | _ => false

/-- A registration for `ROUTE_SYSTEM` or `ROUTE_RESOURCE` brings a function of that kind. -/
def Serves (call : Registration σ) : Prop :=
  (call.protocol = .system → call.handler.callback.isSome) ∧
    (call.protocol = .resource → call.handler.resource.isSome)

theorem path_of_route {call : Registration σ} {route : Route σ} (h : call.route = some route) :
    route.path = call.path := by
  cases call <;> cases h <;> rfl

theorem handler_of_route {call : Registration σ} {route : Route σ} (h : call.route = some route) :
    call.handler = ⟨route.callback, route.resource⟩ := by
  cases call <;> cases h <;> rfl

theorem secures_of_route {call : Registration σ} {route : Route σ} (h : call.route = some route) :
    call.secures = route.secure := by
  cases call <;> cases h <;> rfl

theorem register_routes (router : Router σ) (call : Registration σ) :
    (router.register call).routes = router.routes ++ call.route.toList := by
  cases call <;> simp [register, securePath, Router.bind, Router.system, setIpath, Router.bindSystem, Router.bindNode,
    addResource, route]

theorem register_routeProtocols (router : Router σ) (call : Registration σ) :
    (router.register call).routeProtocols = router.routeProtocols.insert call.path call.protocol := by
  cases call <;> rfl

end Registration

/-- The last registration that names a path. -/
def last (calls : List (Registration σ)) (path : Bytes) : Option (Registration σ) :=
  calls.reverse.find? fun call => call.path = path

/-- The first registration that names a path and adds a route for it. -/
def first (calls : List (Registration σ)) (path : Bytes) : Option (Registration σ) :=
  calls.find? fun call => call.path = path ∧ call.route.isSome

theorem compile_append (calls : List (Registration σ)) (call : Registration σ) :
    compile (calls ++ [call]) = (compile calls).register call :=
  List.foldl_concat ..

/-- The protocol of a path is that of the last registration that names it. -/
theorem protocol_compile (calls : List (Registration σ)) (path : Bytes) :
    (compile calls).protocol path = ((last calls path).map Registration.protocol).getD .null := by
  induction calls using List.reverseRecOn with
  | nil => rfl
  | append_singleton calls call ih =>
    unfold protocol last at ih ⊢
    rw [compile_append, Registration.register_routeProtocols, List.reverse_append, List.reverse_singleton,
      List.singleton_append]
    by_cases hpath : call.path = path
    · rw [List.find?_cons_of_pos (by simpa using hpath), ← hpath, AList.lookup_insert]
      rfl
    · rw [List.find?_cons_of_neg (by simpa using hpath), AList.lookup_insert_ne (Ne.symm hpath)]
      exact ih

theorem routes_compile (calls : List (Registration σ)) :
    (compile calls).routes = calls.filterMap Registration.route := by
  induction calls using List.reverseRecOn with
  | nil => rfl
  | append_singleton calls call ih =>
    rw [compile_append, Registration.register_routes, ih, List.filterMap_append]
    cases call <;> rfl

/-- The route of a path is that of the first registration that adds one. -/
theorem route_compile (calls : List (Registration σ)) (path : Bytes) :
    (compile calls).route path = (first calls path).bind Registration.route := by
  unfold Router.route
  rw [routes_compile]
  induction calls with
  | nil => rfl
  | cons call calls ih =>
    unfold first at ih ⊢
    cases hroute : call.route with
    | none =>
      rw [List.filterMap_cons_none hroute, List.find?_cons_of_neg (by simp [hroute])]
      exact ih
    | some route =>
      have hsame := Registration.path_of_route hroute
      rw [List.filterMap_cons_some hroute]
      by_cases hpath : call.path = path
      · rw [List.find?_cons_of_pos (by simpa [hsame] using hpath), List.find?_cons_of_pos (by simp [hroute, hpath])]
        exact hroute.symm
      · rw [List.find?_cons_of_neg (by simpa [hsame] using hpath), List.find?_cons_of_neg (by simp [hpath])]
        exact ih

/-- What the first route-adding registration gives. -/
theorem first_spec {calls : List (Registration σ)} {path : Bytes} {call : Registration σ}
    (h : first calls path = some call) : ∃ route, call.route = some route := by
  have hfound := List.find?_some h
  simp only [decide_eq_true_eq] at hfound
  exact Option.isSome_iff_exists.mp hfound.2

def handlerOf (call : Option (Registration σ)) : Handler σ := (call.map Registration.handler).getD {}

theorem handler_compile (calls : List (Registration σ)) (path : Bytes) :
    (compile calls).handler path = handlerOf (first calls path) := by
  unfold handler
  rw [route_compile]
  cases hfirst : first calls path with
  | none => rfl
  | some call =>
    obtain ⟨route, hroute⟩ := first_spec hfirst
    simp only [Option.bind_some, hroute, handlerOf, Option.map_some, Option.getD_some]
    exact (Registration.handler_of_route hroute).symm

theorem secured_compile (calls : List (Registration σ)) (path : Bytes) :
    (compile calls).secured path = (first calls path).any Registration.secures := by
  unfold secured
  rw [route_compile]
  cases hfirst : first calls path with
  | none => rfl
  | some call =>
    obtain ⟨route, hroute⟩ := first_spec hfirst
    simp only [Option.bind_some, hroute, Option.any_some]
    exact (Registration.secures_of_route hroute).symm

/-- The tables agree about a path: it is answered by the handler of the registration that set its
protocol, which exists where the protocol calls one, and is secured as the protocol says. -/
structure Agree (calls : List (Registration σ)) (path : Bytes) : Prop where
  handler : (compile calls).handler path = handlerOf (last calls path)
  system : (compile calls).protocol path = .system → ((compile calls).handler path).callback.isSome
  resource : (compile calls).protocol path = .resource → ((compile calls).handler path).resource.isSome
  secured : (compile calls).secured path = true ↔ (compile calls).protocol path = .secure

/-- The last registration of a path repeats the handler of the first one that added a route, serves
its own protocol, and is for `ROUTE_SECURE` as the first was made with `secure`. -/
structure Repeats (calls : List (Registration σ)) (path : Bytes) : Prop where
  handler : handlerOf (first calls path) = handlerOf (last calls path)
  serves : ∀ call, last calls path = some call → call.Serves
  secure : (∃ call, first calls path = some call ∧ call.secures = true) ↔
    ∃ call, last calls path = some call ∧ call.protocol = .secure

theorem protocol_eq_iff (calls : List (Registration σ)) (path : Bytes) {p : RouteProtocol} (hp : p ≠ .null) :
    (compile calls).protocol path = p ↔ ∃ call, last calls path = some call ∧ call.protocol = p := by
  rw [protocol_compile]
  cases hlast : last calls path with
  | none => simp [Ne.symm hp]
  | some call => simp

theorem secured_iff (calls : List (Registration σ)) (path : Bytes) :
    (compile calls).secured path = true ↔ ∃ call, first calls path = some call ∧ call.secures = true := by
  rw [secured_compile]
  cases hfirst : first calls path with
  | none => simp
  | some call => simp

/-- The tables agree about a path exactly when its registrations repeat each other. -/
theorem agree_iff_repeats (calls : List (Registration σ)) (path : Bytes) : Agree calls path ↔ Repeats calls path := by
  have hprotocol := fun {p : RouteProtocol} => protocol_eq_iff (p := p) calls path
  have hsecured := secured_iff calls path
  have hhandler := handler_compile calls path
  constructor
  · intro h
    have hsame : handlerOf (first calls path) = handlerOf (last calls path) := hhandler.symm.trans h.handler
    refine ⟨hsame, ?_, ?_⟩
    · intro call hlast
      have hcall : (compile calls).handler path = call.handler := by
        rw [h.handler, hlast]
        rfl
      refine ⟨fun hsystem => ?_, fun hresource => ?_⟩
      · rw [← hcall]
        exact h.system ((hprotocol (by simp)).mpr ⟨call, hlast, hsystem⟩)
      · rw [← hcall]
        exact h.resource ((hprotocol (by simp)).mpr ⟨call, hlast, hresource⟩)
    · rw [← hsecured, ← hprotocol (by simp)]
      exact h.secured
  · intro h
    refine ⟨hhandler.trans h.handler, ?_, ?_, ?_⟩
    · intro hsystem
      obtain ⟨call, hlast, hcall⟩ := (hprotocol (by simp)).mp hsystem
      rw [hhandler, h.handler, hlast]
      exact (h.serves call hlast).1 hcall
    · intro hresource
      obtain ⟨call, hlast, hcall⟩ := (hprotocol (by simp)).mp hresource
      rw [hhandler, h.handler, hlast]
      exact (h.serves call hlast).2 hcall
    · rw [hsecured, hprotocol (by simp)]
      exact h.secure

/-- A page that becomes secure after it was registered is served as before, and not secured. -/
theorem secure_late : ¬ ∀ (calls : List (Registration Unit)) (path : Bytes), Agree calls path := by
  intro h
  have hagree := h [.system (lit "/spawn") (some fun system req => silent system req []),
    .secure (lit "/spawn") none] (lit "/spawn")
  have hsecured := hagree.secured.mpr (by decide)
  exact absurd hsecured (by decide)

end Jericho.Router
