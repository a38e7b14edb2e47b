import Jericho.Message.Access

/-! Other spellings of a secured path. The guard compares paths as texts; the file system does not. -/
namespace Jericho.Message
open StdText Util Server Controller LexicalPath
variable {σ : Type} (node : Node σ)

/-- Two file names that differ in repeated slashes and in dot segments only. -/
def SameFile (a b : Bytes) : Prop := canonical slash fullStop (cstr a) = canonical slash fullStop (cstr b)

instance (a b : Bytes) : Decidable (SameFile a b) := inferInstanceAs (Decidable (_ = _))

theorem sameFile_double_slash (a b : Bytes) : SameFile (a ++ slash :: slash :: b) (a ++ slash :: b) := by
  unfold SameFile
  by_cases h : (0 : Byte) ∈ a
  · rw [cstr_append_of_mem h, cstr_append_of_mem h]
  · rw [cstr_append h, cstr_append h]
    exact canonical_double_sep a (cstr b)

theorem sameFile_dot_segment (a b : Bytes) :
    SameFile (a ++ slash :: fullStop :: slash :: b) (a ++ slash :: b) := by
  unfold SameFile
  by_cases h : (0 : Byte) ∈ a
  · rw [cstr_append_of_mem h, cstr_append_of_mem h]
  · rw [cstr_append h, cstr_append h]
    exact canonical_dot_segment (by decide) a (cstr b)

/-- A request for another spelling of a secured path, with nothing that opens it. -/
structure Respelled (now : Int) (system : System σ) (req : Request) (secured : Bytes) : Prop where
  registered : ∃ calls, node.router = Router.compile calls ∧ .secure secured none ∈ calls
  other : req.path ≠ secured
  same : SameFile (node.publicDirectory ++ req.path) (node.publicDirectory ++ secured)
  session : (findSession node.prizm now system.sessionManager req).1 = none
  credentials : authenticate req = false
  login : loginCredentials req = false

/-- A file was opened and its contents were sent, on its own or in a page. -/
def FileSent (events : List Event) (file : Bytes) : Prop :=
  ∃ fullPath parts bytes, .file fullPath parts bytes ∈ events ∧ file ∈ fullPath :: parts

/-- Serving sends the contents of the secured file. -/
def Reached (now : Int) (system : System σ) (req : Request) (secured : Bytes) : Prop :=
  ∃ out file, serve node now system req = .ok out ∧ FileSent out.events file ∧
    SameFile file (node.publicDirectory ++ secured)

/-- The path that is handed to a file server for a request without session and credentials, and the response whose
cookies go with the file. A path that was never registered is handed over as it is; a secure one too, as the check
falls through. -/
def servedPath (now : Int) (system : System σ) (req : Request) : Option (Bytes × Response) :=
  let system := checkedSystem node now system req
  match node.router.protocol req.path with
  | .resource =>
    let out := node.router.runResource system req none
    out.response.map fun resp => (out.request.path, resp)
  | .secure =>
    (node.router.route req.path).bind fun route =>
      if route.callback.isSome then none else some (cstr req.path, {})
  | .iris => some (cstr (node.router.ipath req.path), {})
  | .null | .http => some (cstr (node.router.exec req.path system req).request.path, {})
  | _ => none

/-- A file that is sent for a served path: the one behind it, or a part of that. -/
def Leads (served : Bytes × Response) (file : Bytes) : Prop :=
  ¬ Refused node.files node.publicDirectory served.1 ∧
    (HasText node.router node.files node.publicDirectory served.1 ∧ HasCookies node.files served.2) ∧
    file ∈ joined node.publicDirectory served.1 :: pageParts node.router node.files node.publicDirectory served.1

theorem fileSent_append {a b : List Event} {file : Bytes} :
    FileSent (a ++ b) file ↔ FileSent a file ∨ FileSent b file := by
  simp only [FileSent, List.mem_append, or_and_right, exists_or]

theorem fileSent_singleton {fullPath file bytes : Bytes} {parts : List Bytes} :
    FileSent [.file fullPath parts bytes] file ↔ file ∈ fullPath :: parts := by
  constructor
  · rintro ⟨fullPath', parts', bytes', hmem, hfile⟩
    obtain ⟨rfl, rfl, -⟩ := Event.file.inj (List.mem_singleton.mp hmem)
    exact hfile
  · exact fun hfile => ⟨_, _, _, List.mem_singleton_self _, hfile⟩

theorem not_fileSent_singleton {e : Event} (h : ∀ fullPath parts bytes, e ≠ .file fullPath parts bytes)
    (file : Bytes) : ¬ FileSent [e] file := by
  rintro ⟨fullPath, parts, bytes, hmem, -⟩
  exact h fullPath parts bytes (List.mem_singleton.mp hmem).symm

theorem not_fileSent_callEvents (path : Bytes) (sent : List Bytes) (file : Bytes) :
    ¬ FileSent (callEvents path sent) file := by
  rintro ⟨fullPath, parts, bytes, h, -⟩
  simp [callEvents] at h

theorem not_fileSent_call (b : Prop) [Decidable b] (path : Bytes) (sent : List Bytes) (file : Bytes) :
    ¬ FileSent (if b then callEvents path sent else []) file := by
  split
  · exact not_fileSent_callEvents path sent file
  · rintro ⟨fullPath, parts, bytes, h, -⟩
    exact absurd h List.not_mem_nil

/-- A call of a server returns and sends the contents of a file. -/
def Sends (out : Exec (List Event)) (file : Bytes) : Prop := ∃ events, out = .ok events ∧ FileSent events file

theorem sends_ok {events : List Event} {file : Bytes} : Sends (.ok events) file ↔ FileSent events file := by
  constructor
  · rintro ⟨events', heq, hfile⟩
    obtain rfl := Except.ok.inj heq
    exact hfile
  · exact fun hfile => ⟨_, rfl, hfile⟩

/-- Events without a file before a server's own. -/
theorem sends_after {before : List Event} {out : Exec (List Event)} {file : Bytes} (h : ¬ FileSent before file) :
    Sends (out.map (before ++ ·)) file ↔ Sends out file := by
  constructor
  · rintro ⟨events, hmap, hfile⟩
    obtain ⟨events', hevents, rfl⟩ := map_eq_ok.mp hmap
    exact ⟨events', hevents, (fileSent_append.mp hfile).resolve_left h⟩
  · rintro ⟨events, rfl, hfile⟩
    exact ⟨_, rfl, fileSent_append.mpr (.inr hfile)⟩

/-- What both servers do with a served path, as far as files go. -/
theorem sends_leads {served : Bytes × Response} {out : Exec (List Event)} {file : Bytes}
    (hrefused : Refused node.files node.publicDirectory served.1 → ¬ Sends out file)
    (hserved : ¬ Refused node.files node.publicDirectory served.1 →
      HasText node.router node.files node.publicDirectory served.1 ∧ HasCookies node.files served.2 →
      ∃ bytes, out = .ok [.file (joined node.publicDirectory served.1)
        (pageParts node.router node.files node.publicDirectory served.1) bytes])
    (hthrown : ¬ Refused node.files node.publicDirectory served.1 →
      ¬ (HasText node.router node.files node.publicDirectory served.1 ∧ HasCookies node.files served.2) →
      ∃ fault, out = .error fault) : Sends out file ↔ Leads node served file := by
  unfold Leads
  by_cases h : Refused node.files node.publicDirectory served.1
  · simp [h, hrefused h]
  · by_cases hshown : HasText node.router node.files node.publicDirectory served.1 ∧ HasCookies node.files served.2
    · obtain ⟨bytes, rfl⟩ := hserved h hshown
      rw [sends_ok, fileSent_singleton]
      simp [h, hshown]
    · obtain ⟨fault, rfl⟩ := hthrown h hshown
      simp [h, hshown, Sends]

theorem hasCookies_nil (files : Files) : HasCookies files {} := fun _ hmem => absurd hmem List.not_mem_nil

theorem sends_serveFile (path file : Bytes) :
    Sends ((serveFile node path).map ([·])) file ↔ Leads node (cstr path, {}) file := by
  refine sends_leads node (fun h => ?_) (fun h hshown => ?_) (fun h hshown => ?_)
  · rw [serveFile, serveCxx_refused node.router h]
    exact fun hsends => not_fileSent_singleton (fun _ _ _ heq => by cases heq) file (sends_ok.mp hsends)
  · obtain ⟨bytes, hb⟩ := serveCxx_served node.router h hshown.1
    rw [serveFile, hb]
    exact ⟨bytes, rfl⟩
  · obtain ⟨fault, hfault⟩ := serveCxx_thrown node.router h fun htext => hshown ⟨htext, hasCookies_nil _⟩
    rw [serveFile, hfault]
    exact ⟨fault, rfl⟩

theorem sends_serveResponse (req : Request) (resp : Response) (file : Bytes) :
    Sends (serveResponse node.router node.files node.publicDirectory req resp node.stack) file ↔
      Leads node (req.path, resp) file := by
  refine sends_leads node (fun h => ?_) (fun h hshown => ?_) (fun h hshown => ?_)
  · have herror : ∃ sent, serveResponse node.router node.files node.publicDirectory req resp node.stack =
        .ok [.error (lit "404"), .raw sent] := by
      unfold serveResponse
      rw [generate_refused node.router req resp node.stack h]
      exact ⟨_, rfl⟩
    obtain ⟨sent, hsent⟩ := herror
    rw [hsent]
    rintro ⟨events, heq, fullPath, parts, bytes, hmem, -⟩
    obtain rfl := Except.ok.inj heq
    simp at hmem
  · obtain ⟨s, hs⟩ := generate_served node.router req resp node.stack h hshown.1 hshown.2
    unfold serveResponse
    rw [hs]
    exact ⟨_, rfl⟩
  · obtain ⟨fault, hfault⟩ := generate_thrown node.router req resp node.stack h hshown
    unfold serveResponse
    rw [hfault]
    exact ⟨fault, rfl⟩

/-- The events of a branch, once it returns. -/
def eventsOf (out : Exec (Served σ)) : Exec (List Event) := out.map Served.events

theorem eventsOf_execAndServe (system : System σ) (req : Request) :
    eventsOf (execAndServe node system req) =
      ((serveFile node (node.router.exec req.path system req).request.path).map ([·])).map
        ((execRoute node system req).1.events ++ ·) := by
  unfold eventsOf execAndServe execRoute
  dsimp only
  cases serveFile node (node.router.exec req.path system req).request.path with
  | error e => rfl
  | ok e => rfl

theorem sends_execAndServe (system : System σ) (req : Request) (file : Bytes) :
    Sends (eventsOf (execAndServe node system req)) file ↔
      Leads node (cstr (node.router.exec req.path system req).request.path, {}) file := by
  have hcall : ¬ FileSent (execRoute node system req).1.events file := by
    unfold execRoute
    exact not_fileSent_call _ _ _ _
  rw [eventsOf_execAndServe, sends_after hcall, sends_serveFile]

theorem fileSent_serveSystem (system : System σ) (req : Request) (file : Bytes) :
    ¬ FileSent (serveSystem node system req).events file := by
  have hcall : ¬ FileSent (execRoute node system req).1.events file := by
    unfold execRoute
    exact not_fileSent_call _ _ _ _
  unfold serveSystem
  dsimp only
  split
  · exact hcall
  · rw [fileSent_append]
    rintro (h | h)
    · exact hcall h
    · exact not_fileSent_singleton (fun _ _ _ h => by cases h) file h

theorem sends_serveResource (system : System σ) (req : Request) (sesh : Option Session) (file : Bytes) :
    Sends (eventsOf (serveResource node system req sesh)) file ↔
      ∃ resp ∈ (node.router.runResource system req sesh).response,
        Leads node ((node.router.runResource system req sesh).request.path, resp) file := by
  unfold serveResource
  dsimp only
  cases (node.router.runResource system req sesh).response with
  | some resp =>
    dsimp only
    set before := if ((node.router.route req.path).bind Route.resource).isSome = true then
      callEvents req.path (node.router.runResource system req sesh).sent else [] with hbefore
    have hcall : ¬ FileSent before file := not_fileSent_call _ _ _ _
    have hevents : ∀ out : Exec (List Event), eventsOf (out.bind fun events =>
        .ok ⟨(node.router.runResource system req sesh).system, (node.router.runResource system req sesh).request,
          before ++ events⟩) = out.map (before ++ ·) := by
      intro out
      cases out <;> rfl
    refine (congrArg (Sends · file) (hevents _)).to_iff.trans ?_
    rw [sends_after hcall, sends_serveResponse]
    simp
  | none =>
    have hcall : ¬ FileSent ((if ((node.router.route req.path).bind Route.resource).isSome = true then
        callEvents req.path (node.router.runResource system req sesh).sent else []) ++ [.error (lit "305")]) file := by
      rw [fileSent_append]
      rintro (h | h)
      · exact not_fileSent_call _ _ _ _ h
      · exact not_fileSent_singleton (fun _ _ _ h => by cases h) file h
    simp only [Option.mem_def, reduceCtorEq, false_and, exists_false, iff_false]
    exact fun h => hcall (sends_ok.mp h)

theorem sends_secureRoute (system : System σ) (req : Request) (file : Bytes) :
    Sends (eventsOf (secureRoute node system req)) file ↔
      ∃ route, node.router.route req.path = some route ∧ route.callback = none ∧
        Leads node (cstr req.path, {}) file := by
  unfold secureRoute
  cases hr : node.router.route req.path with
  | none =>
    simp only [reduceCtorEq, false_and, exists_false, iff_false]
    exact fun h => not_fileSent_singleton (fun _ _ _ h => by cases h) file (sends_ok.mp h)
  | some route =>
    dsimp only
    cases hc : route.callback with
    | some callback =>
      rw [runRoute_callback node hc]
      simp only [Option.some.injEq, exists_eq_left', hc, reduceCtorEq, false_and, iff_false]
      exact fun h => not_fileSent_callEvents _ _ file (sends_ok.mp h)
    | none =>
      have hevents : eventsOf ((serveFile node req.path).map fun e => ⟨system, req, [e]⟩) =
          (serveFile node req.path).map ([·]) := by
        cases serveFile node req.path <;> rfl
      rw [runRoute_file node hr hc, hevents, sends_serveFile]
      simp [hc]

/-- Every branch sends the file its served path leads to with its parts, and no other. -/
theorem sends_serve {now : Int} {system : System σ} {req : Request}
    (hs : (findSession node.prizm now system.sessionManager req).1 = none) (ha : authenticate req = false)
    (file : Bytes) : Sends (eventsOf (serve node now system req)) file ↔
      ∃ served ∈ servedPath node now system req, Leads node served file := by
  unfold serve servedPath checkedSystem
  dsimp only
  cases node.router.protocol req.path with
  | system =>
    dsimp only
    simp only [Option.mem_def, reduceCtorEq, false_and, exists_false, iff_false]
    exact fun h => fileSent_serveSystem node _ req file (sends_ok.mp h)
  | resource =>
    dsimp only
    rw [sends_serveResource, hs]
    simp
  | secure =>
    dsimp only
    rw [hs, serveSecure_unauthenticated node ha]
    have herror : ¬ FileSent [.error (lit "305")] file := not_fileSent_singleton (fun _ _ _ h => by cases h) _
    have hevents : ∀ out : Exec (Served σ), eventsOf (out.map fun second =>
        { second with events := .error (lit "305") :: second.events }) =
          (eventsOf out).map ([.error (lit "305")] ++ ·) := by
      intro out
      cases out <;> rfl
    rw [hevents, sends_after herror, sends_secureRoute]
    cases node.router.route req.path with
    | none => simp
    | some route => cases hc : route.callback <;> simp [hc]
  | iris =>
    dsimp only
    have hevents : ∀ out : Exec Event, eventsOf (out.bind fun e =>
        .ok ⟨{ system with sessionManager := (findSession node.prizm now system.sessionManager req).2 }, req, [e]⟩) =
          out.map ([·]) := by
      intro out
      cases out <;> rfl
    refine (congrArg (Sends · file) (hevents _)).to_iff.trans ?_
    rw [sends_serveFile]
    simp
  | null | http =>
    dsimp only
    rw [sends_execAndServe]
    simp
  | _ =>
    dsimp only
    simp only [Option.mem_def, reduceCtorEq, false_and, exists_false, iff_false]
    exact fun h => not_fileSent_singleton (fun _ _ _ h => by cases h) file (sends_ok.mp h)

/-- A respelled request is kept from the secured file exactly when the path that is served for it
is refused, fails, or leads to another file that the secured one is no part of. -/
theorem respelled_reached_iff {now : Int} {system : System σ} {req : Request} {secured : Bytes}
    (h : Respelled node now system req secured) :
    ¬ Reached node now system req secured ↔ ∀ served ∈ servedPath node now system req,
      Refused node.files node.publicDirectory served.1 ∨
        ¬ (HasText node.router node.files node.publicDirectory served.1 ∧ HasCookies node.files served.2) ∨
        ∀ file ∈ joined node.publicDirectory served.1 ::
            pageParts node.router node.files node.publicDirectory served.1,
          ¬ SameFile file (node.publicDirectory ++ secured) := by
  have hreached : Reached node now system req secured ↔ ∃ file,
      Sends (eventsOf (serve node now system req)) file ∧ SameFile file (node.publicDirectory ++ secured) := by
    constructor
    · rintro ⟨out, file, hout, hfile, hsame⟩
      exact ⟨file, ⟨out.events, map_eq_ok.mpr ⟨out, hout, rfl⟩, hfile⟩, hsame⟩
    · rintro ⟨file, ⟨events, hevents, hfile⟩, hsame⟩
      obtain ⟨out, hout, rfl⟩ := map_eq_ok.mp hevents
      exact ⟨out, file, hout, hfile, hsame⟩
  rw [hreached, not_exists]
  constructor
  · intro hnot served hserved
    refine or_iff_not_imp_left.mpr fun hrefused => or_iff_not_imp_left.mpr fun hshown file hfile hsame => ?_
    refine hnot file ⟨(sends_serve node h.session h.credentials file).mpr ⟨served, hserved, ?_⟩, hsame⟩
    exact ⟨hrefused, not_not.mp hshown, hfile⟩
  · rintro hall file ⟨hsends, hsame⟩
    obtain ⟨served, hserved, hrefused, hshown, hfile⟩ := (sends_serve node h.session h.credentials file).mp hsends
    exact ((hall served hserved).resolve_left hrefused).resolve_left (not_not.mpr hshown) file hfile hsame

/-- A stranger asks for the dashboard under a second spelling. -/
theorem respelled_dashboard {path : Bytes} (hother : path ≠ dashboard)
    (hsame : SameFile (lit "./public/web" ++ path) (lit "./public/web" ++ dashboard)) :
    Respelled pageNode 5 ⟨[], ()⟩ (pageRequest path []) dashboard where
  registered := ⟨pageRoutes fun _ => 0, rfl, by simp [pageRoutes, dashboard]⟩
  other := hother
  same := hsame
  session := rfl
  credentials := rfl
  login := rfl

/-- A spelling of more than a hundred bytes is refused. -/
theorem respelled_reached_long :
    ¬ Reached pageNode 5 ⟨[], ()⟩ (pageRequest (List.replicate 90 slash ++ dashboard) []) dashboard := by
  have hother : List.replicate 90 slash ++ dashboard ≠ dashboard := by decide
  have hsame : SameFile (lit "./public/web" ++ (List.replicate 90 slash ++ dashboard))
      (lit "./public/web" ++ dashboard) := by decide
  have h := respelled_dashboard hother hsame
  refine (respelled_reached_iff pageNode h).mpr fun served hserved => .inl (.inr (.inr ?_))
  have hlong : servedPath pageNode 5 ⟨[], ()⟩ (pageRequest (List.replicate 90 slash ++ dashboard) []) =
      some (List.replicate 90 slash ++ dashboard, {}) := rfl
  rw [hlong] at hserved
  obtain rfl := Option.some.inj hserved
  decide

/-- With a doubled slash or a dot segment the dashboard is sent to anyone. -/
theorem respelled_reached_double_slash :
    (Respelled pageNode 5 ⟨[], ()⟩ (pageRequest (slash :: dashboard) []) dashboard ∧
      Reached pageNode 5 ⟨[], ()⟩ (pageRequest (slash :: dashboard) []) dashboard) ∧
    Respelled pageNode 5 ⟨[], ()⟩ (pageRequest (slash :: fullStop :: dashboard) []) dashboard ∧
      Reached pageNode 5 ⟨[], ()⟩ (pageRequest (slash :: fullStop :: dashboard) []) dashboard := by
  have hdouble := sameFile_double_slash (lit "./public/web") (lit "staging/dashboard.iris")
  have hdot := sameFile_dot_segment (lit "./public/web") (lit "staging/dashboard.iris")
  refine ⟨⟨respelled_dashboard (by decide) hdouble, ?_⟩, respelled_dashboard (by decide) hdot, ?_⟩
  · exact ⟨_, lit "./public/web//staging/dashboard.iris", rfl,
      ⟨_, _, _, List.mem_singleton_self _, List.mem_cons_self⟩, hdouble⟩
  · exact ⟨_, lit "./public/web/./staging/dashboard.iris", rfl,
      ⟨_, _, _, List.mem_singleton_self _, List.mem_cons_self⟩, hdot⟩

end Jericho.Message
