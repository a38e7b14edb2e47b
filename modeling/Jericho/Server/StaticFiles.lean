import Jericho.Server.Response

/-! Which files the two file servers can reach from the public directory. -/
namespace Jericho.Server
open StdText Util LexicalPath

def slash : Byte := 47
def fullStop : Byte := 46

/-- `main`: a directory argument with two dots in a row ends the program. -/
def publicDirectory (argv : Bytes) : Option Bytes :=
  if (Occurrence.find (lit "..") argv).isSome then none else some (lit "./public/" ++ cstr argv)

/-- The file behind a path. -/
def joined (dir path : Bytes) : Bytes := cstr (dir ++ indexPage path)

/-- One of the three tests before a file is sent fails. -/
def Refused (files : Files) (dir path : Bytes) : Prop :=
  files.fopen (joined dir path) = none ∨ lit ".." <:+: cstr path ∨ 100 < (cstr path).length

variable {σ : Type} (router : Router σ) (files : Files)

/-- The file behind a path opens, and is no template or one whose interpretation returns. -/
def HasText (dir path : Bytes) : Prop :=
  ∃ contents text, files.fopen (joined dir path) = some contents ∧
    fileContents router files (joined dir path) contents = .ok text

/-- The files that are put into the one behind a path. -/
def pageParts (dir path : Bytes) : List Bytes :=
  ((files.fopen (joined dir path)).map (fileParts router files (joined dir path))).getD []

/-- The answer is the 404 page, or everything that was sent is from files strictly below the directory. -/
def Confined (dir : Bytes) (e : Exec Event) : Prop :=
  e = .ok (.error (lit "404")) ∨ ∃ fullPath parts bytes, e = .ok (.file fullPath parts bytes) ∧
    ∀ file ∈ fullPath :: parts, Inside slash fullStop dir file

theorem isSome_find_iff {pat s : Bytes} : (Occurrence.find pat s).isSome ↔ pat <:+: s := by
  rw [← not_iff_not, Bool.not_eq_true, Option.isSome_eq_false_iff, Option.isNone_iff_eq_none,
    Occurrence.find_eq_none_iff]

variable {files} {dir : Bytes}

theorem serveCxx_refused {path : Bytes} (h : Refused files dir (cstr path)) :
    serveCxx router files dir path = .ok (.error (lit "404")) := by
  unfold Refused at h
  rw [← isSome_find_iff, cstr_cstr] at h
  unfold serveCxx
  dsimp only
  cases hopen : files.fopen (cstr (dir ++ indexPage (cstr path))) with
  | none => rfl
  | some contents =>
    have hsome : files.fopen (joined dir (cstr path)) ≠ none := fun hnone => by
      rw [joined, hopen] at hnone
      cases hnone
    rcases h.resolve_left hsome with hup | hlong
    · simp [hup]
    · simp [hlong]

/-- A path that is not refused is that of an opened file, which passes the two other tests. -/
theorem not_refused {path : Bytes} (h : ¬ Refused files dir path) :
    ∃ contents, files.fopen (joined dir path) = some contents ∧
      ¬ (Occurrence.find (lit "..") (cstr path)).isSome = true ∧ ¬ 100 < (cstr path).length := by
  unfold Refused at h
  rw [← isSome_find_iff] at h
  push Not at h
  obtain ⟨hopen, hup, hlong⟩ := h
  obtain ⟨contents, hcontents⟩ := Option.ne_none_iff_exists'.mp hopen
  exact ⟨contents, hcontents, hup, Nat.not_lt.mpr hlong⟩

/-- What `serve_cxx` does with an opened file. -/
theorem serveCxx_opened {path : Bytes} (h : ¬ Refused files dir (cstr path)) :
    ∃ contents, files.fopen (joined dir (cstr path)) = some contents ∧ serveCxx router files dir path =
      (fileContents router files (joined dir (cstr path)) contents).map fun text =>
        .file (joined dir (cstr path)) (pageParts router files dir (cstr path))
          (cxxBytes (joined dir (cstr path)) contents text) := by
  obtain ⟨contents, hopen, hup, hlong⟩ := not_refused h
  rw [cstr_cstr] at hup hlong
  have hparts : pageParts router files dir (cstr path) = fileParts router files (joined dir (cstr path)) contents := by
    unfold pageParts
    rw [hopen]
    rfl
  refine ⟨contents, hopen, ?_⟩
  rw [hparts]
  unfold joined at hopen ⊢
  unfold serveCxx
  dsimp only
  rw [hopen]
  dsimp only
  rw [if_neg hup, if_neg hlong]
  exact bind_return _ _

theorem serveCxx_served {path : Bytes} (h : ¬ Refused files dir (cstr path))
    (htext : HasText router files dir (cstr path)) :
    ∃ bytes, serveCxx router files dir path =
      .ok (.file (joined dir (cstr path)) (pageParts router files dir (cstr path)) bytes) := by
  obtain ⟨contents, hopen, hserve⟩ := serveCxx_opened router h
  obtain ⟨contents', text, hopen', htext⟩ := htext
  obtain rfl := Option.some.inj (hopen.symm.trans hopen')
  rw [hserve, htext]
  exact ⟨_, rfl⟩

/-- A page whose interpretation throws is not answered. -/
theorem serveCxx_thrown {path : Bytes} (h : ¬ Refused files dir (cstr path))
    (htext : ¬ HasText router files dir (cstr path)) : ∃ e, serveCxx router files dir path = .error e := by
  obtain ⟨contents, hopen, hserve⟩ := serveCxx_opened router h
  cases hcontents : fileContents router files (joined dir (cstr path)) contents with
  | error e =>
    rw [hserve, hcontents]
    exact ⟨e, rfl⟩
  | ok text => exact absurd ⟨contents, text, hopen, hcontents⟩ htext

variable (req : Request) (resp : Response) (stack : Bytes)

theorem generate_refused (h : Refused files dir req.path) :
    generate router files dir req resp stack = .ok (.error (lit "404"), lit "ERROR") := by
  unfold Refused at h
  rw [← isSome_find_iff] at h
  unfold generate
  dsimp only
  cases hopen : files.fopen (cstr (dir ++ indexPage req.path)) with
  | none => rfl
  | some contents =>
    have hsome : files.fopen (joined dir req.path) ≠ none := fun hnone => by
      rw [joined, hopen] at hnone
      cases hnone
    rcases h.resolve_left hsome with hup | hlong
    · simp [hup]
    · simp [hlong]

/-- The texts of the cookies of a response, each without its last byte. -/
def cookieTexts (files : Files) (resp : Response) : Exec (List Bytes) :=
  resp.cookies.mapM fun cookie => popBack (cookie.generate files.strftime)

/-- No cookie is without a text, from which the last byte is taken off all the same. -/
def HasCookies (files : Files) (resp : Response) : Prop :=
  ∀ cookie ∈ resp.cookies, cookie.generate files.strftime ≠ []

theorem popBack_eq_ok {s t : Bytes} : popBack s = .ok t ↔ s ≠ [] ∧ t = s.dropLast := by
  unfold popBack
  split_ifs with h
  · constructor
    · intro he
      cases he
    · exact fun hne => absurd h hne.1
  · exact ⟨fun he => ⟨h, (Except.ok.inj he).symm⟩, fun hne => congrArg Except.ok hne.2.symm⟩

theorem cookieTexts_eq_ok {texts : List Bytes} : cookieTexts files resp = .ok texts ↔
    HasCookies files resp ∧ texts = resp.cookies.map fun cookie => (cookie.generate files.strftime).dropLast := by
  unfold cookieTexts HasCookies
  generalize resp.cookies = cookies
  induction cookies generalizing texts with
  | nil =>
    constructor
    · intro h
      exact ⟨fun _ hmem => absurd hmem List.not_mem_nil, (Except.ok.inj h).symm⟩
    · rintro ⟨-, rfl⟩
      rfl
  | cons cookie cookies ih =>
    rw [List.forall_mem_cons, List.map_cons]
    constructor
    · intro h
      obtain ⟨text, texts', htext, htexts, rfl⟩ := mapM_cons_ok h
      obtain ⟨hcookie, rfl⟩ := popBack_eq_ok.mp htext
      obtain ⟨hcookies, rfl⟩ := ih.mp htexts
      exact ⟨⟨hcookie, hcookies⟩, rfl⟩
    · rintro ⟨⟨hcookie, hcookies⟩, rfl⟩
      rw [List.mapM_cons, popBack_eq_ok.mpr ⟨hcookie, rfl⟩, ih.mpr ⟨hcookies, rfl⟩]
      rfl

theorem cookieTexts_error (h : ¬ HasCookies files resp) : ∃ e, cookieTexts files resp = .error e := by
  cases htexts : cookieTexts files resp with
  | error e => exact ⟨e, rfl⟩
  | ok texts => exact absurd ((cookieTexts_eq_ok resp).mp htexts).1 h

/-- What `generate` does with an opened file. -/
theorem generate_opened (h : ¬ Refused files dir req.path) :
    ∃ contents, files.fopen (joined dir req.path) = some contents ∧ generate router files dir req resp stack = (do
      let text ← fileContents router files (joined dir req.path) contents
      let cookies ← cookieTexts files resp
      let s := cstr (lengthHead keepAlive text.length (responseHeaders (joined dir req.path) cookies) ++ text ++ stack)
      return (.file (joined dir req.path) (pageParts router files dir req.path) s, s)) := by
  obtain ⟨contents, hopen, hup, hlong⟩ := not_refused h
  have hparts : pageParts router files dir req.path = fileParts router files (joined dir req.path) contents := by
    unfold pageParts
    rw [hopen]
    rfl
  refine ⟨contents, hopen, ?_⟩
  rw [hparts]
  unfold joined at hopen ⊢
  unfold generate
  dsimp only
  rw [hopen]
  dsimp only
  rw [if_neg hup, if_neg hlong]
  rfl

theorem generate_served (h : ¬ Refused files dir req.path) (htext : HasText router files dir req.path)
    (hcookies : HasCookies files resp) :
    ∃ s, generate router files dir req resp stack =
      .ok (.file (joined dir req.path) (pageParts router files dir req.path) s, s) := by
  obtain ⟨contents, hopen, hgenerate⟩ := generate_opened router req resp stack h
  obtain ⟨contents', text, hopen', htext⟩ := htext
  obtain rfl := Option.some.inj (hopen.symm.trans hopen')
  rw [hgenerate, htext, (cookieTexts_eq_ok resp).mpr ⟨hcookies, rfl⟩]
  exact ⟨_, rfl⟩

theorem generate_thrown (h : ¬ Refused files dir req.path)
    (htext : ¬ (HasText router files dir req.path ∧ HasCookies files resp)) :
    ∃ e, generate router files dir req resp stack = .error e := by
  obtain ⟨contents, hopen, hgenerate⟩ := generate_opened router req resp stack h
  cases hcontents : fileContents router files (joined dir req.path) contents with
  | error e =>
    rw [hgenerate, hcontents]
    exact ⟨e, rfl⟩
  | ok text =>
    have hnot : ¬ HasCookies files resp := fun hcookies => htext ⟨⟨contents, text, hopen, hcontents⟩, hcookies⟩
    obtain ⟨e, he⟩ := cookieTexts_error resp hnot
    rw [hgenerate, hcontents, he]
    exact ⟨e, rfl⟩

/-- A directory `main` accepts is a C string without two dots in a row. -/
theorem publicDirectory_spec {argv dir : Bytes} (h : publicDirectory argv = some dir) :
    (0 : Byte) ∉ dir ∧ ¬ [fullStop, fullStop] <:+: dir := by
  unfold publicDirectory at h
  split_ifs at h with hup
  obtain rfl := Option.some.inj h
  rw [isSome_find_iff] at hup
  have hpub : lit "./public/" = [46, 47, 112, 117, 98, 108, 105, 99, 47] := by decide
  have hdd : lit ".." = [fullStop, fullStop] := by decide
  refine ⟨?_, fun hin => hup ?_⟩
  · rw [List.mem_append, not_or]
    exact ⟨by decide, zero_notMem_cstr _⟩
  · rw [hpub] at hin
    simp only [List.cons_append, List.nil_append, List.infix_cons_iff, fullStop, List.cons_prefix_cons] at hin
    have hsub : [fullStop, fullStop] <:+: cstr argv := by simpa [fullStop] using hin
    rw [hdd]
    exact hsub.trans (cstr_isPrefix argv).isInfix

/-- The C string of a page has no two dots in a row when the one of the path has none. -/
theorem indexPage_noUp {path : Bytes} (h : ¬ lit ".." <:+: cstr path) :
    ¬ [fullStop, fullStop] <:+: cstr (indexPage path) := by
  have hdd : lit ".." = [fullStop, fullStop] := by decide
  rw [← hdd]
  unfold indexPage
  split
  · decide
  · exact h

/-- Where a file that passes the tests lies. -/
theorem inside_iff_below {argv dir : Bytes} (hd : publicDirectory argv = some dir) {path : Bytes}
    (hup : ¬ lit ".." <:+: cstr path) :
    Inside slash fullStop dir (cstr (dir ++ indexPage path)) ↔
      Below slash fullStop dir (cstr (indexPage path)) := by
  obtain ⟨hzero, hdots⟩ := publicDirectory_spec hd
  rw [cstr_append hzero]
  exact inside_append_iff hdots (indexPage_noUp hup)

/-- Serving is confined to the public directory exactly when the path is refused, or stays below the directory when it
is appended to it and the page returns and has no parts from elsewhere; the two copies of the check agree on this. -/
theorem static_serving_confined_iff {argv dir : Bytes} (hd : publicDirectory argv = some dir) (router : Router σ)
    (files : Files) (path : Bytes) (req : Request) (resp : Response) (stack : Bytes) :
    (Confined dir (serveCxx router files dir path) ↔ Refused files dir (cstr path) ∨
      HasText router files dir (cstr path) ∧ Below slash fullStop dir (cstr (indexPage (cstr path))) ∧
        ∀ part ∈ pageParts router files dir (cstr path), Inside slash fullStop dir part) ∧
    (Confined dir ((generate router files dir req resp stack).map Prod.fst) ↔ Refused files dir req.path ∨
      (HasText router files dir req.path ∧ HasCookies files resp) ∧
        Below slash fullStop dir (cstr (indexPage req.path)) ∧
          ∀ part ∈ pageParts router files dir req.path, Inside slash fullStop dir part) := by
  have hmain : ∀ (p : Bytes) (shown : Prop) (e : Exec Event), (Refused files dir p → e = .ok (.error (lit "404"))) →
      (¬ Refused files dir p → shown → ∃ bytes, e = .ok (.file (joined dir p) (pageParts router files dir p) bytes)) →
      (¬ Refused files dir p → ¬ shown → ∃ fault, e = .error fault) →
      (Confined dir e ↔ Refused files dir p ∨ shown ∧ Below slash fullStop dir (cstr (indexPage p)) ∧
        ∀ part ∈ pageParts router files dir p, Inside slash fullStop dir part) := by
    intro p shown e hrefused hserved hthrown
    by_cases h : Refused files dir p
    · simp [Confined, hrefused h, h]
    · by_cases hshown : shown
      · obtain ⟨bytes, he⟩ := hserved h hshown
        have hup : ¬ lit ".." <:+: cstr p := fun hin => h (.inr (.inl hin))
        rw [← inside_iff_below hd hup]
        simp [Confined, he, h, hshown, joined]
      · obtain ⟨fault, he⟩ := hthrown h hshown
        simp [Confined, he, h, hshown]
  refine ⟨hmain _ _ _ (serveCxx_refused router) (serveCxx_served router) (serveCxx_thrown router),
    hmain _ _ _ (fun h => ?_) (fun h hshown => ?_) (fun h hshown => ?_)⟩
  · rw [generate_refused router req resp stack h]
    rfl
  · obtain ⟨s, hs⟩ := generate_served router req resp stack h hshown.1 hshown.2
    rw [hs]
    exact ⟨s, rfl⟩
  · obtain ⟨fault, hfault⟩ := generate_thrown router req resp stack h hshown
    rw [hfault]
    exact ⟨fault, rfl⟩

/-- Files of which every path opens. -/
def openFiles : Files where
  fopen _ := some []
  getDir _ := []
  parseForm _ := .ok []
  parseTemp _ _ := .ok []
  strftime _ := []

theorem static_serving_confined_slash :
    Confined (lit "./public/web") (serveCxx ({} : Router Unit) openFiles (lit "./public/web") (lit "/app.js")) := by
  have hd : publicDirectory (lit "web") = some (lit "./public/web") := by decide
  have hiff := (static_serving_confined_iff hd ({} : Router Unit) openFiles (lit "/app.js")
    { client := ⟨[], by decide, []⟩ } {} []).1
  refine hiff.mpr (.inr ⟨⟨[], [], rfl, rfl⟩, ?_, fun part hpart => absurd hpart List.not_mem_nil⟩)
  have hpath : cstr (indexPage (cstr (lit "/app.js"))) = slash :: lit "app.js" := by decide
  rw [hpath, below_cons_sep]
  decide

/-- A page with a part from a package. -/
def packageFiles : Files :=
  { openFiles with
    fopen := fun path =>
      if path = lit "./public/web/a.html" then some (lit "$[idoc]$$[ipart]\x7b@p.x\x7d$\n")
      else if path = lit "./public/frontend/p/_x" then some (lit "part")
      else none
    getDir := fun dir => if dir = lit "./public/frontend/p/" then [lit "_x"] else [] }

/-- Without a leading slash the path lengthens the directory's own name; and a page can have a part of a package, which
is elsewhere. -/
theorem static_serving_confined_sibling :
    publicDirectory (lit "web") = some (lit "./public/web") ∧
    ¬ Confined (lit "./public/web")
      (serveCxx ({} : Router Unit) openFiles (lit "./public/web") (lit "-private/secret.txt")) ∧
    ¬ Confined (lit "./public/web") (serveCxx ({} : Router Unit) packageFiles (lit "./public/web") (lit "/a.html")) := by
  have hd : publicDirectory (lit "web") = some (lit "./public/web") := by decide
  have houtside : ∀ file : Bytes, (normalize slash fullStop file).take 2 ≠ [lit "public", lit "web"] →
      ¬ Inside slash fullStop (lit "./public/web") file := by
    rintro file htake ⟨rest, -, -, hinside⟩
    have hdir : normalize slash fullStop (lit "./public/web") = [lit "public", lit "web"] := by decide
    rw [hinside, hdir] at htake
    exact htake (List.take_append_of_le_length (by decide))
  refine ⟨hd, ?_, ?_⟩
  · rintro (h | ⟨fullPath, parts, bytes, he, hinside⟩)
    · revert h
      decide
    · have hserved : ∃ sent, serveCxx ({} : Router Unit) openFiles (lit "./public/web") (lit "-private/secret.txt") =
          .ok (.file (lit "./public/web-private/secret.txt") [] sent) := ⟨_, rfl⟩
      obtain ⟨sent, hsent⟩ := hserved
      rw [hsent] at he
      obtain ⟨rfl, -, -⟩ := Event.file.inj (Except.ok.inj he)
      exact houtside _ (by decide) (hinside _ List.mem_cons_self)
  · intro h
    have hiff := (static_serving_confined_iff hd ({} : Router Unit) packageFiles (lit "/a.html")
      { client := ⟨[], by decide, []⟩ } {} []).1
    rcases hiff.mp h with hrefused | ⟨-, -, hparts⟩
    · have hnot : ¬ Refused packageFiles (lit "./public/web") (cstr (lit "/a.html")) := by
        unfold Refused
        decide
      exact hnot hrefused
    · have hmem : lit "./public/frontend/p/_x" ∈
          pageParts ({} : Router Unit) packageFiles (lit "./public/web") (cstr (lit "/a.html")) := by decide +kernel
      exact houtside _ (by decide) (hparts _ hmem)

end Jericho.Server
