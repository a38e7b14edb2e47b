import Jericho.Server.StaticFiles

/-! The length that a response announces and the body behind it, for the two file servers. -/
namespace Jericho.Server
open StdText Util

variable {σ : Type} (router : Router σ) (files : Files)

/-- The bytes are a head that announces the length of what follows it, and that is the file or its
interpretation. -/
def Declared (front back fullPath contents bytes : Bytes) : Prop :=
  ∃ body, bytes = lengthHead front body.length back ++ body ∧
    (body = contents ∨ Iris.interpret (files.env router) fullPath = .ok body)

/-- The headers that `generate` writes with the cookies of a response. -/
def headersOf (fullPath : Bytes) (resp : Response) : Bytes :=
  responseHeaders fullPath (resp.cookies.map fun cookie => (cookie.generate files.strftime).dropLast)

/-- `serve_cxx` returns, and what it writes is declared. -/
def CxxDeclared (dir path fullPath contents : Bytes) : Prop :=
  ∃ parts bytes, serveCxx router files dir path = .ok (.file fullPath parts bytes) ∧
    Declared router files keepAlive (cxxHeaders fullPath) fullPath contents bytes

/-- `generate` returns, its string is declared, and so are the bytes that `serve` sends of it. -/
def ResponseDeclared (dir fullPath contents : Bytes) (req : Request) (resp : Response) (stack : Bytes) : Prop :=
  ∃ e res parts bytes, generate router files dir req resp stack = .ok (e, res) ∧
    Declared router files keepAlive (headersOf files fullPath resp) fullPath contents res ∧
    serveResponse router files dir req resp stack = .ok [.file fullPath parts bytes] ∧
    Declared router files keepAlive (headersOf files fullPath resp) fullPath contents bytes

/-- A file that is sent for a path. -/
structure Sent (dir path fullPath contents : Bytes) : Prop where
  joined : fullPath = joined dir path
  opened : files.fopen fullPath = some contents
  noUp : ¬ lit ".." <:+: cstr path
  short : (cstr path).length ≤ 100

/-- A text that `serve_cxx` sends whole: no NUL in an HTML text, and a file of another kind is as long as its
interpretation. -/
def CxxReadable (fullPath contents text : Bytes) : Prop :=
  if getContentType fullPath = lit "text/html" then (0 : Byte) ∉ text ∧ text.length < 2 ^ 31
  else contents.length = text.length

/-- A response that `generate` returns whole: no NUL in the text or a cookie, and one right behind the array. -/
structure ResponseReadable (fullPath : Bytes) (resp : Response) (stack text : Bytes) : Prop where
  noZero : (0 : Byte) ∉ text
  cookies : ∀ cookie ∈ resp.cookies, cookie.generate files.strftime ≠ [] ∧
    (0 : Byte) ∉ (cookie.generate files.strftime).dropLast
  stack : cstr stack = []
  short : (lengthHead keepAlive text.length (headersOf files fullPath resp) ++ text).length < 2 ^ 31

variable {router files} {dir fullPath contents : Bytes} {front back : Bytes}

theorem Sent.not_refused {path : Bytes} (h : Sent files dir path fullPath contents) : ¬ Refused files dir path := by
  rintro (hnone | hup | hlong)
  · rw [← h.joined, h.opened] at hnone
    cases hnone
  · exact h.noUp hup
  · exact Nat.not_lt.mpr h.short hlong

theorem asInt_length_iff {n m : Nat} (h : n ≤ m) : m ≤ (asInt n).toNat ↔ n = m ∧ m < 2 ^ 31 := by
  obtain ⟨hneg, hpos⟩ := asInt_nat n
  by_cases hsmall : n % 2 ^ 32 < 2 ^ 31
  · rw [hpos hsmall]
    omega
  · have hbelow := hneg.mpr (by omega)
    have hzero : (asInt n).toNat = 0 := Int.toNat_of_nonpos hbelow.le
    rw [hzero]
    omega

/-- The announced length can be read off. -/
theorem lengthHead_inj {n m : Nat} {x y : Bytes} (h : lengthHead front n back ++ x = lengthHead front m back ++ y) :
    n = m ∧ x = y := by
  unfold lengthHead at h
  simp only [List.append_assoc] at h
  have h := List.append_cancel_left (List.append_cancel_left h)
  have hdigits : ∀ (k : Nat) (rest : Bytes), (decimal k ++ (crlf ++ rest)).takeWhile isdigit = decimal k := by
    intro k rest
    rw [List.takeWhile_append_of_pos fun c hc => isdigit_of_mem_decimal hc]
    exact List.append_nil _
  have hsame : decimal n = decimal m := by
    rw [← hdigits n (back ++ x), h, hdigits]
  obtain rfl : n = m := by
    rw [← digitsValue_decimal n, hsame, digitsValue_decimal]
  exact ⟨rfl, List.append_cancel_left (List.append_cancel_left (List.append_cancel_left h))⟩

theorem declared_head_iff {n : Nat} {body : Bytes} :
    Declared router files front back fullPath contents (lengthHead front n back ++ body) ↔
      body.length = n ∧ (body = contents ∨ Iris.interpret (files.env router) fullPath = .ok body) := by
  constructor
  · rintro ⟨other, hother, hfile⟩
    obtain ⟨rfl, rfl⟩ := lengthHead_inj hother
    exact ⟨rfl, hfile⟩
  · rintro ⟨rfl, hfile⟩
    exact ⟨body, rfl, hfile⟩

/-- The start of a response that announces what follows it is the whole response. -/
theorem declared_prefix {n : Nat} {bytes more : Bytes} (hpre : bytes <+: lengthHead front n back ++ more)
    (h : Declared router files front back fullPath contents bytes) :
    bytes = lengthHead front n back ++ more.take n := by
  obtain ⟨body, rfl, -⟩ := h
  obtain ⟨rest, hrest⟩ := hpre
  rw [List.append_assoc] at hrest
  obtain ⟨rfl, rfl⟩ := lengthHead_inj hrest
  rw [List.take_left]

/-- The text of a file is the file or its interpretation. -/
theorem fileContents_or {text : Bytes} (h : fileContents router files fullPath contents = .ok text) :
    text = contents ∨ Iris.interpret (files.env router) fullPath = .ok text := by
  unfold fileContents at h
  split_ifs at h
  · exact .inr h
  · exact .inl (Except.ok.inj h).symm

/-- The bytes that `serve_cxx` writes for a text. -/
theorem cxxBytes_declared_iff {text : Bytes} (h : fileContents router files fullPath contents = .ok text) :
    Declared router files keepAlive (cxxHeaders fullPath) fullPath contents (cxxBytes fullPath contents text) ↔
      CxxReadable fullPath contents text := by
  unfold cxxBytes CxxReadable cxxBody
  rw [declared_head_iff]
  have hfile := fileContents_or h
  split_ifs with htype
  · have hcount := asInt_length_iff (cstr_length_le text)
    unfold sslWrite
    rw [List.length_take, min_eq_right_iff, hcount, cstr_length_eq_iff]
    constructor
    · exact fun h => h.1
    · intro h
      rw [List.take_of_length_le (hcount.mpr ⟨cstr_length_eq_iff.mpr h.1, h.2⟩)]
      exact ⟨h, hfile⟩
  · exact ⟨fun h => h.1, fun h => ⟨h, .inl rfl⟩⟩

theorem cxx_declared_iff {path : Bytes} (h : Sent files dir (cstr path) fullPath contents) :
    CxxDeclared router files dir path fullPath contents ↔
      ∃ text, fileContents router files fullPath contents = .ok text ∧ CxxReadable fullPath contents text := by
  obtain ⟨contents', hopen, hserve⟩ := serveCxx_opened router h.not_refused
  rw [← h.joined] at hopen hserve
  obtain rfl := Option.some.inj (h.opened.symm.trans hopen)
  unfold CxxDeclared
  rw [hserve]
  constructor
  · rintro ⟨parts, bytes, hbytes, hdeclared⟩
    obtain ⟨text, htext, hfile⟩ := map_eq_ok.mp hbytes
    obtain ⟨-, -, rfl⟩ := Event.file.inj hfile
    exact ⟨text, htext, (cxxBytes_declared_iff htext).mp hdeclared⟩
  · rintro ⟨text, htext, hreadable⟩
    rw [htext]
    exact ⟨_, _, rfl, (cxxBytes_declared_iff htext).mpr hreadable⟩

theorem zero_notMem_getContentType (path : Bytes) : (0 : Byte) ∉ getContentType path := by
  have hall : ∀ entry ∈ contentTypes, (0 : Byte) ∉ entry.2 := by decide
  have hother : (0 : Byte) ∉ lit "application/octet-stream" := by decide
  unfold getContentType
  dsimp only
  split_ifs
  · cases hfind : contentTypes.lookup (46 :: (path.reverse.takeWhile (· ≠ 46)).reverse) with
    | none => exact hother
    | some type =>
      rw [List.lookup_eq_findSome?] at hfind
      obtain ⟨entry, hmem, hentry⟩ := List.exists_of_findSome?_eq_some hfind
      split_ifs at hentry
      rw [← Option.some.inj hentry]
      exact hall entry hmem
  · exact hother

/-- The head has a NUL only where a cookie has one. -/
theorem zero_notMem_head_iff (files : Files) (fullPath : Bytes) (resp : Response) (n : Nat) :
    (0 : Byte) ∉ lengthHead keepAlive n (headersOf files fullPath resp) ↔
      ∀ cookie ∈ resp.cookies, (0 : Byte) ∉ (cookie.generate files.strftime).dropLast := by
  have hcrlf : (0 : Byte) ∉ crlf := by decide
  have hset : (0 : Byte) ∉ lit "Set-Cookie: " := by decide
  have hfixed : (0 : Byte) ∉ keepAlive ∧ (0 : Byte) ∉ lit "Content-Length: " ∧ (0 : Byte) ∉ lit "Content-Type: " := by
    refine ⟨by decide, by decide, by decide⟩
  have hdecimal : (0 : Byte) ∉ decimal n := notMem_decimal (by decide) n
  unfold lengthHead headersOf responseHeaders
  simp only [List.mem_append, List.mem_flatMap, List.forall_mem_map, hcrlf, hset, hfixed, hdecimal,
    zero_notMem_getContentType, false_or, or_false, not_exists, not_and]

/-- What `generate` returns for an opened file, and what `serve` sends of it. -/
theorem generate_eq_ok {req : Request} (h : Sent files dir req.path fullPath contents) (resp : Response)
    (stack : Bytes) {e : Event} {res : Bytes} :
    generate router files dir req resp stack = .ok (e, res) ↔ HasCookies files resp ∧
      ∃ text, fileContents router files fullPath contents = .ok text ∧
        res = cstr (lengthHead keepAlive text.length (headersOf files fullPath resp) ++ (text ++ stack)) ∧
          e = .file fullPath (pageParts router files dir req.path) res := by
  obtain ⟨contents', hopen, hgenerate⟩ := generate_opened router req resp stack h.not_refused
  rw [← h.joined] at hopen hgenerate
  obtain rfl := Option.some.inj (h.opened.symm.trans hopen)
  rw [hgenerate, bind_eq_ok]
  constructor
  · rintro ⟨text, htext, hrest⟩
    obtain ⟨cookies, hcookies, hres⟩ := bind_eq_ok.mp hrest
    obtain ⟨hhas, rfl⟩ := (cookieTexts_eq_ok resp).mp hcookies
    obtain ⟨rfl, rfl⟩ := Prod.mk.inj (Except.ok.inj hres)
    rw [List.append_assoc]
    exact ⟨hhas, text, htext, rfl, rfl⟩
  · rintro ⟨hhas, text, htext, rfl, rfl⟩
    refine ⟨text, htext, bind_eq_ok.mpr ⟨_, (cookieTexts_eq_ok resp).mpr ⟨hhas, rfl⟩, ?_⟩⟩
    rw [List.append_assoc]
    rfl

theorem serveResponse_of_file {req : Request} {resp : Response} {stack res : Bytes} {parts : List Bytes}
    (h : generate router files dir req resp stack = .ok (.file fullPath parts res, res)) :
    serveResponse router files dir req resp stack =
      .ok [.file fullPath parts (sslWrite res (asInt res.length))] := by
  unfold serveResponse
  rw [h]
  rfl

theorem response_declared_iff {req : Request} (h : Sent files dir req.path fullPath contents) (resp : Response)
    (stack : Bytes) : ResponseDeclared router files dir fullPath contents req resp stack ↔
      ∃ text, fileContents router files fullPath contents = .ok text ∧
        ResponseReadable files fullPath resp stack text := by
  constructor
  · rintro ⟨e, res, parts, bytes, hgenerate, hreturned, hserve, hsent⟩
    obtain ⟨hcookies, text, htext, rfl, rfl⟩ := (generate_eq_ok h resp stack).mp hgenerate
    have hhead := zero_notMem_head_iff files fullPath resp text.length
    rw [serveResponse_of_file hgenerate] at hserve
    obtain ⟨-, -, rfl⟩ := Event.file.inj (List.singleton_inj.mp (Except.ok.inj hserve))
    have hwhole := declared_prefix (cstr_isPrefix _) hreturned
    rw [List.take_left] at hwhole
    have hzero := zero_notMem_cstr (lengthHead keepAlive text.length (headersOf files fullPath resp) ++ (text ++ stack))
    rw [hwhole] at hsent hzero
    refine ⟨text, htext, fun hmem => hzero (List.mem_append_right _ hmem),
      fun cookie hmem => ⟨hcookies cookie hmem, ?_⟩, ?_, ?_⟩
    · exact hhead.mp (fun hmem => hzero (List.mem_append_left _ hmem)) cookie hmem
    · rw [← List.append_assoc, cstr_append hzero] at hwhole
      exact List.append_right_eq_self.mp hwhole
    · have hall := declared_prefix (List.take_prefix _ _) hsent
      rw [List.take_length] at hall
      have hlength := congrArg List.length hall
      rw [List.length_take, min_eq_right_iff] at hlength
      exact ((asInt_length_iff le_rfl).mp hlength).2
  · rintro ⟨text, htext, hreadable⟩
    have hzero := (zero_notMem_head_iff files fullPath resp text.length).mpr fun cookie hmem =>
      (hreadable.cookies cookie hmem).2
    have hfile := fileContents_or htext
    have hres : cstr (lengthHead keepAlive text.length (headersOf files fullPath resp) ++ (text ++ stack)) =
        lengthHead keepAlive text.length (headersOf files fullPath resp) ++ text := by
      rw [cstr_append hzero, cstr_append hreadable.noZero, hreadable.stack, List.append_nil]
    have hgenerate := (generate_eq_ok h resp stack).mpr
      ⟨fun cookie hmem => (hreadable.cookies cookie hmem).1, text, htext, hres.symm, rfl⟩
    refine ⟨_, _, _, _, hgenerate, declared_head_iff.mpr ⟨rfl, hfile⟩, serveResponse_of_file hgenerate, ?_⟩
    unfold sslWrite
    rw [List.take_of_length_le ((asInt_length_iff le_rfl).mpr ⟨rfl, hreadable.short⟩)]
    exact declared_head_iff.mpr ⟨rfl, hfile⟩

/-- When the length that is announced is the length of what is sent, for both servers. -/
theorem declared_iff {path : Bytes} {req : Request} (hpath : Sent files dir (cstr path) fullPath contents)
    (hreq : Sent files dir req.path fullPath contents) (resp : Response) (stack : Bytes) :
    (CxxDeclared router files dir path fullPath contents ↔
      ∃ text, fileContents router files fullPath contents = .ok text ∧ CxxReadable fullPath contents text) ∧
    (ResponseDeclared router files dir fullPath contents req resp stack ↔
      ∃ text, fileContents router files fullPath contents = .ok text ∧
        ResponseReadable files fullPath resp stack text) :=
  ⟨cxx_declared_iff hpath, response_declared_iff hreq resp stack⟩

/-- A directory in which every name opens the same file. -/
def sameFile (contents : Bytes) : Files where
  fopen _ := some contents
  getDir _ := []
  parseForm _ := .ok []
  parseTemp _ _ := .ok []
  strftime _ := []

theorem sameFile_sent (contents : Bytes) :
    Sent (sameFile contents) [] (lit "/a.html") (lit "/a.html") contents :=
  ⟨rfl, rfl, by decide, by decide⟩

def pageRequest : Request := { client := ⟨[], Nat.zero_le _, []⟩, path := lit "/a.html" }

theorem declared_page :
    CxxDeclared ({} : Router Unit) (sameFile (lit "a")) [] (lit "/a.html") (lit "/a.html") (lit "a") ∧
      ResponseDeclared ({} : Router Unit) (sameFile (lit "a")) [] (lit "/a.html") (lit "a") pageRequest {} [] := by
  have hsent := sameFile_sent (lit "a")
  obtain ⟨hcxx, hresponse⟩ := @declared_iff Unit {} _ _ _ _ (lit "/a.html") pageRequest hsent hsent {} []
  have htext : fileContents ({} : Router Unit) (sameFile (lit "a")) (lit "/a.html") (lit "a") = .ok (lit "a") := by decide
  have htype : getContentType (lit "/a.html") = lit "text/html" := by decide
  refine ⟨hcxx.mpr ⟨_, htext, ?_⟩, hresponse.mpr ⟨_, htext, ?_, fun _ hmem => absurd hmem List.not_mem_nil, rfl, ?_⟩⟩
  · unfold CxxReadable
    rw [if_pos htype]
    exact ⟨by decide, by decide⟩
  · decide
  · decide

/-- A NUL in a page, and a byte behind the array. -/
theorem declared_wrong :
    ¬ CxxDeclared ({} : Router Unit) (sameFile [0]) [] (lit "/a.html") (lit "/a.html") [0] ∧
      ¬ ResponseDeclared ({} : Router Unit) (sameFile (lit "a")) [] (lit "/a.html") (lit "a") pageRequest {}
        (lit "b") := by
  constructor
  · intro h
    obtain ⟨text, htext, hreadable⟩ := (cxx_declared_iff (sameFile_sent [0])).mp h
    have hzero : fileContents ({} : Router Unit) (sameFile [0]) (lit "/a.html") [0] = .ok [0] := by decide
    obtain rfl := Except.ok.inj (hzero.symm.trans htext)
    have htype : getContentType (lit "/a.html") = lit "text/html" := by decide
    unfold CxxReadable at hreadable
    rw [if_pos htype] at hreadable
    exact hreadable.1 List.mem_cons_self
  · intro h
    have hsent : Sent (sameFile (lit "a")) [] pageRequest.path (lit "/a.html") (lit "a") := sameFile_sent (lit "a")
    obtain ⟨text, -, hreadable⟩ := (response_declared_iff hsent {} (lit "b")).mp h
    have hstack := hreadable.stack
    revert hstack
    decide

end Jericho.Server
