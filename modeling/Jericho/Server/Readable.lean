import Jericho.Server.Wire

/-! When `Request::eval` returns. Numbers are read from three kinds of header: the size of the body,
the numbers of a callback, and the body itself where it is an octet stream. -/
namespace Jericho.Server
open StdText Util Message Crypt

/-- The header text and the content, as `eval` cuts them. -/
def evalSplit (bytes : Bytes) : Bytes × Bytes :=
  if (Occurrence.find crlf2 bytes).getD npos ≠ (bytes.length + 2^64 - 4) % 2^64 then
    match Occurrence.tokens crlf2 bytes with
    | [headersStr, content] => (headersStr, content)
    | _ => ([], [])
  else (bytes, [])

variable (prizm : Prizm)

/-- The header on a line. -/
def lineField (word : Bytes) : Option Field :=
  (Occurrence.find (lit ": ") word).map fun sep => ⟨word.take sep, prizm.erase (word.drop (sep + 2)) 13⟩

/-- The headers of a text: its first line is none. -/
def headerFields (headerStr : Bytes) : List Field := (headerWords headerStr).tail.filterMap (lineField prizm)

def requestLine (headerStr : Bytes) : RequestLine := ((headerWords headerStr).headD []).foldl RequestLine.read {}

/-- What a header is worth after all of them were read. -/
def headerOf (fs : List Field) (key : Bytes) : Bytes := (fs.reverse.dlookup key).getD []

theorem get_assign_empty (fs : List Field) (key : Bytes) : StrMap.get (StrMap.assign ∅ fs) key = headerOf fs key := by
  unfold StrMap.get headerOf
  rw [StrMap.lookup_assign]
  simp

theorem foldlM_lineField (words : List Bytes) (s : HeaderScan) :
    words.foldlM (headerLine prizm) s = scanFields s (words.filterMap (lineField prizm)) := by
  induction words generalizing s with
  | nil => rfl
  | cons word words ih =>
    rw [List.foldlM_cons]
    cases hfind : Occurrence.find (lit ": ") word with
    | none =>
      have hnone : lineField prizm word = none := by
        unfold lineField
        rw [hfind]
        rfl
      rw [List.filterMap_cons_none hnone, ← ih, headerLine, hfind]
      rfl
    | some sep =>
      have hsome : lineField prizm word = some ⟨word.take sep, prizm.erase (word.drop (sep + 2)) 13⟩ := by
        unfold lineField
        rw [hfind]
        rfl
      rw [List.filterMap_cons_some hsome, headerLine, hfind]
      simp only [ih]
      rfl

variable (bio : Base64Filter)

theorem parseHeaders_eq (req : Request) (headerStr : Bytes) :
    Request.parseHeaders prizm bio req headerStr =
      (scanFields ⟨req, ∅, ∅⟩ (headerFields prizm headerStr) >>= fun s =>
        fillRequest s (requestLine headerStr) >>= fun req => readContent prizm bio (splitQuery prizm req)) := by
  unfold Request.parseHeaders headerFields requestLine
  dsimp only
  rw [foldlM_lineField]

/-- The request that `eval` hands to the parser. -/
def evalRequest (client : Client) : Request :=
  { client := client
    valid := (Occurrence.find crlf2 (cstr client.request)).getD npos ≠ npos
    content := (evalSplit (cstr client.request)).2 }

theorem eval_eq (client : Client) :
    Request.eval prizm bio client =
      Request.parseHeaders prizm bio (evalRequest client) (evalSplit (cstr client.request)).1 := by
  unfold Request.eval evalRequest evalSplit
  dsimp only
  split_ifs
  · rcases Occurrence.tokens crlf2 (cstr client.request) with _ | ⟨head, _ | ⟨content, _ | ⟨next, rest⟩⟩⟩ <;> rfl
  · rfl

/-- The two headers whose value must be a fixed text. -/
def octetField : Field := ⟨lit "Content-Type", lit "application/octet-stream"⟩
def base64Field : Field := ⟨lit "Content-Encoding", lit "base64"⟩

theorem headerField_meta {s s' : HeaderScan} {f : Field} (h : headerField s f.1 f.2 = .ok s') :
    (s'.req.type = .octet ↔ f = octetField ∨ s.req.type = .octet) ∧
    (s'.req.encoding = .base64 ↔ f = base64Field ∨ s.req.encoding = .base64) ∧
    headerSize s.req f.1 f.2 = .ok s'.req.size := by
  obtain ⟨size, hsize, rfl⟩ := map_eq_ok.mp h
  obtain ⟨key, val⟩ := f
  refine ⟨?_, ?_, hsize⟩
  · unfold headerMeta octetField
    dsimp only
    split_ifs with h1 h2 h3 <;> simp_all
  · unfold headerMeta base64Field
    dsimp only
    split_ifs with h1 h2 h3 <;> simp_all

theorem scanFields_meta {fs : List Field} {s s' : HeaderScan} (h : scanFields s fs = .ok s') :
    (s'.req.type = .octet ↔ octetField ∈ fs ∨ s.req.type = .octet) ∧
    (s'.req.encoding = .base64 ↔ base64Field ∈ fs ∨ s.req.encoding = .base64) := by
  induction fs generalizing s with
  | nil =>
    obtain rfl := Except.ok.inj h
    simp
  | cons f fs ih =>
    obtain ⟨t, ht, h⟩ := bind_eq_ok.mp h
    obtain ⟨htype, hencoding, -⟩ := headerField_meta ht
    obtain ⟨ihtype, ihencoding⟩ := ih h
    rw [ihtype, ihencoding, htype, hencoding, List.mem_cons, List.mem_cons, eq_comm (a := octetField),
      eq_comm (a := base64Field)]
    exact ⟨or_left_comm.trans or_assoc.symm, or_left_comm.trans or_assoc.symm⟩

/-- The last field is read last. -/
theorem scanFields_concat {fs : List Field} {f : Field} {s s' : HeaderScan} (h : scanFields s (fs ++ [f]) = .ok s') :
    ∃ t, scanFields s fs = .ok t ∧ headerField t f.1 f.2 = .ok s' := by
  unfold scanFields at h
  rw [List.foldlM_append] at h
  obtain ⟨t, ht, h⟩ := bind_eq_ok.mp h
  obtain ⟨t', ht', h⟩ := bind_eq_ok.mp h
  obtain rfl := Except.ok.inj h
  exact ⟨t, ht, ht'⟩

/-- The last size counts. -/
theorem scanFields_size {fs : List Field} {s s' : HeaderScan} (h : scanFields s fs = .ok s') :
    (fs.reverse.dlookup (lit "Content-Size")).elim (Except.ok s.req.size) (fun val => (readSize val).map some) =
      .ok s'.req.size := by
  induction fs using List.reverseRecOn generalizing s' with
  | nil =>
    obtain rfl := Except.ok.inj h
    rw [List.reverse_nil, List.dlookup_nil, Option.elim_none]
  | append_singleton fs f ih =>
    obtain ⟨t, ht, ht'⟩ := scanFields_concat h
    obtain ⟨-, -, hsize⟩ := headerField_meta ht'
    obtain ⟨key, val⟩ := f
    rw [List.reverse_append, List.reverse_singleton, List.singleton_append]
    by_cases hkey : lit "Content-Size" = key
    · subst hkey
      rw [List.dlookup_cons_eq, Option.elim_some]
      simpa [headerSize] using hsize
    · rw [List.dlookup_cons_ne _ _ hkey]
      have hkeep : t.req.size = s'.req.size := by simpa [headerSize, Ne.symm hkey] using hsize
      rw [← hkeep]
      exact ih ht

/-- The fields of a request that its body is read by. -/
def Request.bodyFields (req : Request) : Bytes × Bytes × ContentType × EncodingType × Option Int × Client :=
  (req.method, req.content, req.type, req.encoding, req.size, req.client)

theorem splitQuery_keeps (req : Request) :
    (splitQuery prizm req).bodyFields = req.bodyFields ∧ (splitQuery prizm req).protocol = req.protocol ∧
      (splitQuery prizm req).headers = req.headers ∧ (splitQuery prizm req).callback = req.callback := by
  unfold splitQuery
  split
  · exact ⟨rfl, rfl, rfl, rfl⟩
  · exact ⟨rfl, rfl, rfl, rfl⟩

theorem fillRequest_body {s : HeaderScan} {l : RequestLine} {req : Request} (h : fillRequest s l = .ok req) :
    req.bodyFields = (l.method, s.req.content, s.req.type, s.req.encoding, s.req.size, s.req.client) := by
  obtain ⟨callback, rfl⟩ := fillRequest_eq_ok h
  rfl

/-- The bytes of the buffer that a body of a declared size takes. -/
def bodyBytes (client : Client) (p : Nat) (n : Int) : Bytes :=
  let cont := (client.request.drop (p + 4)).take (sizeNum n.toNat)
  if 0 ∈ cont then cont.dropLast else cont

/-- A body can be read: its size is declared and stays in the buffer, and what is encoded decodes. -/
def BodyReadable (client : Client) (base64 : Prop) (size : Option Int) : Prop :=
  ∀ p, Occurrence.find crlf2 (cstr client.request) = some p →
    ∃ n, size = some n ∧ p + 4 + sizeNum n.toNat ≤ maxRequestSize + 1 ∧
      (base64 → ∃ text, decodeUrl bio (bodyBytes client p n) = .ok text)

theorem octetContent_isOk_iff (req : Request) :
    (∃ content, octetContent bio req = .ok content) ↔
      BodyReadable bio req.client (req.encoding = .base64) req.size := by
  unfold octetContent BodyReadable bodyBytes
  cases Occurrence.find crlf2 (cstr req.client.request) with
  | none => simp
  | some p =>
    cases req.size with
    | none => simp
    | some n =>
      dsimp only
      by_cases hfits : maxRequestSize + 1 < p + 4 + sizeNum n.toNat
      · rw [if_pos hfits]
        simp [Nat.not_le.mpr hfits]
      · rw [if_neg hfits]
        cases req.encoding with
        | none => simp [Nat.not_lt.mp hfits]
        | base64 => simp [Nat.not_lt.mp hfits]

theorem readContent_isOk_iff (req : Request) :
    (∃ req', readContent prizm bio req = .ok req') ↔
      (req.method = lit "POST" → req.content ≠ [] → req.type = .octet →
        BodyReadable bio req.client (req.encoding = .base64) req.size) := by
  rw [← octetContent_isOk_iff]
  unfold readContent
  by_cases hpost : req.method = lit "POST" ∧ req.content ≠ []
  · rw [if_pos hpost]
    cases htype : req.type with
    | octet => simp [hpost.1, hpost.2, map_eq_ok]
    | json =>
      dsimp only
      split_ifs <;> simp
    | plain =>
      dsimp only
      split_ifs <;> simp
  · rw [if_neg hpost]
    have hno : req.method = lit "POST" → ¬ req.content ≠ [] := fun h1 h2 => hpost ⟨h1, h2⟩
    exact iff_of_true ⟨req, rfl⟩ fun h1 h2 => absurd h2 (hno h1)

/-- The body goes into the content or the arguments. -/
theorem readContent_eq_ok {req req' : Request} (h : readContent prizm bio req = .ok req') :
    ∃ args content, req' = { req with args := args, content := content } := by
  unfold readContent at h
  by_cases hpost : req.method = lit "POST" ∧ req.content ≠ []
  · rw [if_pos hpost] at h
    split at h
    · obtain ⟨content, -, rfl⟩ := map_eq_ok.mp h
      exact ⟨req.args, content, rfl⟩
    · split_ifs at h
      · exact ⟨_, req.content, (Except.ok.inj h).symm⟩
      · exact ⟨req.args, req.content, (Except.ok.inj h).symm⟩
  · rw [if_neg hpost] at h
    exact ⟨req.args, req.content, (Except.ok.inj h).symm⟩

/-- The declared size. -/
def declaredSize (fs : List Field) : Option Int :=
  (fs.reverse.dlookup (lit "Content-Size")).bind fun val => (readSize val).toOption

theorem scanFields_declaredSize {fs : List Field} {s s' : HeaderScan} (h : scanFields s fs = .ok s')
    (hs : s.req.size = none) : s'.req.size = declaredSize fs := by
  have hsize := scanFields_size h
  unfold declaredSize
  cases hval : fs.reverse.dlookup (lit "Content-Size") with
  | none =>
    rw [hval] at hsize
    exact (Except.ok.inj hsize).symm.trans hs
  | some val =>
    rw [hval] at hsize
    obtain ⟨n, hn, hsome⟩ := map_eq_ok.mp hsize
    simp [hn, hsome, Except.toOption]

/-- The numbers of the headers, and those of an octet-stream body, can be read. -/
structure Readable (client : Client) : Prop where
  numbers : NumbersReadable (headerFields prizm (evalSplit (cstr client.request)).1)
  body : (requestLine (evalSplit (cstr client.request)).1).method = lit "POST" →
    (evalSplit (cstr client.request)).2 ≠ [] →
    octetField ∈ headerFields prizm (evalSplit (cstr client.request)).1 →
    BodyReadable bio client (base64Field ∈ headerFields prizm (evalSplit (cstr client.request)).1)
      (declaredSize (headerFields prizm (evalSplit (cstr client.request)).1))

/-- The request whose body is read, from the scan of its headers. -/
theorem readContent_of_scan {client : Client} {headerStr : Bytes} {s : HeaderScan} {req : Request}
    (hs : scanFields ⟨evalRequest client, ∅, ∅⟩ (headerFields prizm headerStr) = .ok s)
    (hreq : fillRequest s (requestLine headerStr) = .ok req) :
    (∃ req', readContent prizm bio (splitQuery prizm req) = .ok req') ↔
      ((requestLine headerStr).method = lit "POST" → (evalSplit (cstr client.request)).2 ≠ [] →
        octetField ∈ headerFields prizm headerStr →
        BodyReadable bio client (base64Field ∈ headerFields prizm headerStr)
          (declaredSize (headerFields prizm headerStr))) := by
  have hbody := (splitQuery_keeps prizm req).1.trans (fillRequest_body hreq)
  have hrest := (scanFields_ok hs).2.2
  obtain ⟨htype, hencoding⟩ := scanFields_meta hs
  have hsize := scanFields_declaredSize hs rfl
  obtain ⟨hcontent, -, hclient, -⟩ : s.req.content = (evalSplit (cstr client.request)).2 ∧
      s.req.callback = none ∧ s.req.client = client ∧ s.req.args = ∅ := by
    simpa [HeaderScan.rest, evalRequest] using And.intro (congrArg Prod.fst hrest)
      (And.intro (congrArg (·.2.1) hrest) (And.intro (congrArg (·.2.2.1) hrest) (congrArg (·.2.2.2.1) hrest)))
  simp only [Request.bodyFields, Prod.mk.injEq] at hbody
  obtain ⟨hm, hc, ht, he, hn, hcl⟩ := hbody
  rw [readContent_isOk_iff, hm, hc, ht, he, hn, hcl, hcontent, hclient, hsize, htype, hencoding]
  simp [evalRequest]

theorem eval_isOk_iff (client : Client) :
    (∃ req, Request.eval prizm bio client = .ok req) ↔ Readable prizm bio client := by
  rw [eval_eq, parseHeaders_eq]
  simp only [bind_eq_ok]
  constructor
  · rintro ⟨req, s, hs, filled, hfilled, hreq⟩
    exact ⟨⟨(scanFields_isOk_iff _ _).mp ⟨s, hs⟩, (fillRequest_numbers hs rfl _).mp ⟨filled, hfilled⟩⟩,
      (readContent_of_scan prizm bio hs hfilled).mp ⟨req, hreq⟩⟩
  · rintro ⟨⟨hsize, hcallback⟩, hbody⟩
    obtain ⟨s, hs⟩ := (scanFields_isOk_iff ⟨evalRequest client, ∅, ∅⟩ _).mpr hsize
    obtain ⟨filled, hfilled⟩ := (fillRequest_numbers hs rfl _).mpr hcallback
    obtain ⟨req, hreq⟩ := (readContent_of_scan prizm bio hs hfilled).mpr hbody
    exact ⟨req, s, hs, filled, hfilled, hreq⟩

end Jericho.Server
