import Jericho.Message.CallbackHeaders
import Jericho.Message.Responses
import Jericho.Message.Serve
import Jericho.Server.BinaryMessages
import Jericho.Server.HeaderSection
import Jericho.Server.RunLoop
import Jericho.Server.ServeHttp

/-! A remote call: `Bifrost::send` to a system route of another node, over the bytes of the request and those of
the response. -/
namespace Jericho.Message
open StdText Util Server Crypt

/-- The results of a system route that are not sent. The connection is closed all the same. -/
def Withheld (result : Bytes) : Prop := result = lit "TICKET" ∨ result = lit "COMPLETE" ∨ result = lit "FNF"

instance (result : Bytes) : Decidable (Withheld result) := inferInstanceAs (Decidable (_ ∨ _))

/-- What there is to read of a result. -/
def sentText (result : Bytes) : Bytes := if Withheld result then [] else cstr result

namespace Bifrost

/-- What `send` writes into its message. The ticket is only in the headers. -/
def fillCall (content : Bytes) (ticket : Int) (m : MessageBuffer) : MessageBuffer :=
  { m with
    sent := content
    headers := m.headers.assign
      [⟨brokerType, lit "simple"⟩, ⟨ticketText, toText ticket⟩, ⟨messageIdText, toText m.id⟩] }

/-- `send` up to its thread. The broker is not put into the table. -/
def openCall (s : Bifrost) (now : Int) (url content : Bytes) : Exec (Option Addr × Bifrost) := do
  let ticket ← increment s.ticketId
  message now s.nextBroker content (fillCall content ticket) url
    { s with ticketId := ticket, nextBroker := s.nextBroker + 1 }

/-- `pthread_join(thread, (void**)&status)` stores a pointer in an `int`, eight bytes in the place of four. `spare` is
how many bytes behind the `int` are free. -/
def joinThread (spare : Nat) : Exec Unit := if 8 ≤ 4 + spare then .ok () else .error .undefined

/-- `send`: its thread runs `fetch` on the message, which is deleted with the broker. -/
def send {α : Type} (s : Bifrost) (now : Int) (url content : Bytes) (spare : Nat)
    (fetch : MessageBuffer → Exec (Bytes × α)) : Exec (Bytes × α × Bifrost) := do
  let (buf, s) ← s.openCall now url content
  let m ← s.deref buf
  let (received, other) ← fetch m
  joinThread spare
  return (serialize url received, other, { s with heap := s.heap.free [buf] })

end Bifrost

/-- What a system route and its response write. Error pages are not among their events. -/
def systemWrites : Event → List Bytes
  | .http content type => serveHttp content type
  | .raw bytes => [bytes]
  | .file _ _ bytes => [bytes]
  | _ => []

variable {σ : Type} (bio : Base64Filter)

/-- The other node reads what a connection has brought and serves it, then it drops the connection. -/
def Node.answer (node : Node σ) (now : Int) (system : System σ) (buffer : Client) : Exec (Bytes × Served σ) := do
  let req ← Request.eval node.prizm bio buffer
  let served ← serve node now system req
  return ((served.events.flatMap systemWrites).flatten, served)

/-- `fetch` of a message for a node that it reaches; `cuts` is how `SSL_read` divides a response. -/
def fetchFrom {α : Type} (buffer : StackBuffer) (cuts : Bytes → List Bytes) (answer : Bytes → Exec (Bytes × α))
    (m : MessageBuffer) : Exec (Bytes × Option α) :=
  if m.port.all isdigit then do
    let _ ← stoi m.port
    let bytes ← sendRequest bio buffer m.hostname m.fromPort m.path m
    let (response, other) ← answer bytes
    let received ← fetched (cuts response)
    return (received, some other)
  else .ok (lit "ERROR", none)

/-- The first read brings all of a request up to its NUL, if there is one. -/
def Brings (bytes : Bytes) (segments : List Bytes) : Prop :=
  ∃ first rest, segments = first :: rest ∧ first <+: bytes ∧ cstr bytes <+: first

/-- What a call sends: `buffer` has put a text in place of no content. -/
def callContent (s : Bifrost) (content : Bytes) : Bytes := if content = [] then lit "Ping from " ++ s.port else content

def callHeaders (s : Bifrost) : StrMap :=
  StrMap.assign ∅ [⟨brokerType, lit "simple"⟩, ⟨ticketText, toText (s.ticketId + 1)⟩,
    ⟨messageIdText, toText (s.messageId + 1)⟩]

/-- The message of a call. -/
def callMessage (s : Bifrost) (now : Int) (u : Url) (content : Bytes) : MessageBuffer :=
  { id := s.messageId + 1, hostname := s.host, port := u.port, fromHost := s.host, fromPort := s.port
    toHost := u.host, toPort := u.port, protocol := u.protocol, sent := callContent s content, path := u.path
    type := u.type, dir := if u.protocol = lit "jfl" then lit "/cluster" else lit "undefined"
    headers := if content = [] then ∅ else callHeaders s
    broker := some s.nextBroker, url := u.url, timestamp := now }

/-- The content as it arrives. Of a binary message that is its encoding. -/
def arrivingContent (u : Url) (sent : Bytes) : Bytes := if u.type = lit "bin" then encodeUrl bio sent else sent

/-- A call whose request is read as it was written. -/
structure Callable (s : Bifrost) (now : Int) (u : Url) (content : Bytes) : Prop where
  ip : u.ip = true
  protocol : u.protocol = lit "https"
  port : u.port.all isdigit = true ∧ ∃ n, stoi u.port = .ok n
  path : ∀ c ∈ u.path, isspace c = false ∧ c ≠ 63 ∧ c ≠ 0
  address : Plain s.host ∧ Plain s.port
  text : u.type = lit "bin" ∨ (0 : Byte) ∉ callContent s content ∧ (37 : Byte) ∉ callContent s content ∧
    ¬ crlf2 <:+: callContent s content
  counters : inInt (s.ticketId + 1) ∧ inInt (s.messageId + 1)
  fits : (callContent s content).length < 2 ^ 31 ∧
    Fits s.host s.port u.path (callMessage s now u content) (arrivingContent bio u (callContent s content))

/-- A request for a system route that leaves the connection to `serve`. -/
structure SystemRoute (node : Node σ) (system : System σ) (req : Request) : Prop where
  protocol : node.router.protocol req.path = .system
  silent : (node.router.exec req.path system req).sent = []
  short : (cstr (node.router.exec req.path system req).result).length < 2 ^ 31

/-- The part of a result that arrives: all that is sent, if it fits into the buffer of `fetch` with its headers. -/
def arrivingText (result : Bytes) : Bytes :=
  if (serveHttp (cstr result) (lit "text/html")).flatten.length ≤ responseSize then sentText result else []

variable {bio}
variable {s : Bifrost} {now : Int} {u : Url} {url content : Bytes} {node : Node σ} {system : System σ}

theorem callContent_ne_nil (s : Bifrost) (content : Bytes) : callContent s content ≠ [] := by
  unfold callContent
  split_ifs with hempty
  · exact List.append_ne_nil_of_left_ne_nil (by decide) _
  · exact hempty

theorem openCall_ok (hu : Url.parse url = .ok u) (h : Callable bio s now u content) :
    ∃ heap : Heap MessageBuffer, s.openCall now url content = .ok (some s.heap.next, { s with
        ticketId := s.ticketId + 1, messageId := s.messageId + 1, nextBroker := s.nextBroker + 1, heap := heap }) ∧
      heap.cell s.heap.next = some (callMessage s now u content) ∧
      ∀ a, a ≠ s.heap.next → heap.cell a = s.heap.cell a := by
  have hticket : increment s.ticketId = .ok (s.ticketId + 1) := if_pos h.counters.1
  have hid : increment s.messageId = .ok (s.messageId + 1) := if_pos h.counters.2
  obtain rfl := Url.parse_url hu
  obtain ⟨t, ht⟩ : ∃ t : Bifrost, t = { s with ticketId := s.ticketId + 1, nextBroker := s.nextBroker + 1 } := ⟨_, rfl⟩
  have hbuffer : ∃ m, t.buffer now u.url (some s.nextBroker) =
      .ok (some s.heap.next, { t with heap := s.heap.alloc m, messageId := s.messageId + 1 }) ∧
      callMessage s now u content = if content = [] then m else Bifrost.fillCall content (s.ticketId + 1) m := by
    unfold Bifrost.buffer
    rw [hu]
    dsimp only [bind, Except.bind]
    rw [if_pos h.ip, ht, hid]
    refine ⟨_, rfl, ?_⟩
    unfold callMessage callContent
    split_ifs <;> rfl
  obtain ⟨m, hbuffer, hcall⟩ := hbuffer
  have hread : (s.heap.alloc m).read (some s.heap.next) = some m := Heap.alloc_read_next _ _
  by_cases hempty : content = []
  · rw [if_pos hempty] at hcall
    rw [hcall]
    refine ⟨s.heap.alloc m, ?_, Heap.alloc_cell_next _ m, fun a ha => Heap.alloc_cell_of_ne ha m⟩
    refine bind_eq_ok.mpr ⟨_, hticket, bind_eq_ok.mpr ⟨_, ht ▸ hbuffer, bind_eq_ok.mpr ⟨_, ?_, rfl⟩⟩⟩
    exact if_pos hempty
  · rw [if_neg hempty] at hcall
    refine ⟨(s.heap.alloc m).write (some s.heap.next) (callMessage s now u content), ?_, ?_, ?_⟩
    · refine bind_eq_ok.mpr ⟨_, hticket, bind_eq_ok.mpr ⟨_, ht ▸ hbuffer, bind_eq_ok.mpr ⟨_, ?_, rfl⟩⟩⟩
      unfold Bifrost.fill Bifrost.deref
      rw [if_neg hempty, hread, hcall]
      rfl
    · exact Heap.write_cell_self (by rw [Heap.alloc_cell_next]; rfl) _
    · intro a ha
      rw [Heap.write_cell_of_ne (by simpa using Ne.symm ha), Heap.alloc_cell_of_ne ha]

theorem callHeaders_entries (s : Bifrost) : (callHeaders s).entries = [⟨messageIdText, toText (s.messageId + 1)⟩,
    ⟨ticketText, toText (s.ticketId + 1)⟩, ⟨brokerType, lit "simple"⟩] := rfl

/-- A call has headers of its own for its ticket and its number, and no others. -/
theorem lookup_callMessage {key : Bytes} (hkey : key ≠ brokerType ∧ key ≠ ticketText ∧ key ≠ messageIdText) :
    (callMessage s now u content).headers.lookup key = none := by
  unfold callMessage
  dsimp only
  split_ifs
  · exact AList.lookup_empty key
  · rw [AList.lookup_eq_none]
    intro hmem
    have hkeys : key ∈ [messageIdText, ticketText, brokerType] := hmem
    simp [hkey] at hkeys

theorem callMessage_readable : ReadableHeaders (callMessage s now u content).headers where
  size v hv := by
    rw [lookup_callMessage (by decide)] at hv
    cases hv
  callback := by
    rintro ⟨k, hk, hcallback⟩
    have hno : isCallbackKey brokerType = false ∧ isCallbackKey ticketText = false ∧
        isCallbackKey messageIdText = false := by decide
    have hnone : (callMessage s now u content).headers.lookup k = none := by
      refine lookup_callMessage ⟨?_, ?_, ?_⟩ <;> rintro rfl <;> simp [hno] at hcallback
    exact absurd hk (AList.lookup_eq_none.mp hnone)

theorem Callable.wire (h : Callable bio s now u content) :
    WireMessage s.host s.port u.path (callMessage s now u content) where
  protocol := .inl h.protocol
  hostname := h.address.1
  port := h.address.2
  headers f hf := by
    have hkeys : (Plain messageIdText ∧ ¬ lit ": " <:+: messageIdText) ∧
        (Plain ticketText ∧ ¬ lit ": " <:+: ticketText) := by decide
    unfold callMessage at hf
    dsimp only at hf
    split_ifs at hf
    · cases hf
    · rw [callHeaders_entries] at hf
      simp only [List.mem_cons, List.not_mem_nil, or_false] at hf
      rcases hf with rfl | rfl | rfl
      · exact ⟨hkeys.1.1, plain_toText _, hkeys.1.2⟩
      · exact ⟨hkeys.2.1, plain_toText _, hkeys.2.2⟩
      · exact ⟨by decide, by decide, by decide⟩
  path c hc := ⟨(h.path c hc).1, (h.path c hc).2.1⟩

/-- The body of a call is its content, a single piece. -/
theorem Callable.body (hb : bio.Standard) (h : Callable bio s now u content) :
    formatPlain (cstr (arrivingContent bio u (callContent s content))) =
        .ok (arrivingContent bio u (callContent s content)) ∧
      BodyContent (arrivingContent bio u (callContent s content)) (arrivingContent bio u (callContent s content)) := by
  have hplain : ∀ {body : Bytes}, body ≠ [] → (0 : Byte) ∉ body → (37 : Byte) ∉ body → ¬ crlf2 <:+: body →
      formatPlain (cstr body) = .ok body ∧ BodyContent body body := by
    intro body hne hzero hpercent hblank
    rw [cstr_eq_self_iff.mpr hzero]
    exact ⟨formatPlain_of_notMem hpercent,
      .inr ⟨hne, (Occurrence.tokens_eq_singleton_iff (by decide)).mpr ⟨hne, hblank⟩⟩⟩
  have hne := callContent_ne_nil s content
  unfold arrivingContent
  split_ifs with hbin
  · refine hplain (fun hnil => hne ((encodeUrl_eq_nil_iff hb).mp hnil)) (fun hmem => (mem_encodeUrl hb hmem).1 rfl)
      (fun hmem => (mem_encodeUrl hb hmem).2.2.2 rfl) fun hin => ?_
    have hcr : (13 : Byte) ∈ encodeUrl bio (callContent s content) := hin.subset (by decide)
    exact (mem_encodeUrl hb hcr).2.2.1 rfl
  · obtain ⟨hzero, hpercent, hblank⟩ := h.text.resolve_left hbin
    exact hplain hne hzero hpercent hblank

/-- The bytes of a call: the header section and the content, and after a binary message a NUL. -/
theorem Callable.sent (hb : bio.Standard) (h : Callable bio s now u content) (buffer : StackBuffer) :
    ∃ head bytes, requestHead s.host s.port u.path (callMessage s now u content) = .ok head ∧
      sendRequest bio buffer s.host s.port u.path (callMessage s now u content) = .ok bytes ∧
      bytes.length ≤ maxRequestSize ∧ cstr bytes = head ++ arrivingContent bio u (callContent s content) := by
  obtain ⟨head, hhead, hlt⟩ := h.fits.2.length_lt h.wire
  have hbody := (h.body hb).1
  have hcstr := cstr_sent hhead hbody
    (buffer.bytes.drop ((head ++ arrivingContent bio u (callContent s content)).length + 1))
  rw [← List.length_append] at hlt
  have hcut : formatPlain (cstr (if (callMessage s now u content).type = lit "bin" then
        encodeUrl bio (callMessage s now u content).sent else (callMessage s now u content).sent)) =
      .ok (arrivingContent bio u (callContent s content)) := hbody
  have hsize : inInt (callMessage s now u content).sent.length := inInt_nat.mpr h.fits.1
  refine ⟨head, _, hhead, sendRequest_ok_iff.mpr ⟨hsize, head, _, hhead, hcut, hlt, rfl⟩, ?_⟩
  by_cases hbin : (callMessage s now u content).type = lit "bin"
  · rw [if_pos hbin]
    refine ⟨?_, hcstr.2⟩
    rw [List.length_append, List.length_cons, List.length_drop, buffer.size]
    unfold maxRequestSize
    omega
  · rw [if_neg hbin]
    exact ⟨hlt.le, hcstr.1⟩

/-- A first read that brings the request is the only one. -/
theorem pollRequest_brings {bytes : Bytes} {segments : List Bytes} (hfits : bytes.length ≤ maxRequestSize)
    (hblank : crlf2 <:+: cstr bytes) (h : Brings bytes segments) (address : Bytes) :
    cstr (pollRequest (.fresh address) segments).received = cstr bytes := by
  obtain ⟨first, rest, rfl, hfirst, hall⟩ := h
  have hread : ((Client.fresh address).read first).received = first :=
    List.take_of_length_le (hfirst.length_le.trans hfits)
  have hsame : cstr first = cstr bytes := by
    have hle := cstr_prefix_cstr hall
    rw [cstr_eq_self_iff.mpr (zero_notMem_cstr bytes)] at hle
    exact (cstr_prefix_cstr hfirst).eq_of_length_le hle.length_le
  have hseen : ((Client.fresh address).read first).hasBlankLine := by
    rw [Client.hasBlankLine_iff, hread, hsame]
    exact hblank
  unfold pollRequest
  dsimp only
  rw [if_pos hseen, hread, hsame]

/-- Parsing does not make a request invalid. -/
theorem parseHeaders_valid {prizm : Prizm} {req r : Request} {text : Bytes}
    (h : Request.parseHeaders prizm bio req text = .ok r) : r.valid = req.valid := by
  rw [parseHeaders_eq] at h
  obtain ⟨scan, hscan, h⟩ := bind_eq_ok.mp h
  obtain ⟨filled, hfill, h⟩ := bind_eq_ok.mp h
  obtain ⟨callback, rfl⟩ := fillRequest_eq_ok hfill
  obtain ⟨args, content, rfl⟩ := readContent_eq_ok prizm bio h
  have hscanned : scan.req.valid = req.valid := congrArg (·.2.2.2.2) (scanFields_ok hscan).2.2
  unfold splitQuery
  split <;> exact hscanned

/-- A header section ends with a blank line. -/
theorem crlf2_infix_lines {lines : List Bytes} (hne : lines ≠ []) (rest : Bytes) :
    crlf2 <:+: lines.flatMap (· ++ crlf) ++ crlf ++ rest := by
  obtain ⟨init, last, hsplit⟩ := (List.eq_nil_or_concat lines).resolve_left hne
  refine ⟨init.flatMap (· ++ crlf) ++ last, rest, ?_⟩
  rw [hsplit, List.concat_eq_append, List.flatMap_append]
  simp [crlf2]

theorem eval_valid {prizm : Prizm} {client : Client} {r : Request} (hblank : crlf2 <:+: cstr client.received)
    (h : Request.eval prizm bio client = .ok r) : r.valid = true := by
  have hfits := client.fits
  have hcut := cstr_length_le client.received
  rw [eval_eq] at h
  rw [parseHeaders_valid h]
  unfold evalRequest
  dsimp only
  rw [client.cstr_request]
  cases hfind : Occurrence.find crlf2 (cstr client.received) with
  | none => exact absurd hblank (Occurrence.find_eq_none_iff.mp hfind)
  | some n =>
    have hle := Occurrence.find_le hfind
    unfold maxRequestSize at hfits
    unfold npos
    rw [Option.getD_some, decide_eq_true_iff]
    omega

variable (bio) in
/-- The request as the other node reads it. -/
structure CallRead (s : Bifrost) (u : Url) (content : Bytes) (req : Request) : Prop where
  path : req.path = u.path
  content : req.content = arrivingContent bio u (callContent s content)
  host : req.header (lit "Host") = s.host ++ lit ":" ++ s.port
  cookie : req.header (lit "Cookie") = []
  protocol : req.protocol = lit "HTTP/1.1"
  connection : req.header (lit "Connection") = lit "keep-alive"
  valid : req.valid = true

/-- The request of a call is sent, and read by a node that it reaches. -/
theorem Callable.read (hb : bio.Standard) (hp : node.prizm.Documented) (h : Callable bio s now u content)
    (buffer : StackBuffer) {segments : Bytes → List Bytes} (hsegments : ∀ bytes, Brings bytes (segments bytes))
    (address : Bytes) :
    ∃ bytes req, sendRequest bio buffer s.host s.port u.path (callMessage s now u content) = .ok bytes ∧
      Request.eval node.prizm bio (pollRequest (.fresh address) (segments bytes)) = .ok req ∧
      CallRead bio s u content req := by
  obtain ⟨head, bytes, hhead, hsend, hfits, hcstr⟩ := h.sent hb buffer
  obtain ⟨word, hword, hrequest, hplain, -⟩ := h.wire.word
  rw [h.wire.requestHead_eq hword] at hhead
  obtain rfl := Except.ok.inj hhead
  have hblank : crlf2 <:+: cstr bytes := by
    rw [hcstr]
    exact crlf2_infix_lines (List.cons_ne_nil _ _) _
  have hreceived := pollRequest_brings hfits hblank (hsegments bytes) address
  obtain ⟨hpath, hpathWord, hquery⟩ := h.wire.path_plain
  obtain ⟨hiff, hread⟩ := (eval_written bio hp (pollRequest (.fresh address) (segments bytes)) h.wire.fields hpathWord
    hpath hquery hrequest hplain (hreceived.trans hcstr)).1 _ (h.body hb).2
  obtain ⟨req, hreq⟩ := hiff.mpr ((numbersReadable_iff s.host s.port h.fits.1).mpr callMessage_readable)
  have hback := hread req hreq
  have hzero : cstr u.path = u.path := cstr_eq_self_iff.mpr fun hmem => (h.path 0 hmem).2.2 rfl
  have hprotocol : word = lit "HTTP/1.1" := by
    have hhttps : protocolWord (callMessage s now u content).protocol = .ok (lit "HTTP/1.1") := if_pos h.protocol
    exact Except.ok.inj (hword.symm.trans hhttps)
  have hheader : ∀ {key : Bytes}, key ≠ brokerType ∧ key ≠ ticketText ∧ key ≠ messageIdText →
      req.header key = ((fixedHeaders s.host s.port (callMessage s now u content)).dlookup key).getD [] := by
    intro key hkey
    have hlookup := hback.lookup_eq key
    rw [dlookup_allFields, lookup_callMessage hkey, Option.none_or] at hlookup
    exact congrArg (Option.getD · []) hlookup
  refine ⟨bytes, req, hsend, hreq, hback.path_eq.trans hzero, hback.content_eq, ?_, ?_,
    hback.protocol_eq.trans hprotocol, (hheader (by decide)).trans rfl, eval_valid (hreceived ▸ hblank) hreq⟩
  · have hfixed : (fixedHeaders s.host s.port (callMessage s now u content)).dlookup (lit "Host") =
        some (cstr s.host ++ lit ":" ++ cstr s.port) := rfl
    rw [hheader (by decide), hfixed, h.address.1.cstr, h.address.2.cstr]
    rfl
  · have hfixed : (fixedHeaders s.host s.port (callMessage s now u content)).dlookup (lit "Cookie") = none := by
      rw [List.dlookup_eq_none]
      intro hmem
      obtain ⟨value, hvalue⟩ := List.exists_of_mem_keys hmem
      have hno : lit "Cookie" ∉ fixedKeys := by decide
      exact hno (fixedHeaders_spec _ _ _ hvalue).1
    rw [hheader (by decide), hfixed]
    rfl

/-- The loop of the other node hands the request to `serve`, and then drops the connection. -/
theorem CallRead.settled {req : Request} (h : CallRead bio s u content req) (serve : Request → Bifrost → Exec Bifrost)
    (receiver : Bifrost) (old : SocketState) :
    settle serve receiver old false none req =
      (serve req receiver).map fun receiver => (receiver, .finish .alive false) := by
  have hstate : connectionState old req = .alive := if_pos h.connection
  unfold settle
  rw [h.valid, hstate]
  dsimp only
  cases serve req receiver <;> rfl

/-- Without a cookie there is no session, and the sessions are not touched. -/
theorem findSession_none {sm : SessionManager} {req : Request} (h : req.header (lit "Cookie") = []) :
    findSession node.prizm now sm req = (none, sm) := by
  have hcookie : requestCookie node.prizm req = none := by
    have hdash : Occurrence.find (lit "-") [] = none := rfl
    unfold requestCookie
    dsimp only
    rw [h, hdash]
    simp
  unfold findSession
  rw [hcookie]

theorem serveSystem_eq (req : Request) : serveSystem node system req =
    if Withheld (node.router.exec req.path system req).result then (execRoute node system req).1
    else { (execRoute node system req).1 with
      events := (execRoute node system req).1.events ++
        [.http (cstr (node.router.exec req.path system req).result) (lit "text/html")] } := rfl

/-- A request for a system route, which has no session. What is written is the response, if there is one. -/
theorem serve_systemRoute {req : Request} (h : SystemRoute node system req) (hcookie : req.header (lit "Cookie") = [])
    (now : Int) :
    ∃ served, serve node now system req = .ok served ∧
      served.system = (node.router.exec req.path system req).system ∧
      (served.events.flatMap systemWrites).flatten =
        if Withheld (node.router.exec req.path system req).result then []
        else (serveHttp (cstr (node.router.exec req.path system req).result) (lit "text/html")).flatten := by
  have hserve : serve node now system req = .ok (serveSystem node system req) := by
    unfold serve
    rw [findSession_none hcookie]
    dsimp only
    rw [h.protocol]
  have hsilent : (execRoute node system req).1.events.flatMap systemWrites = [] := by
    unfold execRoute callEvents
    dsimp only
    rw [h.silent]
    split_ifs <;> rfl
  refine ⟨_, hserve, ?_⟩
  rw [serveSystem_eq]
  by_cases hresult : Withheld (node.router.exec req.path system req).result
  · rw [if_pos hresult, if_pos hresult, hsilent]
    exact ⟨rfl, rfl⟩
  · rw [if_neg hresult, if_neg hresult]
    refine ⟨rfl, ?_⟩
    dsimp only
    rw [List.flatMap_append, hsilent]
    simp [systemWrites]

/-- What is fetched of the result of a route. -/
theorem fetched_result {result : Bytes} (hshort : (cstr result).length < 2 ^ 31) {cuts : List Bytes}
    (hreads : Reads (if Withheld result then [] else (serveHttp (cstr result) (lit "text/html")).flatten) cuts) :
    fetched cuts = .ok (arrivingText result) := by
  unfold arrivingText sentText
  by_cases hresult : Withheld result
  · rw [if_pos hresult] at hreads ⊢
    have hcuts : cuts = [] := by
      refine List.eq_nil_iff_forall_not_mem.mpr fun piece hpiece => hreads.nonempty piece hpiece ?_
      exact List.flatten_eq_nil_iff.mp hreads.flatten_eq piece hpiece
    rw [hcuts, ite_self]
    rfl
  · rw [if_neg hresult] at hreads ⊢
    have hcstr : cstr (cstr result) = cstr result := cstr_eq_self_iff.mpr (zero_notMem_cstr result)
    rw [fetched_serveHttp (by decide) hshort hreads, hcstr]

/-- What a call leaves of the node that made it: its counters have moved on, and no message is left over. -/
structure CallMade (s s' : Bifrost) : Prop where
  rest : s' = { s with
    ticketId := s.ticketId + 1, messageId := s.messageId + 1, nextBroker := s.nextBroker + 1, heap := s'.heap }
  messages : s'.heap.cell = s.heap.cell

/-- `fetch` of the message of a call: the route runs on what was sent, and its result comes back. -/
theorem fetchFrom_call (hb : bio.Standard) (hp : node.prizm.Documented) (h : Callable bio s now u content)
    (hroute : ∀ req, CallRead bio s u content req → SystemRoute node system req) (buffer : StackBuffer)
    {segments cuts : Bytes → List Bytes} (hsegments : ∀ bytes, Brings bytes (segments bytes))
    (hcuts : ∀ bytes, Reads bytes (cuts bytes)) (later : Int) (address : Bytes) :
    ∃ req served, CallRead bio s u content req ∧
      fetchFrom bio buffer cuts
        (fun bytes => node.answer bio later system (pollRequest (.fresh address) (segments bytes)))
        (callMessage s now u content) =
          .ok (arrivingText (node.router.exec req.path system req).result, some served) ∧
      served.system = (node.router.exec req.path system req).system := by
  obtain ⟨bytes, req, hsend, hreq, hread⟩ := h.read hb hp buffer hsegments address
  have hroute := hroute req hread
  obtain ⟨served, hserve, hsystem, hwritten⟩ := serve_systemRoute hroute hread.cookie later
  obtain ⟨hdigits, n, hn⟩ := h.port
  have hport : (callMessage s now u content).port.all isdigit = true := hdigits
  have hstoi : stoi (callMessage s now u content).port = .ok n := hn
  have hanswer : node.answer bio later system (pollRequest (.fresh address) (segments bytes)) =
      .ok ((served.events.flatMap systemWrites).flatten, served) :=
    bind_eq_ok.mpr ⟨req, hreq, bind_eq_ok.mpr ⟨served, hserve, rfl⟩⟩
  have hresult : fetched (cuts (served.events.flatMap systemWrites).flatten) =
      .ok (arrivingText (node.router.exec req.path system req).result) := by
    rw [hwritten]
    exact fetched_result hroute.short (hcuts _)
  refine ⟨req, served, hread, ?_, hsystem⟩
  unfold fetchFrom
  rw [if_pos hport]
  exact bind_eq_ok.mpr ⟨n, hstoi, bind_eq_ok.mpr ⟨bytes, hsend, bind_eq_ok.mpr ⟨_, hanswer,
    bind_eq_ok.mpr ⟨_, hresult, rfl⟩⟩⟩⟩

/-- A call runs the route of the other node on its path and its content, under the address of the caller, and the
caller reads the result out of what it gets, unless it is withheld or too long, in whatever pieces it comes. The thread
is joined where the pointer that is stored does no harm. -/
theorem remote_call {d : Picojson.Numbers} (hd : d.Exact) (hb : bio.Standard) (hp : node.prizm.Documented)
    (hu : Url.parse url = .ok u) (h : Callable bio s now u content)
    (hroute : ∀ req, CallRead bio s u content req → SystemRoute node system req) (buffer : StackBuffer)
    {segments cuts : Bytes → List Bytes} (hsegments : ∀ bytes, Brings bytes (segments bytes))
    (hcuts : ∀ bytes, Reads bytes (cuts bytes)) {spare : Nat} (hspare : 4 ≤ spare) (later : Int) (address : Bytes) :
    ∃ req served s' text v, CallRead bio s u content req ∧
      s.send now url content spare (fetchFrom bio buffer cuts fun bytes =>
        node.answer bio later system (pollRequest (.fresh address) (segments bytes))) = .ok (text, some served, s') ∧
      served.system = (node.router.exec req.path system req).system ∧ CallMade s s' ∧
      (∀ serve receiver old, settle serve receiver old false none req =
        (serve req receiver).map fun receiver => (receiver, .finish .alive false)) ∧
      Picojson.parse d text = .ok (some v, []) ∧
      readResponses v = some [(url, arrivingText (node.router.exec req.path system req).result)] := by
  obtain ⟨heap, hopen, hcell, hothers⟩ := openCall_ok hu h
  obtain ⟨req, served, hread, hfetch, hsystem⟩ :=
    fetchFrom_call hb hp h hroute buffer hsegments hcuts later address
  obtain ⟨v, hparse, hresponses⟩ :=
    read_batchSerialize hd [(url, arrivingText (node.router.exec req.path system req).result)]
  refine ⟨req, served, _, _, v, hread, bind_eq_ok.mpr ⟨_, hopen, bind_eq_ok.mpr ⟨callMessage s now u content, ?_,
    bind_eq_ok.mpr ⟨_, hfetch, bind_eq_ok.mpr ⟨(), if_pos (by omega), rfl⟩⟩⟩⟩, hsystem, ⟨rfl, ?_⟩, hread.settled,
    hparse, hresponses⟩
  · unfold Bifrost.deref
    dsimp only
    rw [Heap.read_eq_some.mpr ⟨_, rfl, hcell⟩]
  · funext a
    by_cases ha : a = s.heap.next
    · rw [ha, Heap.free_cell_of_mem List.mem_cons_self, s.heap.fresh _ (Nat.le_refl _)]
    · rw [Heap.free_cell_of_notMem (by simpa using ha)]
      exact hothers a ha

/-- A node that sends back what it gets, and the node that calls it. -/
def echoNode : Node Unit where
  prizm := Prizm.reference
  files := openFiles
  publicDirectory := []
  router := Router.compile [.system (lit "/echo") (some fun system req => ⟨system, req, [], req.content⟩)]

def echoCaller : Bifrost := { host := lit "127.0.0.1", port := lit "8081" }
def echoUrl : Bytes := lit "https://127.0.0.1:8080/echo"

/-- All at once, as far as it fits. -/
def wholeRead (bytes : Bytes) : List Bytes := [bytes.take responseSize].filter (· ≠ [])

theorem wholeRead_reads (bytes : Bytes) : Reads bytes (wholeRead bytes) := by
  by_cases hempty : bytes.take responseSize = []
  · have hnone : wholeRead bytes = [] := by simp [wholeRead, hempty]
    rw [hnone]
    exact ⟨fun piece hpiece => absurd hpiece List.not_mem_nil, hempty.symm⟩
  · have hone : wholeRead bytes = [bytes.take responseSize] := by simp [wholeRead, hempty]
    rw [hone]
    exact ⟨fun piece hpiece => List.mem_singleton.mp hpiece ▸ hempty, by simp⟩

theorem echo_callable : ∃ u, Url.parse echoUrl = .ok u ∧ u.path = lit "/echo" ∧ u.type = lit "plain" ∧
    Callable Base64Filter.reference echoCaller 0 u (lit "hello") := by
  have hpath : (lit "/echo").all (fun c => isspace c = false ∧ c ≠ 63 ∧ c ≠ 0) = true := by decide
  refine ⟨_, rfl, by decide, by decide, ⟨by decide, by decide, ⟨by decide, ⟨_, rfl⟩⟩, fun c hc => ?_,
    ⟨by decide, by decide⟩, .inr (by decide), ⟨by decide, by decide⟩, by decide, fun head hhead => ?_⟩⟩
  · exact of_decide_eq_true (List.all_eq_true.mp hpath c hc)
  · obtain rfl := Except.ok.inj hhead
    decide +kernel

theorem echo_result {req : Request} (h : req.path = lit "/echo") : echoNode.router.protocol req.path = .system ∧
    ∀ system, echoNode.router.exec req.path system req = ⟨system, req, [], req.content⟩ := by
  rw [h]
  exact ⟨rfl, fun system => rfl⟩

theorem remote_call_echo : ∃ served s' text v,
    echoCaller.send 0 echoUrl (lit "hello") 4
      (fetchFrom Base64Filter.reference StackBuffer.zeroed wholeRead fun bytes =>
        echoNode.answer Base64Filter.reference 0 ⟨[], ()⟩ (pollRequest (.fresh []) [bytes])) =
          .ok (text, some served, s') ∧
    CallMade echoCaller s' ∧ Picojson.parse Picojson.integers text = .ok (some v, []) ∧
    readResponses v = some [(echoUrl, lit "hello")] := by
  obtain ⟨u, hu, hpath, htype, hcallable⟩ := echo_callable
  have hcontent : ∀ req, CallRead Base64Filter.reference echoCaller u (lit "hello") req →
      req.path = lit "/echo" ∧ req.content = lit "hello" := by
    intro req hread
    refine ⟨hread.path.trans hpath, hread.content.trans ?_⟩
    exact if_neg (htype ▸ by decide)
  have hroute : ∀ req, CallRead Base64Filter.reference echoCaller u (lit "hello") req →
      SystemRoute echoNode ⟨[], ()⟩ req := by
    intro req hread
    obtain ⟨hecho, hhello⟩ := hcontent req hread
    obtain ⟨hprotocol, hexec⟩ := echo_result hecho
    have hshort : (cstr (lit "hello")).length < 2 ^ 31 := by decide
    refine ⟨hprotocol, by rw [hexec], ?_⟩
    rw [hexec, hhello]
    exact hshort
  have hsegments : ∀ bytes : Bytes, Brings bytes [bytes] :=
    fun bytes => ⟨bytes, [], rfl, List.prefix_refl bytes, cstr_isPrefix bytes⟩
  obtain ⟨req, served, s', text, v, hread, hsend, -, hmade, -, hparse, hresponses⟩ :=
    remote_call Picojson.integers_exact Base64Filter.reference_standard Prizm.reference_documented hu hcallable hroute
      StackBuffer.zeroed hsegments wholeRead_reads (le_refl 4) 0 []
  obtain ⟨hecho, hhello⟩ := hcontent req hread
  have hfits : arrivingText (lit "hello") = lit "hello" := by decide +kernel
  rw [(echo_result hecho).2, hhello, hfits] at hresponses
  exact ⟨served, s', text, v, hsend, hmade, hparse, hresponses⟩

end Jericho.Message
