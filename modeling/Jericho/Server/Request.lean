import Jericho.Crypt.Base64
import Jericho.Message.Callback

/-! The receive buffer of a connection and the request read out of it. -/
namespace Jericho.Server
open StdText Util Message Crypt

def maxRequestSize : Nat := 490000

/-- `std::string::npos` -/
def npos : Nat := 2^64 - 1

/-- A connection: the bytes received so far and the peer address. -/
structure Client where
  received : Bytes
  fits : received.length ≤ maxRequestSize
  address : Bytes := []
  deriving DecidableEq

/-- The zero-initialised `char request[MAX_REQUEST_SIZE + 1]`. -/
def Client.request (client : Client) : Bytes :=
  client.received ++ List.replicate (maxRequestSize + 1 - client.received.length) 0

/-- What a C-string reader sees in the buffer: the received bytes up to the first NUL. -/
theorem Client.cstr_request (client : Client) : cstr client.request = cstr client.received := by
  obtain ⟨n, hn⟩ : ∃ n, maxRequestSize + 1 - client.received.length = n + 1 :=
    ⟨maxRequestSize - client.received.length, by have := client.fits; omega⟩
  rw [Client.request, hn, List.replicate_succ]
  by_cases hz : (0 : Byte) ∈ client.received
  · exact cstr_append_of_mem hz _
  · rw [cstr_append_zero hz, cstr_eq_self_iff.mpr hz]

inductive ContentType where
  | octet
  | json
  | plain
  deriving DecidableEq

inductive EncodingType where
  | none
  | base64
  deriving DecidableEq

/-- `size` is not initialised before a `Content-Size` header sets it. -/
structure Request where
  content : Bytes := []
  size : Option Int := none
  type : ContentType := .plain
  encoding : EncodingType := .none
  headers : StrMap := ∅
  method : Bytes := []
  path : Bytes := []
  args : StrMap := ∅
  protocol : Bytes := []
  host : Bytes := []
  callback : Option Callback := none
  client : Client
  valid : Bool := true
  deriving DecidableEq

/-- `header` and `arg` read a map without inserting. -/
def Request.header (req : Request) (key : Bytes) : Bytes := req.headers.get key
def Request.arg (req : Request) (key : Bytes) : Bytes := req.args.get key

/-- The URL of a path at the host a request came from. -/
def Request.reply (req : Request) (protocol path : Bytes) : Bytes := protocol ++ lit "://" ++ req.host ++ path

def crlf : Bytes := [13, 10]
def crlf2 : Bytes := crlf ++ crlf

/-- What the parser collects before it fills the request: `args2` and `callbackMap`. -/
structure HeaderScan where
  req : Request
  args2 : StrMap := ∅
  callbackMap : StrMap := ∅

/-- The `Content-Size` block: digits are read as an `int`, anything else counts as 0. -/
def readSize (val : Bytes) : Exec Int := if val.all isdigit then stoi val else .ok 0

/-- A key that goes into the callback map. -/
def isCallbackKey (key : Bytes) : Bool := key ≠ lit "Host" && (Occurrence.find (lit "Callback-") key).isSome

/-- The headers that set a field of the request. -/
def headerMeta (req : Request) (key val : Bytes) : Request :=
  let req := if key = lit "Host" then { req with host := val } else req
  let req := if key = lit "Content-Encoding" ∧ val = lit "base64"
    then { req with encoding := .base64 } else req
  if key = lit "Content-Type" ∧ val = lit "application/octet-stream"
    then { req with type := .octet } else req

def headerSize (req : Request) (key val : Bytes) : Exec (Option Int) :=
  if key = lit "Content-Size" then (readSize val).map some else .ok req.size

/-- One `key: val` header. -/
def headerField (s : HeaderScan) (key val : Bytes) : Exec HeaderScan :=
  (headerSize s.req key val).map (fun size =>
    { req := { headerMeta s.req key val with size := size }
      args2 := s.args2.insert key val
      callbackMap := if isCallbackKey key then s.callbackMap.insert key val else s.callbackMap })

/-- The fields no header writes. -/
def HeaderScan.rest (s : HeaderScan) : Bytes × Option Callback × Client × StrMap × Bool :=
  (s.req.content, s.req.callback, s.req.client, s.req.args, s.req.valid)

/-- What one header does to the scan. -/
theorem headerField_ok {s s' : HeaderScan} {key val : Bytes} (h : headerField s key val = .ok s') :
    s'.args2 = s.args2.insert key val ∧
    s'.callbackMap = (if isCallbackKey key then s.callbackMap.insert key val else s.callbackMap) ∧
    s'.rest = s.rest := by
  obtain ⟨size, -, rfl⟩ := map_eq_ok.mp h
  refine ⟨rfl, rfl, ?_⟩
  unfold HeaderScan.rest headerMeta
  dsimp only
  split_ifs <;> rfl

/-- A header is read unless it is a `Content-Size` that does not fit an `int`. -/
theorem headerField_isOk_iff (s : HeaderScan) (key val : Bytes) :
    (∃ s', headerField s key val = .ok s') ↔ (key = lit "Content-Size" → ∃ n, readSize val = .ok n) := by
  unfold headerField headerSize
  simp only [map_eq_ok]
  by_cases hk : key = lit "Content-Size"
  · simp [hk, map_eq_ok]
  · simp [hk]

/-- A run of headers. -/
def scanFields (s : HeaderScan) (fs : List Field) : Exec HeaderScan :=
  fs.foldlM (fun s f => headerField s f.1 f.2) s

theorem scanFields_ok {fs : List Field} {s s' : HeaderScan} (h : scanFields s fs = .ok s') :
    s'.args2 = StrMap.assign s.args2 fs ∧
    s'.callbackMap = StrMap.assign s.callbackMap (fs.filter (isCallbackKey ·.1)) ∧ s'.rest = s.rest := by
  induction fs generalizing s with
  | nil =>
    obtain rfl := Except.ok.inj h
    exact ⟨rfl, rfl, rfl⟩
  | cons f fs ih =>
    obtain ⟨t, ht, h⟩ := bind_eq_ok.mp h
    obtain ⟨a1, c1, r1⟩ := headerField_ok ht
    obtain ⟨a2, c2, r2⟩ := ih h
    refine ⟨by rw [a2, a1]; rfl, ?_, r2.trans r1⟩
    rw [c2, c1, List.filter_cons]
    split <;> rfl

theorem scanFields_isOk_iff (s : HeaderScan) (fs : List Field) :
    (∃ s', scanFields s fs = .ok s') ↔ ∀ f ∈ fs, f.1 = lit "Content-Size" → ∃ n, readSize f.2 = .ok n := by
  induction fs generalizing s with
  | nil => simpa using ⟨s, rfl⟩
  | cons f fs ih =>
    rw [List.forall_mem_cons, ← headerField_isOk_iff s]
    constructor
    · rintro ⟨s', h⟩
      obtain ⟨t, ht, h⟩ := bind_eq_ok.mp h
      exact ⟨⟨t, ht⟩, (ih t).mp ⟨s', h⟩⟩
    · rintro ⟨⟨t, ht⟩, hfs⟩
      obtain ⟨s', hs'⟩ := (ih t).mpr hfs
      exact ⟨s', bind_eq_ok.mpr ⟨t, ht, hs'⟩⟩

variable (prizm : Prizm)

/-- A line after the first one; a line without a separator is skipped. -/
def headerLine (s : HeaderScan) (word : Bytes) : Exec HeaderScan :=
  match Occurrence.find (lit ": ") word with
  | some sep => headerField s (word.take sep) (prizm.erase (word.drop (sep + 2)) 13)
  | none => .ok s

structure RequestLine where
  sepGate : Nat := 0
  method : Bytes := []
  path : Bytes := []
  protocol : Bytes := []
  deriving DecidableEq

/-- One character of `protoHead`. -/
def RequestLine.read (l : RequestLine) (c : Byte) : RequestLine :=
  if c = 32 then { l with sepGate := l.sepGate + 1 }
  else if c = 9 then l
  else if c = 13 then l
  else if l.sepGate = 0 then { l with method := l.method ++ [c] }
  else if l.sepGate = 1 then { l with path := l.path ++ [c] }
  else if l.sepGate = 2 then { l with protocol := l.protocol ++ [c] }
  else l

/-- `key=val` pairs between `&`. -/
def parseArgs (args : StrMap) (text : Bytes) : StrMap :=
  (prizm.tokenize text 38).foldl (fun args t =>
    match Occurrence.find [61] t with
    | some p => args.insert (t.take p) (t.drop (p + 1))
    | none => args) args

/-- The query of the path. -/
def splitQuery (req : Request) : Request :=
  match Occurrence.find [63] req.path with
  | some p => { req with path := req.path.take p, args := parseArgs prizm req.args (req.path.drop (p + 1)) }
  | none => req

variable (bio : Base64Filter)

/-- The body of an octet-stream post, read again from the receive buffer. -/
def octetContent (req : Request) : Exec Bytes :=
  match Occurrence.find crlf2 (cstr req.client.request) with
  | none => .ok req.content
  | some p =>
    match req.size with
    | none => .error .undefined
    | some size =>
      let n := sizeNum size.toNat
      -- reading past the buffer
      if maxRequestSize + 1 < p + 4 + n then .error .undefined
      else
        let cont := (req.client.request.drop (p + 4)).take n
        match req.encoding with
        | .none => .ok []
        | .base64 => decodeUrl bio (if 0 ∈ cont then cont.dropLast else cont)

def readContent (req : Request) : Exec Request :=
  if req.method = lit "POST" ∧ req.content ≠ [] then
    match req.type with
    | .octet => (octetContent bio req).map (fun content => { req with content := content })
    | _ =>
      if (38 : Byte) ∈ req.content then .ok { req with args := parseArgs prizm req.args req.content }
      else .ok req
  else .ok req

/-- `getline` on the header text; empty lines are dropped. -/
def headerWords (headerStr : Bytes) : List Bytes := (headerStr.splitOn 10).filter (· ≠ [])

/-- The request after all headers: the callback is built, the request line is stored. -/
def fillRequest (s : HeaderScan) (l : RequestLine) : Exec Request :=
  let req := { s.req with method := l.method, path := l.path, protocol := l.protocol, headers := s.args2 }
  if s.callbackMap = ∅ then .ok req
  else (Callback.ofMap s.callbackMap).map (fun cb => { req with callback := some cb })

/-- `Request::parseHeaders` -/
def Request.parseHeaders (req : Request) (headerStr : Bytes) : Exec Request := do
  let words := headerWords headerStr
  let s ← words.tail.foldlM (headerLine prizm) ⟨req, ∅, ∅⟩
  let req ← fillRequest s ((words.headD []).foldl RequestLine.read {})
  readContent prizm bio (splitQuery prizm req)

/-- `Request::eval`: cut the received text into headers and content, then parse. -/
def Request.eval (client : Client) : Exec Request :=
  let bytes := cstr client.request
  let p := (Occurrence.find crlf2 bytes).getD npos
  let req : Request := { client := client, valid := p ≠ npos }
  -- `bytes.size() - 4` wraps around on short texts
  if p ≠ (bytes.length + 2^64 - 4) % 2^64 then
    match Occurrence.tokens crlf2 bytes with
    | [headersStr, content] => Request.parseHeaders prizm bio { req with content := content } headersStr
    | _ => Request.parseHeaders prizm bio req []
  else Request.parseHeaders prizm bio req bytes

end Jericho.Server
