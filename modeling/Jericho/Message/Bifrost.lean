import Mathlib.Logic.Function.Basic
import Jericho.Library.Heap
import Jericho.Message.MessageBuffer
import Jericho.Server.Request
import Jericho.Util.Json
import Jericho.Util.UrlConstructor

/-! `Bifrost`: the broker table, the messages the brokers list, and the fetch jobs that work on them. -/
namespace Jericho.Message
open StdText Util Server

abbrev Addr := Nat

/-- A broker. Its messages are set before it is registered and never again, so a shared pointer to
a broker is the broker itself. -/
structure MessageBroker where
  id : Nat
  messages : List (Option Addr)
  deriving DecidableEq

/-- Where a fetch job stands. While it publishes or marks its message it holds the broker. -/
inductive JobPhase where
  | queued
  | publishing
  | fetching
  | marking
  | closing
  | finished
  deriving DecidableEq

structure Job where
  buf : Option Addr
  phase : JobPhase := .queued
  lock : Option MessageBroker := none
  deriving DecidableEq

/-- A job request in the server loop: whether a callback hangs on it, how often that was released,
and whether the loop will still delete the request. -/
structure JobRequest where
  callback : Bool
  released : Nat
  kept : Bool
  deriving DecidableEq

/-- A node. -/
structure Bifrost where
  host : Bytes
  port : Bytes
  ticketId : Int := -1
  messageId : Int := -1
  brokers : AList (fun _ : Int => MessageBroker) := ∅
  fnfs : List Addr := []
  latencies : Int → List UInt64 := fun _ => []
  heap : Heap MessageBuffer := Heap.empty
  nextBroker : Nat := 0
  jobs : List Job := []
  requests : List JobRequest := []

namespace Bifrost

/-- Reading through a message pointer. -/
def deref (s : Bifrost) (buf : Option Addr) : Exec MessageBuffer :=
  match s.heap.read buf with
  | some m => .ok m
  | none => .error .undefined

/-- Who keeps a broker alive: the table, and the jobs that locked it. -/
def owners (s : Bifrost) : List MessageBroker := s.brokers.entries.map Sigma.snd ++ s.jobs.filterMap Job.lock

/-- An owner is gone; with the last one the destructor deletes the messages. -/
def release (s : Bifrost) (broker : MessageBroker) : Bifrost :=
  if s.owners.any (·.id = broker.id) then s else { s with heap := s.heap.free broker.messages }

def releaseOld (s : Bifrost) (old : Option MessageBroker) : Bifrost := old.elim s s.release

/-- `_brokers[ticket] = broker` -/
def setBroker (s : Bifrost) (ticket : Int) (broker : MessageBroker) : Bifrost :=
  releaseOld { s with brokers := s.brokers.insert ticket broker } (s.brokers.lookup ticket)

/-- `_brokers.erase(ticket)` -/
def erase (s : Bifrost) (ticket : Int) : Bifrost :=
  releaseOld { s with brokers := s.brokers.erase ticket } (s.brokers.lookup ticket)

/-- A broker goes into the table and its messages to the thread pool. -/
def register (s : Bifrost) (ticket : Int) (broker : MessageBroker) : Bifrost :=
  let s := s.setBroker ticket broker
  { s with jobs := s.jobs ++ broker.messages.map ({ buf := · }) }

/-- `buffer`: nothing for a URL without a port. -/
def buffer (s : Bifrost) (now : Int) (url : Bytes) (broker : Option Nat) : Exec (Option Addr × Bifrost) := do
  let u ← Url.parse url
  if u.ip then
    let id ← increment s.messageId
    let buf : MessageBuffer :=
      { id := id, hostname := s.host, port := u.port, fromHost := s.host, fromPort := s.port, toHost := u.host
        toPort := u.port, protocol := u.protocol, sent := lit "Ping from " ++ s.port, path := u.path, type := u.type
        dir := if u.protocol = lit "jfl" then lit "/cluster" else lit "undefined"
        broker := broker, url := u.url, timestamp := now }
    return (some s.heap.next, { s with heap := s.heap.alloc buf, messageId := id })
  else return (none, s)

/-- What a sender writes into a message if there is content. -/
def fill (s : Bifrost) (buf : Option Addr) (content : Bytes) (f : MessageBuffer → MessageBuffer) : Exec Bifrost :=
  if content = [] then .ok s else (s.deref buf).map fun m => { s with heap := s.heap.write buf (f m) }

/-- One message of a sender. -/
def message (now : Int) (broker : Nat) (content : Bytes) (f : MessageBuffer → MessageBuffer) (url : Bytes)
    (s : Bifrost) : Exec (Option Addr × Bifrost) := do
  let (buf, s) ← s.buffer now url (some broker)
  let s ← s.fill buf content f
  return (buf, s)

/-- The messages of a sender, one for each URL. -/
def prepare (now : Int) (broker : Nat) (content : Bytes) (f : MessageBuffer → MessageBuffer) :
    List Bytes → Bifrost → Exec (List (Option Addr) × Bifrost)
  | [], s => .ok ([], s)
  | url :: urls, s => do
    let (buf, s) ← message now broker content f url s
    let (mq, s) ← prepare now broker content f urls s
    return (buf :: mq, s)

/-- `dump` reads every message. -/
def dump (s : Bifrost) (messages : List (Option Addr)) : Exec (List MessageBuffer) := messages.mapM s.deref

/-- What the senders have in common: a new broker, its messages, the registration. Some dump the
messages on the way. -/
def post (s : Bifrost) (now : Int) (ticket : Int) (urls : List Bytes) (content : Bytes) (dumped : Bool)
    (f : MessageBuffer → MessageBuffer) : Exec Bifrost := do
  let (mq, s') ← prepare now s.nextBroker content f urls { s with nextBroker := s.nextBroker + 1 }
  let _ ← (if dumped then s'.dump mq else .ok [])
  return s'.register ticket ⟨s.nextBroker, mq⟩

end Bifrost

def ticketText : Bytes := lit "Ticket"
def brokerType : Bytes := lit "Broker-Type"
def messageIdText : Bytes := lit "Message-Id"

/-- The headers of a message, and those of a callback. -/
def MessageBuffer.fill (m : MessageBuffer) (content : Bytes) (ticket : Int) (headers : List Field)
    (callback : Option Callback) : MessageBuffer :=
  { m with
    sent := content
    ticket := ticket
    headers := callback.elim (m.headers.assign headers) fun callback => callback.serialize (m.headers.assign headers) }

namespace Bifrost

/-- `send_async` -/
def sendAsync (s : Bifrost) (now : Int) (url content : Bytes) (callback : Option Callback) : Exec (Int × Bifrost) := do
  let ticket ← increment s.ticketId
  let s' ← { s with ticketId := ticket }.post now ticket [url] content false fun m =>
    m.fill content ticket [⟨brokerType, lit "simple"⟩, ⟨ticketText, toText ticket⟩, ⟨messageIdText, toText m.id⟩]
      callback
  return (ticket, s')

/-- `broadcast_async` -/
def broadcastAsync (s : Bifrost) (now : Int) (urls : List Bytes) (content : Bytes) : Exec (Int × Bifrost) := do
  let ticket ← increment s.ticketId
  let s' ← { s with ticketId := ticket }.post now ticket urls content false fun m =>
    m.fill content ticket [⟨brokerType, lit "broadcast"⟩, ⟨ticketText, toText ticket⟩, ⟨messageIdText, toText m.id⟩]
      none
  return (ticket, s')

/-- `ricochet_async` -/
def ricochetAsync (s : Bifrost) (now : Int) (url content : Bytes) (callback : Option Callback) :
    Exec (Int × Bifrost) := do
  let ticket ← increment s.ticketId
  let s' ← { s with ticketId := ticket }.post now ticket [url] content true fun m =>
    m.fill content ticket [⟨ticketText, toText ticket⟩, ⟨brokerType, lit "ricochet"⟩] callback
  return (ticket, s')

/-- `ricochet_reply`: the ticket is the caller's, the headers are those of the request. -/
def ricochetReply (s : Bifrost) (now : Int) (req : Request) (url content : Bytes) (callback : Option Callback)
    (type : Bytes) (ticket : Int) : Exec Bifrost :=
  s.post now ticket [url] content true fun m =>
    m.fill content ticket [⟨ticketText, req.header ticketText⟩, ⟨brokerType, type⟩,
      ⟨messageIdText, req.header messageIdText⟩] callback

/-- The `MessageBuffer` constructor of `reply`, which takes its number from the ticket counter. -/
def replyBuffer (s : Bifrost) (now : Int) (url : Bytes) : Exec (MessageBuffer × Bifrost) := do
  let u ← Url.parse url
  if u.ip then
    let id ← increment s.ticketId
    return ({ id := id, port := u.port, toHost := u.host, toPort := u.port, protocol := u.protocol, path := u.path
              type := u.type, dir := if u.protocol = lit "jfl" then lit "/cluster" else lit "undefined"
              url := u.url, timestamp := now }, { s with ticketId := id })
  else return ({ timestamp := now }, s)

/-- The content and headers `reply` writes, and its own address, also as the port to connect to. -/
def replyFill (s : Bifrost) (req : Request) (content : Bytes) (callback : Option Callback) (type : Bytes)
    (m : MessageBuffer) : Exec MessageBuffer :=
  if content = [] then .ok m
  else (stoi (req.header ticketText)).map fun ticket =>
    { m.fill content ticket [⟨ticketText, req.header ticketText⟩, ⟨brokerType, type⟩,
        ⟨messageIdText, req.header messageIdText⟩] callback with
      hostname := s.host, fromHost := s.host, fromPort := s.port, port := s.port }

/-- `reply` -/
def reply (s : Bifrost) (now : Int) (req : Request) (url content : Bytes) (callback : Option Callback)
    (type : Bytes) : Exec Bifrost := do
  let (m, s) ← s.replyBuffer now url
  let m ← s.replyFill req content callback type m
  return { s with
    heap := s.heap.alloc m, fnfs := s.fnfs ++ [s.heap.next], jobs := s.jobs ++ [{ buf := some s.heap.next }] }

/-- The age of a message in microseconds, as an `int`, against its timeout. -/
def expired (now : Int) (m : MessageBuffer) : Bool := m.timeout < Int.bmod ((now - m.timestamp).tdiv 1000) (2 ^ 32)

/-- The sweep over the copy of a broker's messages. After an erasure the index still moves on, so
the message that took the place is not looked at. -/
def unexpired (s : Bifrost) (now : Int) : List (Option Addr) → Exec (List (Option Addr))
  | [] => .ok []
  | [buf] => do
    let m ← s.deref buf
    return if expired now m then [] else [buf]
  | buf :: next :: rest => do
    let m ← s.deref buf
    if expired now m then return next :: (← unexpired s now rest)
    else return buf :: (← unexpired s now (next :: rest))

def cleanseBroker (now : Int) (s : Bifrost) (entry : Σ _ : Int, MessageBroker) : Exec Bifrost := do
  let left ← s.unexpired now entry.2.messages
  return if left = [] then s.erase entry.1 else s

def cleanseFnf (s : Bifrost) (a : Addr) : Exec Bifrost := do
  let m ← s.deref (some a)
  return if m.fulfilled ≠ 0 then { s with heap := s.heap.free [some a], fnfs := s.fnfs.erase a } else s

/-- `cleanse` -/
def cleanse (s : Bifrost) (now : Int) : Exec Bifrost := do
  let s ← s.brokers.entries.foldlM (cleanseBroker now) s
  s.fnfs.foldlM cleanseFnf s

end Bifrost

/-- `batch_serialize` -/
def batchSerialize (responses : List (Bytes × Bytes)) : Bytes :=
  objectText [(lit "command", serializeStr (lit "null")),
    (lit "responses", arrayText (responses.map fun res =>
      objectText [(lit "message", serializeStr res.2), (lit "status", serializeStr (lit "200")),
        (lit "url", serializeStr res.1)])),
    (lit "status", serializeStr (lit "200"))]

/-- What a fetch got; the latency is stored if it is below the time limit. -/
structure FetchResult where
  result : Bytes
  latency : Option UInt64 := none

/-- What a reply does to one message of a broadcast. -/
def MessageBuffer.receive (m : MessageBuffer) (messageId : Int) (content : Bytes) : MessageBuffer :=
  if m.fulfilled = 0 ∧ m.id = messageId then { m with fulfilled := 1, received := content } else m

/-- A finished call of `fulfill`: its status, the response it set, what it sent to the client, the
request as it left it, and whether it deleted the callback. -/
structure Fulfilled where
  status : Int
  request : Request
  response : Option Bytes := none
  sent : Option Bytes := none
  deleted : Bool := false

namespace Bifrost

/-- The loop over the messages of a broadcast: the messages written, whether all were fulfilled,
and the responses so far. -/
def collect (messageId : Int) (content : Bytes) :
    List (Option Addr) → Bifrost → Exec (Bifrost × Bool × List (Bytes × Bytes))
  | [], s => .ok (s, true, [])
  | buf :: rest, s => do
    let m ← s.deref buf
    let m := m.receive messageId content
    let (s, all, responses) ← collect messageId content rest { s with heap := s.heap.write buf m }
    if m.fulfilled = 0 then return (s, false, responses)
    else return (s, all, (m.url, m.received) :: responses)

/-- The broadcast branch. -/
def fulfillBroadcast (s : Bifrost) (req : Request) (ticket : Int) (broker : MessageBroker) :
    Exec (Fulfilled × Bifrost) := do
  let messageId ← stoi (req.header messageIdText)
  let (s, all, responses) ← collect messageId req.content broker.messages s
  if all then return ({ status := 1, request := req, response := some (batchSerialize responses) }, s.erase ticket)
  else return ({ status := 0, request := req }, s)

/-- One more round trip of a ricochet. -/
def bounced (callback : Callback) : Exec Callback := do
  let count ← (if callback.satellite then .ok callback.count else increment callback.count)
  return { callback with count := count, satellite := !callback.satellite }

/-- The ricochet branch. Means of latencies are computed in floating point, by `average`. -/
def fulfillRicochet (average : List UInt64 → Bytes) (s : Bifrost) (req : Request) (ticket : Int)
    (callback : Callback) (messages : List MessageBuffer) : Exec (Fulfilled × Bifrost) :=
  match messages with
  | [] => .error .undefined
  | first :: _ => do
    let latencies := s.latencies ticket ++ [first.latency]
    let s := { s with latencies := Function.update s.latencies ticket latencies }
    if callback.count ≠ callback.limit then
      let callback ← bounced callback
      return ({ status := 2, request := { req with callback := some callback } }, s)
    else
      let content := if callback.fn = lit "AVG" then average latencies else req.content
      let req := { req with content := content, callback := some { callback with resolved := true } }
      return ({ status := 2, request := req }, s)

/-- `fulfill` -/
def fulfill (average : List UInt64 → Bytes) (s : Bifrost) (req : Request) : Exec (Fulfilled × Bifrost) := do
  let ticket ← stoi (req.header ticketText)
  let type := req.header brokerType
  match s.brokers.lookup ticket with
  | none => return ({ status := 0, request := req }, s)
  | some broker =>
    let messages ← s.dump broker.messages
    match req.callback with
    | none =>
      if type = lit "simple" then
        return ({ status := 1, request := req, response := some req.content, sent := some (cstr req.content) },
          s.erase ticket)
      else if type = lit "broadcast" then s.fulfillBroadcast req ticket broker
      else return ({ status := 0, request := req }, s)
    | some callback =>
      if callback.resolved then return ({ status := 2, request := req, deleted := true }, s.erase ticket)
      else if type = lit "ricochet" then fulfillRicochet average s req ticket callback messages
      else return ({ status := 0, request := req }, s)

/-- A job request in the server loop. It is deleted at once with status 1, never with status 0,
and after it was served with status 2. -/
def job (average : List UInt64 → Bytes) (s : Bifrost) (req : Request) : Exec (Fulfilled × Bifrost) := do
  let (out, s) ← fulfill average s req
  let deleted := (if out.deleted then 1 else 0) + if out.status = 1 ∧ req.callback.isSome then 1 else 0
  let request : JobRequest := { callback := req.callback.isSome, released := deleted, kept := out.status = 2 }
  return (out, { s with requests := s.requests ++ [request] })

/-- The `delete req` at the end of the loop, with the callback that hangs on it. -/
def deleteRequest (s : Bifrost) (i : Nat) : Bifrost :=
  { s with requests := s.requests.modify i fun r =>
      if r.kept then { r with kept := false, released := r.released + if r.callback then 1 else 0 } else r }

/-- `publish` and `mark` lock the weak pointer. -/
def lockBroker (s : Bifrost) (m : MessageBuffer) : Option MessageBroker :=
  m.broker.bind fun id => s.owners.find? (·.id = id)

def setJob (s : Bifrost) (i : Nat) (job : Job) : Bifrost := { s with jobs := s.jobs.set i job }

def unlock (s : Bifrost) (i : Nat) (job : Job) (phase : JobPhase) : Bifrost :=
  releaseOld (s.setJob i { job with phase := phase, lock := none }) job.lock

/-- The `finish` block of `fetch`, its writes taken as one step. -/
def complete (s : Bifrost) (i : Nat) (job : Job) (m : MessageBuffer) (got : FetchResult) : Bifrost :=
  let m := { m with
    fulfilled := if got.result = lit "ERROR" then 2 else 1
    received := got.result
    latency := got.latency.getD m.latency }
  { s with heap := s.heap.write job.buf m }.setJob i { job with phase := .marking, lock := s.lockBroker m }

/-- The next step of a fetch job. -/
def work (s : Bifrost) (i : Nat) (got : FetchResult) : Exec Bifrost :=
  match s.jobs[i]? with
  | none => .ok s
  | some job =>
    match job.phase with
    | .queued => do
      let m ← s.deref job.buf
      if m.port.all isdigit then
        let _ ← stoi m.port
        return s.setJob i { job with phase := .publishing, lock := s.lockBroker m }
      else return s.complete i job m { result := lit "ERROR" }
    | .publishing => .ok (s.unlock i job .fetching)
    | .fetching => do
      let m ← s.deref job.buf
      return s.complete i job m got
    | .marking => .ok (s.unlock i job .closing)
    | .closing => do
      let _ ← s.deref job.buf
      return s.setJob i { job with phase := .finished }
    | .finished => .ok s

end Bifrost
end Jericho.Message
