import Jericho.Message.Bifrost
import Jericho.Server.ClientList
import Jericho.Server.Segments

/-! The server loop: it waits for the clients, accepts a connection, and answers the clients whose
sockets are set, in the order of the list. -/
namespace Jericho.Server
open StdText Util Message Crypt

/-- `FD_SETSIZE` -/
def fdSetSize : Int := 1024

/-- The fields of a client that the list is not kept with. The buffer of a web socket is not followed: the
jobs of the thread pool write it at any time. -/
structure Connection where
  buffer : Client
  websocket : Bool := false

/-- The state of `run`: the list, the clients in it by their addresses, the web socket of the router,
and the node. -/
structure Loop where
  clients : Clients := {}
  connections : Nat → Connection := fun _ => { buffer := .fresh [] }
  ws : Option Nat := none
  node : Bifrost

/-- What becomes of a client: it is left alone, or dropped, which ends the pass, or it is cleaned up
with a new state, and has become a web socket or not. Before it is dropped a message may be pushed to the
web socket of the router. -/
inductive Verdict where
  | keep
  | close (pushed : Option Bytes)
  | finish (state : SocketState) (upgraded : Bool)
  deriving DecidableEq

/-- What one client sends while it is answered, and when; of a web socket how many bytes are counted in its
buffer, before it is read and after, and what it holds then. -/
structure Poll where
  now : Int
  segments : List Bytes := []
  counted : Nat × Nat := (0, 0)
  held : Client := .fresh []

/-- What happens in one pass of the loop. -/
structure Pass where
  ready : Int → Bool
  accepted : Option (Int × Tls) := none
  polls : Nat → Poll

/-- The state that the `Connection` header asks for. -/
def connectionState (old : SocketState) (req : Request) : SocketState :=
  let conn := req.headers.get (lit "Connection")
  if conn = lit "keep-alive" then .alive
  else if conn = lit "closed" then .closing
  else if conn = lit "Upgrade" then .upgrading
  else old

/-- `JsonResponse::ws`; picojson has the fields in the order of their keys. -/
def JsonResponse.ws (status : Int) (response command : Bytes) (obj : Option (List (Bytes × Bytes))) : Bytes :=
  objectText ([(lit "command", serializeStr command), (lit "message", serializeStr response)] ++
    (obj.map fun fields => (lit "obj", objectText fields)).toList ++ [(lit "status", serializeStr (toText status))])

/-- What is pushed to the web socket for a job that is fulfilled. -/
def pushText (host response : Bytes) : Bytes :=
  JsonResponse.ws 200 (lit "placeholder") (lit "null")
    (some [(lit "host", serializeStr host), (lit "message", serializeStr response)])

/-- How many bytes are counted in the buffer of a client before it is read and after, and what it holds then. -/
def Connection.polled (c : Connection) (poll : Poll) : Nat × Nat × Client :=
  if c.websocket then (poll.counted.1, poll.counted.2, poll.held)
  else
    let buffer := pollRequest c.buffer poll.segments
    (c.buffer.received.length, buffer.received.length, buffer)

section Answer
variable (prizm : Prizm) (bio : Base64Filter) (average : List UInt64 → Bytes)
  (serve : Request → Bifrost → Exec Bifrost)

/-- `delete req`, if the node keeps a record of it. -/
def deleteRecord (node : Bifrost) (record : Option Nat) : Bifrost := record.elim node node.deleteRequest

/-- The answer to a request that is not settled as a job. -/
def settle (node : Bifrost) (old : SocketState) (websocket : Bool) (record : Option Nat) (req : Request) :
    Exec (Bifrost × Verdict) := do
  if ¬ req.valid then return (deleteRecord node record, .close none)
  let state := connectionState old req
  if state = .upgrading ∨ state = .openWs then return (deleteRecord node record, .finish state true)
  let node ← (if state = .alive then serve req node else .ok node)
  return (if websocket then node else deleteRecord node record, .finish state false)

/-- What the loop does with a client whose socket is set: its request is read and evaluated, and is a job
or is served. -/
def answer (node : Bifrost) (old : SocketState) (c : Connection) (poll : Poll) : Exec (Bifrost × Client × Verdict) := do
  let node ← node.cleanse poll.now
  let (before, after, buffer) := c.polled poll
  if before = maxRequestSize then return (node, c.buffer, .keep)
  if after = 0 then return (node, buffer, .finish old false)
  let req ← Request.eval prizm bio buffer
  if req.protocol = lit "JOB" then
    let record := node.requests.length
    let (out, node) ← node.job average req
    if out.status = 1 then
      return (node, buffer, .close (some (pushText (out.request.header (lit "Host")) (out.response.getD []))))
    if out.status = 0 then return (node, buffer, .close none)
    let (node, verdict) ← settle serve node old c.websocket (some record) out.request
    return (node, buffer, verdict)
  let (node, verdict) ← settle serve node old c.websocket none req
  return (node, buffer, verdict)

namespace Loop

/-- `wait_on_clients` up to `select`: the sockets it asks for. -/
def waitLoop (l : Clients) : Nat → Option Nat → Exec (List Int)
  | _, none => .ok []
  | 0, some _ => .error .undefined
  | rounds + 1, some a => do
    let ci ← l.read (some a)
    if 0 ≤ ci.socket ∧ ci.socket < fdSetSize then
      let sockets ← waitLoop l rounds ci.next
      return ci.socket :: sockets
    else .error .undefined

/-- `ws_send` copies the message into the request buffer of the web socket without a look at its size. The
text must leave room for the terminator that the readers of the buffer need. -/
def wsSend (s : Loop) (message : Bytes) : Exec Unit :=
  match s.ws with
  | none => .ok ()
  | some w => do
    let _ ← s.clients.read (some w)
    if (cstr message).length ≤ maxRequestSize then .ok () else .error .undefined

def drop (s : Loop) (a : Nat) : Exec Loop := do
  let clients ← s.clients.dropClient a
  return { s with clients := clients }

/-- What is done about a verdict; whether the pass goes on. -/
def carryOut (s : Loop) (a : Nat) (client : Entry) : Verdict → Exec (Loop × Bool)
  | .keep => .ok (s, true)
  | .close pushed => do
    pushed.elim (.ok ()) s.wsSend
    let s ← s.drop a
    return (s, false)
  | .finish state upgraded => do
    let c := s.connections a
    let s := { s with
      clients := s.clients.write a { client with state := state }
      connections := Function.update s.connections a { c with websocket := c.websocket || upgraded }
      ws := if upgraded ∧ state = .upgrading then some a else s.ws }
    if c.websocket || upgraded then return (s, true)
    let s ← s.drop a
    return (s, true)

/-- A client whose socket is set. Whatever is done with it reads its OpenSSL object. -/
def visit (s : Loop) (a : Nat) (client : Entry) (poll : Poll) : Exec (Verdict × Loop × Bool) := do
  if ¬ client.ssl then .error .undefined
  let c := s.connections a
  let (node, buffer, verdict) ← answer prizm bio average serve s.node client.state c poll
  let s := { s with node := node, connections := Function.update s.connections a { c with buffer := buffer } }
  let (s, go) ← s.carryOut a client verdict
  return (verdict, s, go)

/-- The loop over the clients, which remembers the next one before it answers. Beside the new state it
gives the clients that were answered. -/
def walk (p : Pass) (reads : List Int) : Nat → Option Nat → Loop → Exec (List (Nat × Verdict) × Loop)
  | _, none, s => .ok ([], s)
  | 0, some _, _ => .error .undefined
  | rounds + 1, some a, s => do
    let client ← s.clients.read (some a)
    if client.socket ∈ reads then
      let (verdict, s, go) ← s.visit prizm bio average serve a client (p.polls a)
      if go then
        let (visited, s) ← walk p reads rounds client.next s
        return ((a, verdict) :: visited, s)
      else return ([(a, verdict)], s)
    else walk p reads rounds client.next s

def accept (s : Loop) : Option (Int × Tls) → Exec Loop
  | none => .ok s
  | some (fd, tls) => do
    let (clients, _) ← s.clients.connectionSetup fd tls
    return { s with clients := clients }

/-- One pass of the loop in `run`. -/
def pass (s : Loop) (p : Pass) : Exec (List (Nat × Verdict) × Loop) := do
  let sockets ← waitLoop s.clients s.clients.heap.next s.clients.head
  let s ← s.accept p.accepted
  walk prizm bio average serve p (sockets.filter p.ready) s.clients.heap.next s.clients.head s

/-- The state that a task of the thread pool leaves its client in, which is a web socket. -/
def task (s : Loop) (a : Nat) (state : SocketState) : Exec Loop := do
  let client ← s.clients.read (some a)
  return { s with clients := s.clients.write a { client with state := state } }

end Loop
end Answer
end Jericho.Server
