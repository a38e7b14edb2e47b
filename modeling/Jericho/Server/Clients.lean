import Jericho.Library.LinkedQueue
import Jericho.Library.Runs
import Jericho.Library.StdText

/-! The linked list of clients: connections that are accepted, dropped and closed. -/
namespace Jericho.Server
open StdText Runs

inductive SocketState where
  | null
  | connecting
  | closing
  | openStatic
  | openWs
  | upgrading
  | alive
  | closed
  deriving DecidableEq

/-- The fields of a client that the list is kept with; `ssl` is whether the pointer is set. -/
structure Entry where
  socket : Int := 0
  next : Option Nat := none
  state : SocketState := .null
  ssl : Bool := false
  promised : Bool := false
  id : Int

/-- The list with its counters, and the descriptors of the process that belong to connections. -/
structure Clients where
  heap : Heap Entry := Heap.empty
  head : Option Nat := none
  numClients : Int := 0
  clientId : Int := -1
  descriptors : List Int := []

/-- The pointer that `drop_client` walks along: the head of the list, or the link of a node. -/
inductive Place where
  | head
  | next (a : Nat)

/-- What OpenSSL makes of a connection: whether `SSL_new` gives an object, and the handshake ends well. -/
structure Tls where
  created : Bool := true
  accepted : Bool := true

namespace Clients

def read (l : Clients) (p : Option Nat) : Exec Entry :=
  match l.heap.read p with
  | some client => .ok client
  | none => .error .undefined

def write (l : Clients) (a : Nat) (client : Entry) : Clients := { l with heap := l.heap.write (some a) client }

/-- Closing a descriptor. -/
def closeSocket (l : Clients) (s : Int) : Clients := { l with descriptors := l.descriptors.erase s }

/-- The loop of `get_client`. -/
def findLoop (l : Clients) (s : Int) : Nat → Option Nat → Exec (Option Nat)
  | _, none => .ok none
  | 0, some _ => .error .undefined
  | rounds + 1, some a => do
    let ci ← l.read (some a)
    if ci.socket = s then .ok (some a) else l.findLoop s rounds ci.next

def getClient (l : Clients) (s : Int) : Exec (Nat × Clients) := do
  match ← l.findLoop s l.heap.next l.head with
  | some ci => .ok (ci, l)
  | none =>
    let id ← increment l.clientId
    let n := { id := id, next := l.head }
    .ok (l.heap.next,
      { l with
        heap := l.heap.alloc n
        head := some l.heap.next
        numClients := l.numClients + 1
        clientId := id })

/-- `connection_setup` up to `accept`, which returns a descriptor that was not open, or minus one. -/
def acceptClient (l : Clients) (fd : Int) : Exec (Nat × Clients) := do
  let (a, l) ← l.getClient (-1)
  let client ← l.read (some a)
  let l := l.write a { client with socket := fd }
  return (a, { l with descriptors := if fd = -1 then l.descriptors else fd :: l.descriptors })

def deref (l : Clients) : Place → Exec (Option Nat)
  | .head => .ok l.head
  | .next a => do
    let client ← l.read (some a)
    return client.next

def assign (l : Clients) (place : Place) (p : Option Nat) : Exec Clients :=
  match place with
  | .head => .ok { l with head := p }
  | .next a => do
    let client ← l.read (some a)
    return l.write a { client with next := p }

/-- The loop of `drop_client`, which needs a round for each node it passes. Behind it a client that
was not found is reported. -/
def dropLoop (client : Nat) : Nat → Place → Clients → Exec Clients
  | 0, _, _ => .error .undefined
  | rounds + 1, place, l => do
    match ← l.deref place with
    | none => .ok l
    | some a =>
      if a = client then
        let c ← l.read (some client)
        let l ← l.assign place c.next
        return { l with heap := l.heap.free [some client], numClients := l.numClients - 1 }
      else dropLoop client rounds (.next a) l

/-- `SSL_shutdown` reads the object of the connection, which is not there where `SSL_new` failed. -/
def sslShutdown (ssl : Bool) : Exec Unit := if ssl then .ok () else .error .undefined

def dropClient (l : Clients) (client : Nat) : Exec Clients := do
  let c ← l.read (some client)
  if ¬ c.promised then
    sslShutdown c.ssl
    dropLoop client (l.heap.next + 1) .head (l.closeSocket c.socket)
  else return l

def closeClient (l : Clients) (client : Nat) : Exec Clients := do
  let c ← l.read (some client)
  let l := l.closeSocket c.socket
  return l.write client { c with state := .closed, socket := -1 }

/-- `connection_setup`, with what it returns. -/
def connectionSetup (l : Clients) (fd : Int) (tls : Tls) : Exec (Clients × Int) := do
  let (a, l) ← l.acceptClient fd
  let client ← l.read (some a)
  let l := l.write a { client with ssl := tls.created }
  if ¬ tls.created then return (l, -1)
  else if ¬ tls.accepted then
    let l ← l.dropClient a
    return (l, 0)
  else return (l, 0)

inductive Call where
  | connectionSetup (fd : Int) (tls : Tls)
  | dropClient (client : Nat)
  | closeClient (client : Nat)

def step (l : Clients) : Call → Exec Clients
  | .connectionSetup fd tls => do
    let (l, _) ← l.connectionSetup fd tls
    return l
  | .dropClient client => l.dropClient client
  | .closeClient client => l.closeClient client

/-- The list of a new server after some calls. -/
def run (calls : List Call) : Exec Clients := calls.foldlM step {}

end Clients
end Jericho.Server
