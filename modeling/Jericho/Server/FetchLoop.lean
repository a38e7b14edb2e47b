import Jericho.Library.TextLines
import Jericho.Server.Wire

/-! The read loop of `fetch`: the bytes of a response, as `SSL_read` gives them, and the text that becomes
`buf->received`. -/
namespace Jericho.Server
open StdText

/-- `RESPONSE_SIZE` -/
def responseSize : Nat := 32768

inductive Encoding where
  | length
  | chunked
  | connection
  deriving DecidableEq, Repr

/-- The variables of the loop. `memory` is what stands between `response` and `p`; a NUL follows it. -/
structure ReadLoop where
  memory : Bytes := []
  body : Option Int := none
  encoding : Encoding := .length
  remaining : Int := 0
  result : Bytes := []
  deriving DecidableEq

/-- What the loop does after some code: it goes on, it waits for more bytes, it is left with the result, or
it is left because the buffer is full. -/
inductive Progress where
  | running (s : ReadLoop)
  | waiting (s : ReadLoop)
  | ended (result : Bytes)
  | full (result : Bytes)
  deriving DecidableEq

/-- The C string at a position. What is behind the NUL at `p` was never written. -/
def ReadLoop.textAt (s : ReadLoop) (pos : Int) : Exec Bytes :=
  if 0 ≤ pos ∧ pos ≤ s.memory.length then .ok (cstr (s.memory.drop pos.toNat)) else .error .undefined

/-- `p - body` -/
def ReadLoop.room (s : ReadLoop) (body : Int) : Int := s.memory.length - body

/-- What the headers say about the length of the body. -/
def ReadLoop.announce (s : ReadLoop) (head : Bytes) : ReadLoop :=
  match Occurrence.find (lit "\nContent-Length: ") head with
  | some q =>
    let value := ((head.drop q).dropWhile (· ≠ 32)).tail
    { s with encoding := .length, remaining := asInt (strtol 10 value) }
  | none =>
    if (Occurrence.find (lit "\nTransfer-Encoding: chunked") head).isSome then
      { s with encoding := .chunked, remaining := 0 }
    else { s with encoding := .connection }

/-- The headers are looked for until the blank line is there, and then never again. -/
def ReadLoop.findBody (s : ReadLoop) : ReadLoop :=
  if s.body.isSome then s
  else match Occurrence.find crlf2 (cstr s.memory) with
    | none => s
    | some n =>
      { s with memory := s.memory.set n 0, body := some (n + 4) }.announce ((cstr s.memory).take n)

/-- The first half of a round over the chunks: without a size, the next one is read. -/
def ReadLoop.chunkSize (s : ReadLoop) (body : Int) : Exec Progress :=
  if s.remaining = 0 then do
    let line ← s.textAt body
    match Occurrence.find crlf line with
    | none => return .waiting s
    | some q =>
      let remaining := asInt (strtol 16 line)
      if remaining = 0 then return .ended s.result
      else return .running { s with remaining := remaining, body := some (body + q + 2) }
  else return .running s

/-- The second half: a chunk that is there is taken, with all that follows it. -/
def ReadLoop.chunkData (s : ReadLoop) (body : Int) : Exec Progress :=
  if s.remaining ≤ s.room body then do
    let text ← s.textAt body
    return .running { s with result := s.result ++ text, body := some (body + s.remaining + 2), remaining := 0 }
  else return .waiting s

def ReadLoop.chunkRound (s : ReadLoop) : Exec Progress := do
  match ← s.chunkSize (s.body.getD 0) with
  | .running s => s.chunkData (s.body.getD 0)
  | other => return other

/-- `do { … } while (!remaining)`, for as many rounds as there is fuel. -/
def ReadLoop.readChunks : Nat → ReadLoop → Exec Progress
  | 0, s => .ok (.running s)
  | fuel + 1, s => do
    match ← s.chunkRound with
    | .running s => s.readChunks fuel
    | other => return other

/-- What is done with the body that is there. -/
def ReadLoop.takeBody (s : ReadLoop) : Exec Progress :=
  match s.body with
  | none => .ok (.waiting s)
  | some body =>
    match s.encoding with
    | .length =>
      if s.remaining ≤ s.room body then do
        let text ← s.textAt body
        return .ended (s.result ++ text)
      else .ok (.waiting s)
    | .chunked => s.readChunks (s.memory.length + 1)
    | .connection => .ok (.waiting s)

/-- What the loop does with the bytes of one `SSL_read`. -/
def ReadLoop.receive (s : ReadLoop) (bytes : Bytes) : Exec Progress :=
  { s with memory := s.memory ++ bytes }.findBody.takeBody

/-- The loop over the results of `SSL_read`. -/
def ReadLoop.run (s : ReadLoop) : List Bytes → Exec Progress
  | [] => .ok (.waiting s)
  | bytes :: rest =>
    if s.memory.length = responseSize then .ok (.full s.result)
    else do
      match ← s.receive bytes with
      | .waiting s => s.run rest
      | other => return other

end Jericho.Server
