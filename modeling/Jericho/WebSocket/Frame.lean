import Jericho.Library.StdText
import Jericho.Library.WebFrame

/-! Web socket frames: how the server writes one, and how it reads messages out of the receive
buffer of a client. -/
namespace Jericho.WebSocket
open StdText

def maxRequestSize : Nat := 490000
def wsPacket : Nat := 4096
def maxFrameLength : Nat := 16 * 1024 * 1024

/-- The states of a socket the frames have to do with. -/
inductive SocketState where
  | openWs
  | closing
  | other
  deriving DecidableEq

/-- A client: its receive buffer, the bytes behind it being zero, and the frames sent to it.
`online` says whether what is written to the connection goes through. -/
structure Client where
  request : Bytes
  received : Nat := 0
  state : SocketState := .openWs
  lastPongId : Int := 0
  currentPingId : Int := 0
  online : Bool := true
  sent : List Bytes := []

def frameCont : Nat := 0
def frameTxt : Nat := 1
def frameBin : Nat := 2
def frameClose : Nat := 8
def framePing : Nat := 9
def framePong : Nat := 10

/-- `ws_sendframe`: the bytes it builds. -/
def wsFrame (message : Bytes) (type : Nat) : Bytes :=
  let length := message.length
  let first := UInt8.ofNat (128 ||| type)
  if length ≤ 125 then first :: UInt8.ofNat (length &&& 0x7F) :: message
  else if length ≤ 65535 then
    first :: 126 :: UInt8.ofNat (length >>> 8 &&& 255) :: UInt8.ofNat (length &&& 255) :: message
  else
    first :: 127 :: ([56, 48, 40, 32, 24, 16, 8, 0].map fun shift => UInt8.ofNat (length >>> shift &&& 255)) ++ message

theorem wsFrame_eq (message : Bytes) (type : Nat) :
    wsFrame message type = WebFrame.plain true (UInt8.ofNat type) message := by
  have hfirst : UInt8.ofNat (128 ||| type) = WebFrame.firstByte true (UInt8.ofNat type) := UInt8.ofNat_or 128 type
  have hsmall : message.length ≤ 125 → UInt8.ofNat (message.length &&& 0x7F) = 0 ||| UInt8.ofNat message.length := by
    intro hle
    have hand := Nat.and_two_pow_sub_one_of_lt_two_pow (n := 7) (x := message.length) (by omega)
    rw [UInt8.zero_or]
    exact congrArg UInt8.ofNat hand
  unfold wsFrame WebFrame.plain WebFrame.lengthField WebFrame.lengthCode WebFrame.lengthRest
  dsimp only
  rw [hfirst]
  split_ifs with hshort hmiddle
  · rw [hsmall hshort]
    rfl
  · rw [WebFrame.bigEndian_eq_map]
    rfl
  · rw [WebFrame.bigEndian_eq_map]
    rfl

/-- `ws_sendframe`, with what `broadcast` returns. -/
def wsSendframe (client : Client) (message : Bytes) (type : Nat) : Int × Client :=
  if client.online then (0, { client with sent := client.sent ++ [wsFrame message type] }) else (-1, client)

/-- A reader of the bytes of a client. `message` is the last message as far as it was read. -/
structure Frame where
  request : Bytes
  message : Bytes := []
  curPos : Nat := 0
  received : Nat
  type : Int := -1
  size : Nat := 0
  error : Bool := false
  client : Client

def isControlFrame (opcode : Nat) : Bool := opcode = frameClose ∨ opcode = framePing ∨ opcode = framePong

/-- `next_byte`. It never looks at what it counts in `received`, so it reads on behind the data;
behind the array there is nothing to read. -/
def nextByte (frame : Frame) : Exec (Byte × Frame) :=
  let frame := if frame.curPos = 0 ∨ frame.curPos = frame.received
    then { frame with received := (cstr frame.client.request).length + 1 } else frame
  match frame.request[frame.curPos]? with
  | none => .error .undefined
  | some c => .ok (c, { frame with curPos := frame.curPos + 1 })

/-- The extended lengths, the shifts of their bytes one after the other. -/
def readLength : Nat → Nat → Frame → Exec (Nat × Frame)
  | 0, length, frame => .ok (length, frame)
  | k + 1, length, frame => do
    let (c, frame) ← nextByte frame
    readLength k (length <<< 8 ||| c.toNat) frame

/-- The loop that copies a payload behind a message. -/
def copyPayload (masks : Fin 4 → Byte) : Nat → Nat → Bytes → Frame → Exec (Bytes × Frame)
  | 0, _, message, frame => .ok (message, frame)
  | n + 1, i, message, frame => do
    let (c, frame) ← nextByte frame
    copyPayload masks n (i + 1) (message ++ [c ^^^ masks (WebFrame.maskIndex i)]) frame

/-- `read_frame`: the message with the payload and its size, or nothing if the size is too large.
The terminator that it stores behind a final payload is left out. -/
def readFrame (frame : Frame) (message : Bytes) (frameLength frameSize : Nat) :
    Exec (Option (Bytes × Nat) × Frame) := do
  let (frameLength, frame) ← (if frameLength = 126 then readLength 2 0 frame
    else if frameLength = 127 then readLength 8 0 frame
    else .ok (frameLength, frame))
  let frameSize := (frameSize + frameLength) % 2 ^ 64
  if frameSize > maxFrameLength then return (none, { frame with error := true })
  else
    let (m₀, frame) ← nextByte frame
    let (m₁, frame) ← nextByte frame
    let (m₂, frame) ← nextByte frame
    let (m₃, frame) ← nextByte frame
    let (message, frame) ← copyPayload ![m₀, m₁, m₂, m₃] frameLength 0 message frame
    return (some (message, frameSize), frame)

/-- `pong_message_to_int32` -/
def pongMessageToInt32 (message : Bytes) : Int := Int.bmod (WebFrame.ofBigEndian (message.take 4)) (2 ^ 32)

/-- The client after a PONG. -/
def pong (client : Client) (payload : Bytes) (frameSize : Nat) : Client :=
  if frameSize ≠ 4 then client
  else if pongMessageToInt32 payload < 0 ∨ client.currentPingId < pongMessageToInt32 payload then client
  else { client with lastPongId := pongMessageToInt32 payload }

def Frame.fail (frame : Frame) : Int × Frame := (-1, { frame with error := true, message := [] })

/-- The loop of `next_frame`, with the data read so far. It never makes more rounds than there are
bytes. -/
def nextFrameLoop : Nat → Bytes → Frame → Exec (Int × Frame)
  | 0, _, _ => .error .undefined
  | rounds + 1, data, frame => do
    let (c, frame) ← nextByte frame
    let isFin := c.toNat >>> 7 ≠ 0
    let opcode := c.toNat &&& 0xF
    if c.toNat &&& 0x70 ≠ 0 then return frame.fail
    else if frame.type = -1 ∧ opcode = frameCont ∨
        frame.type ≠ -1 ∧ isControlFrame opcode = false ∧ opcode ≠ frameCont then return frame.fail
    else if opcode = frameTxt ∨ opcode = frameBin ∨ opcode = frameCont ∨ isControlFrame opcode then
      if frame.client.state = .closing ∧ opcode ≠ frameClose then return frame.fail
      else
        let frame := if opcode ≠ frameCont ∧ isControlFrame opcode = false then { frame with type := opcode } else frame
        let (mask, frame) ← nextByte frame
        let frameLength := mask.toNat &&& 0x7F
        if isControlFrame opcode ∧ (¬ isFin ∨ frameLength > 125) then return frame.fail
        else if isControlFrame opcode = false then
          match ← readFrame frame data frameLength frame.size with
          | (none, frame) => return frame.fail
          | (some (data, size), frame) =>
            let frame := { frame with size := size }
            if isFin then return (0, { frame with message := data }) else nextFrameLoop rounds data frame
        else
          match ← readFrame frame [] frameLength 0 with
          | (none, frame) => return frame.fail
          | (some (payload, frameSize), frame) =>
            if opcode = framePong then
              nextFrameLoop rounds data { frame with client := pong frame.client payload frameSize }
            else if opcode = framePing then
              let (ret, client) := wsSendframe frame.client payload framePong
              if ret < 0 then return { frame with client := client }.fail
              else nextFrameLoop rounds data { frame with client := client }
            else return (0, { frame with size := frameSize, type := frameClose })
    else return { frame with type := opcode }.fail

def Frame.start (frame : Frame) : Frame := { frame with size := 0, type := -1, message := [] }

/-- `next_frame` -/
def nextFrame (frame : Frame) : Exec (Int × Frame) := nextFrameLoop (frame.request.length + 1) [] frame.start

/-- A call of `event_manager.message`. -/
structure Delivery where
  message : Bytes
  size : Nat
  type : Int
  deriving DecidableEq

/-- The reader keeps its copy when the buffer of the client is cleared. -/
def Frame.clear (frame : Frame) : Frame := { frame with client := { frame.client with request := [], received := 0 } }

/-- The loop of `recv_websocket`: the messages it hands on, and the client. It never makes more
rounds than there are bytes. -/
def recvLoop : Nat → Frame → Exec (List Delivery × Client)
  | 0, _ => .error .undefined
  | rounds + 1, frame => do
    let (ret, frame) ← nextFrame frame
    if ret < 0 ∨ frame.client.state ≠ .openWs then return ([], frame.client)
    else if (frame.type = frameTxt ∨ frame.type = frameBin) ∧ frame.error = false then
      let (deliveries, client) ← recvLoop rounds frame.clear
      return (⟨frame.message, frame.size, frame.type⟩ :: deliveries, client)
    else if frame.type = frameClose ∧ frame.error = false then return ([], { frame.client with state := .closing })
    else recvLoop rounds frame.clear

/-- The copy of the receive buffer, with a terminator at a fixed place. -/
def copyRequest (client : Client) : Bytes :=
  (client.request ++ List.replicate (maxRequestSize + 1 - client.request.length) 0).set wsPacket 0

/-- `recv_websocket` -/
def recvWebsocket (client : Client) : Exec (List Delivery × Client) :=
  let frame : Frame := { request := copyRequest client, received := client.received, client := client }
  recvLoop (frame.request.length + 1) frame

end Jericho.WebSocket
