import Jericho.Library.Logged
import Jericho.Library.Runs
import Jericho.WebSocket.Frame

/-! `next_frame` once more, one frame of the peer at a time, with the places of memory it uses. -/
namespace Jericho.WebSocket
open StdText Logging Runs

/-- What has a bound: the last place that `strlen` looks at in the request of the client, the places
of the arrays, the place in a message with the size that was asked of `realloc` for it, and the length
of a message that is accepted. -/
inductive Access where
  | client (last : Nat)
  | request (i : Nat)
  | payload (i : Nat)
  | message (i size : Nat)
  | accepted (total : Nat)
  deriving DecidableEq

/-- The size of `payload`. -/
def payloadSize : Nat := 125

/-- The bounds. What is asked of `realloc` is a number of 64 bits. -/
def Access.Within : Access → Prop
  | client last => last < maxRequestSize + 1
  | request i => i < maxRequestSize + 1
  | payload i => i < payloadSize
  | message i size => i < size ∧ size < 2 ^ 64
  | accepted total => total ≤ maxFrameLength

instance : DecidablePred Access.Within := fun
  | .client last => inferInstanceAs (Decidable (last < maxRequestSize + 1))
  | .request i => inferInstanceAs (Decidable (i < maxRequestSize + 1))
  | .payload i => inferInstanceAs (Decidable (i < payloadSize))
  | .message i size => inferInstanceAs (Decidable (i < size ∧ size < 2 ^ 64))
  | .accepted total => inferInstanceAs (Decidable (total ≤ maxFrameLength))

abbrev Traced := Logged Access Fault

/-- `next_byte`. With the request of the client it prints its own, up to the terminator. -/
def nextByteTraced (frame : Frame) : Traced (Byte × Frame) := do
  record ((if frame.curPos = 0 ∨ frame.curPos = frame.received
    then [.client (cstr frame.client.request).length, .request (cstr frame.request).length] else []) ++
      [.request frame.curPos])
  lift (nextByte frame)

def readLengthTraced : Nat → Nat → Frame → Traced (Nat × Frame)
  | 0, length, frame => pure (length, frame)
  | k + 1, length, frame => do
    let (c, frame) ← nextByteTraced frame
    readLengthTraced k (length <<< 8 ||| c.toNat) frame

/-- The length behind a length byte. -/
def frameLengthTraced (frameLength : Nat) (frame : Frame) : Traced (Nat × Frame) :=
  if frameLength = 126 then readLengthTraced 2 0 frame
  else if frameLength = 127 then readLengthTraced 8 0 frame
  else pure (frameLength, frame)

/-- The loop that copies a payload, with the place that each byte goes to. -/
def copyPayloadTraced (place : Nat → Access) (masks : Fin 4 → Byte) :
    Nat → Nat → Bytes → Frame → Traced (Bytes × Frame)
  | 0, _, message, frame => pure (message, frame)
  | n + 1, i, message, frame => do
    let (c, frame) ← nextByteTraced frame
    record [place message.length]
    copyPayloadTraced place masks n (i + 1) (message ++ [c ^^^ masks (WebFrame.maskIndex i)]) frame

/-- Where `read_frame` writes a byte: a control frame goes to `payload`, a data frame to memory of the
size that was asked for, taken as a number without a bound. -/
def placeOf (control isFin : Bool) (messageIdx frameLength i : Nat) : Access :=
  if control then .payload i else .message i (messageIdx + frameLength + isFin.toNat)

/-- `read_frame`, with the terminator behind a final payload. -/
def readFrameTraced (control isFin : Bool) (frame : Frame) (message : Bytes) (frameLength frameSize : Nat) :
    Traced (Option (Bytes × Nat) × Frame) := do
  let (frameLength, frame) ← frameLengthTraced frameLength frame
  let frameSize := (frameSize + frameLength) % 2 ^ 64
  if frameSize > maxFrameLength then return (none, { frame with error := true })
  else
    let (m₀, frame) ← nextByteTraced frame
    let (m₁, frame) ← nextByteTraced frame
    let (m₂, frame) ← nextByteTraced frame
    let (m₃, frame) ← nextByteTraced frame
    let place := placeOf control isFin message.length frameLength
    let (message, frame) ← copyPayloadTraced place ![m₀, m₁, m₂, m₃] frameLength 0 message frame
    record (if isFin ∧ frameSize > 0 then [place message.length] else [])
    return (some (message, frameSize), frame)

/-- How a round of the loop of `next_frame` ends: the call returns, or the loop goes on with more data. -/
inductive FrameRound where
  | done (ret : Int) (frame : Frame)
  | again (data : Bytes) (frame : Frame)

def Frame.failed (frame : Frame) : FrameRound := .done frame.fail.1 frame.fail.2

/-- The part of a data frame behind its length byte. -/
def dataRound (isFin : Bool) (data : Bytes) (frame : Frame) (frameLength : Nat) : Traced FrameRound := do
  match ← readFrameTraced false isFin frame data frameLength frame.size with
  | (none, frame) => return frame.failed
  | (some (data, size), frame) =>
    if isFin then
      record [.accepted data.length]
      return .done 0 { frame with size := size, message := data }
    else return .again data { frame with size := size }

/-- The part of a control frame behind its length byte. -/
def controlRound (opcode : Nat) (isFin : Bool) (data : Bytes) (frame : Frame) (frameLength : Nat) :
    Traced FrameRound := do
  match ← readFrameTraced true isFin frame [] frameLength 0 with
  | (none, frame) => return frame.failed
  | (some (payload, frameSize), frame) =>
    if opcode = framePong then return .again data { frame with client := pong frame.client payload frameSize }
    else if opcode = framePing then
      let (ret, client) := wsSendframe frame.client payload framePong
      if ret < 0 then return Frame.failed { frame with client := client }
      else return .again data { frame with client := client }
    else return .done 0 { frame with size := frameSize, type := frameClose }

/-- The part of a frame behind its length byte. -/
def maskedRound (data : Bytes) (c mask : Byte) (frame : Frame) : Traced FrameRound :=
  let isFin := c.toNat >>> 7 ≠ 0
  let opcode := c.toNat &&& 0xF
  let frameLength := mask.toNat &&& 0x7F
  if isControlFrame opcode ∧ (¬ isFin ∨ frameLength > 125) then pure frame.failed
  else if isControlFrame opcode = false then dataRound isFin data frame frameLength
  else controlRound opcode isFin data frame frameLength

/-- The part of a frame behind a first byte that it goes on after. -/
def openedRound (data : Bytes) (c : Byte) (frame : Frame) : Traced FrameRound := do
  let opcode := c.toNat &&& 0xF
  let frame := if opcode ≠ frameCont ∧ isControlFrame opcode = false then { frame with type := opcode } else frame
  let (mask, frame) ← nextByteTraced frame
  maskedRound data c mask frame

/-- The part of a frame behind its first byte. -/
def checkedRound (data : Bytes) (c : Byte) (frame : Frame) : Traced FrameRound :=
  let opcode := c.toNat &&& 0xF
  if c.toNat &&& 0x70 ≠ 0 then pure frame.failed
  else if frame.type = -1 ∧ opcode = frameCont ∨
      frame.type ≠ -1 ∧ isControlFrame opcode = false ∧ opcode ≠ frameCont then pure frame.failed
  else if opcode = frameTxt ∨ opcode = frameBin ∨ opcode = frameCont ∨ isControlFrame opcode then
    if frame.client.state = .closing ∧ opcode ≠ frameClose then pure frame.failed else openedRound data c frame
  else pure (Frame.failed { frame with type := opcode })

/-- A round of the loop of `next_frame`. -/
def nextFrameRound (data : Bytes) (frame : Frame) : Traced FrameRound := do
  let (c, frame) ← nextByteTraced frame
  checkedRound data c frame

theorem result_nextByteTraced (frame : Frame) : (nextByteTraced frame).result = nextByte frame := rfl

theorem result_readLengthTraced (k length : Nat) (frame : Frame) :
    (readLengthTraced k length frame).result = readLength k length frame := by
  induction k generalizing length frame with
  | zero => rfl
  | succ k ih =>
    rw [readLengthTraced, readLength, result_bind, result_nextByteTraced]
    apply bind_congr
    intro p
    exact ih _ _

theorem result_copyPayloadTraced (place : Nat → Access) (masks : Fin 4 → Byte) (n i : Nat) (message : Bytes)
    (frame : Frame) :
    (copyPayloadTraced place masks n i message frame).result = copyPayload masks n i message frame := by
  induction n generalizing i message frame with
  | zero => rfl
  | succ n ih =>
    rw [copyPayloadTraced, copyPayload, result_bind, result_nextByteTraced]
    apply bind_congr
    intro p
    rw [result_bind]
    exact ih _ _ _

theorem result_readFrameTraced (control isFin : Bool) (frame : Frame) (message : Bytes) (frameLength frameSize : Nat) :
    (readFrameTraced control isFin frame message frameLength frameSize).result =
      readFrame frame message frameLength frameSize := by
  have hlength : (frameLengthTraced frameLength frame).result =
      if frameLength = 126 then readLength 2 0 frame else if frameLength = 127 then readLength 8 0 frame
      else .ok (frameLength, frame) := by
    unfold frameLengthTraced
    split_ifs
    · exact result_readLengthTraced 2 0 frame
    · exact result_readLengthTraced 8 0 frame
    · rfl
  unfold readFrameTraced readFrame
  rw [result_bind, hlength]
  apply bind_congr
  intro p
  dsimp only
  by_cases hlarge : (frameSize + p.1) % 2 ^ 64 > maxFrameLength
  · rw [if_pos hlarge, if_pos hlarge]
    rfl
  · rw [if_neg hlarge, if_neg hlarge]
    simp only [result_bind, result_nextByteTraced, result_copyPayloadTraced, result_record, result_pure]
    rfl

/-- A call that goes on after a round. -/
def FrameRound.resume (rounds : Nat) : FrameRound → Exec (Int × Frame)
  | done ret frame => .ok (ret, frame)
  | again data frame => nextFrameLoop rounds data frame

/-- The loop of `next_frame` makes the rounds one after the other. -/
theorem nextFrameLoop_succ (rounds : Nat) (data : Bytes) (frame : Frame) :
    nextFrameLoop (rounds + 1) data frame = (nextFrameRound data frame).result >>= FrameRound.resume rounds := by
  unfold nextFrameRound
  rw [nextFrameLoop, result_bind, result_nextByteTraced, bind_assoc]
  refine bind_congr fun p => ?_
  obtain ⟨c, f⟩ := p
  dsimp only
  unfold checkedRound openedRound maskedRound
  by_cases hrsv : c.toNat &&& 0x70 ≠ 0
  · rw [if_pos hrsv, if_pos hrsv]
    rfl
  rw [if_neg hrsv, if_neg hrsv]
  generalize c.toNat &&& 0xF = opcode
  by_cases hplace : f.type = -1 ∧ opcode = frameCont ∨
      f.type ≠ -1 ∧ isControlFrame opcode = false ∧ opcode ≠ frameCont
  · rw [if_pos hplace, if_pos hplace]
    rfl
  rw [if_neg hplace, if_neg hplace]
  by_cases hvalid : opcode = frameTxt ∨ opcode = frameBin ∨ opcode = frameCont ∨ isControlFrame opcode = true
  swap
  · rw [if_neg hvalid, if_neg hvalid]
    rfl
  rw [if_pos hvalid, if_pos hvalid]
  by_cases hclosing : f.client.state = .closing ∧ opcode ≠ frameClose
  · rw [if_pos hclosing, if_pos hclosing]
    rfl
  rw [if_neg hclosing, if_neg hclosing, result_bind, result_nextByteTraced, bind_assoc]
  refine bind_congr fun p => ?_
  obtain ⟨mask, g⟩ := p
  dsimp only
  by_cases hrefused : isControlFrame opcode = true ∧ (¬ c.toNat >>> 7 ≠ 0 ∨ mask.toNat &&& 0x7F > 125)
  · rw [if_pos hrefused, if_pos hrefused]
    rfl
  rw [if_neg hrefused, if_neg hrefused]
  by_cases hdata : isControlFrame opcode = false
  · rw [if_pos hdata, if_pos hdata, dataRound, result_bind, result_readFrameTraced, bind_assoc]
    refine bind_congr fun p => ?_
    obtain ⟨_ | ⟨data', size⟩, h⟩ := p
    · rfl
    dsimp only
    by_cases hfin : c.toNat >>> 7 ≠ 0
    · rw [if_pos hfin, if_pos (decide_eq_true hfin)]
      rfl
    · rw [if_neg hfin, if_neg (mt of_decide_eq_true hfin)]
      rfl
  · rw [if_neg hdata, if_neg hdata, controlRound, result_bind, result_readFrameTraced, bind_assoc]
    refine bind_congr fun p => ?_
    obtain ⟨_ | ⟨payload, size⟩, h⟩ := p
    · rfl
    dsimp only
    by_cases hpong : opcode = framePong
    · rw [if_pos hpong, if_pos hpong]
      rfl
    rw [if_neg hpong, if_neg hpong]
    by_cases hping : opcode = framePing
    · rw [if_pos hping, if_pos hping]
      by_cases hret : (wsSendframe h.client payload framePong).1 < 0
      · rw [if_pos hret, if_pos hret]
        rfl
      · rw [if_neg hret, if_neg hret]
        rfl
    · rw [if_neg hping, if_neg hping]
      rfl

/-- The content of the array of a reader. -/
def Buffer := { bytes : Bytes // bytes.length = maxRequestSize + 1 }

/-- A call of `next_frame` in front of a frame of the peer: the data so far, and the reader. -/
structure Decoding where
  data : Bytes
  frame : Frame

def Decoding.round (s : Decoding) : Traced FrameRound := nextFrameRound s.data s.frame

/-- The call goes on, or it has returned and the next one finds the client as it is then. -/
inductive Turn where
  | round
  | call (client : Client)

inductive DecodeStep : Decoding → Turn → Decoding → Prop
  | round {s : Decoding} {data : Bytes} {frame : Frame} (h : s.round.result = .ok (.again data frame)) :
      DecodeStep s .round ⟨data, frame⟩
  | call {s : Decoding} {ret : Int} {frame : Frame} (client : Client) (h : s.round.result = .ok (.done ret frame))
      (hret : 0 ≤ ret) : DecodeStep s (.call client) ⟨[], Frame.start { frame with client := client }⟩

/-- The first call. -/
def opening (request : Buffer) (received : Nat) (client : Client) : Decoding :=
  ⟨[], Frame.start { request := request.val, received := received, client := client }⟩

/-- A call that returns has made rounds up to one that is the last. -/
theorem nextFrameLoop_run {rounds : Nat} {data : Bytes} {frame : Frame} {r : Int × Frame}
    (h : nextFrameLoop rounds data frame = .ok r) :
    ∃ turns s, Run DecodeStep ⟨data, frame⟩ turns s ∧ s.round.result = .ok (.done r.1 r.2) := by
  induction rounds generalizing data frame with
  | zero => cases h
  | succ rounds ih =>
    rw [nextFrameLoop_succ] at h
    obtain ⟨next, hround, hnext⟩ := bind_eq_ok.mp h
    cases next with
    | done ret frame' =>
      obtain rfl := Except.ok.inj hnext
      exact ⟨[], ⟨data, frame⟩, .nil, hround⟩
    | again data' frame' =>
      obtain ⟨turns, s, hrun, hlast⟩ := ih hnext
      exact ⟨_, s, (Run.single (.round hround)).trans hrun, hlast⟩

end Jericho.WebSocket
