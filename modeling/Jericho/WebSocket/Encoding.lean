import Jericho.Library.BaseFraming
import Jericho.WebSocket.Frame

/-! The bytes that `ws_sendframe` builds, as it stores them, and what a reader of the protocol makes
of them. -/
namespace Jericho.WebSocket
open StdText

/-- `frame` up to `idx_first_rData`. -/
def frameHead (length type : Nat) : Bytes :=
  let first := UInt8.ofNat (128 ||| type)
  if length ≤ 125 then [first, UInt8.ofNat (length &&& 0x7F)]
  else if length ≤ 65535 then [first, 126, UInt8.ofNat (length >>> 8 &&& 255), UInt8.ofNat (length &&& 255)]
  else first :: 127 :: [56, 48, 40, 32, 24, 16, 8, 0].map fun shift => UInt8.ofNat (length >>> shift &&& 255)

/-- A loop that stores bytes at `idx_response`, an `int` that must not overflow. -/
def storeLoop : Bytes → Bytes → Nat → Exec (Bytes × Nat)
  | [], response, idx => .ok (response, idx)
  | c :: cs, response, idx =>
    if idx < response.length ∧ idx + 1 < 2 ^ 31 then storeLoop cs (response.set idx c) (idx + 1)
    else .error .undefined

/-- What `ws_sendframe` hands to `broadcast`. The bytes that `malloc` returns are in `memory`. -/
def buildFrame (memory : Nat → Byte) (message : Bytes) (type : Nat) : Exec Bytes := do
  let frame := frameHead message.length type
  let response := (List.range (frame.length + message.length + 1)).map memory
  let (response, idx) ← storeLoop frame response 0
  let (response, idx) ← storeLoop message response idx
  if idx < response.length then return (response.set idx 0).take idx else .error .undefined

theorem length_frameHead (n type : Nat) :
    (frameHead n type).length = if n ≤ 125 then 2 else if n ≤ 65535 then 4 else 10 := by
  unfold frameHead
  dsimp only
  split_ifs <;> rfl

theorem wsFrame_eq_append (message : Bytes) (type : Nat) :
    wsFrame message type = frameHead message.length type ++ message := by
  unfold wsFrame frameHead
  dsimp only
  split_ifs <;> rfl

/-- The bytes from the index on are replaced. -/
theorem storeLoop_spec {cs done old : Bytes} (behind : Bytes) (hlength : old.length = cs.length)
    (hfits : done.length + cs.length < 2 ^ 31) :
    storeLoop cs (done ++ old ++ behind) done.length = .ok (done ++ cs ++ behind, done.length + cs.length) := by
  induction cs generalizing done old with
  | nil =>
    obtain rfl := List.eq_nil_of_length_eq_zero hlength
    rfl
  | cons c cs ih =>
    obtain ⟨c', old, rfl⟩ := List.exists_cons_of_length_eq_add_one hlength
    have hset : (done ++ c' :: old ++ behind).set done.length c = (done ++ [c]) ++ old ++ behind := by
      rw [List.append_assoc, List.set_append_right _ _ (Nat.le_refl _), Nat.sub_self]
      simp only [List.cons_append, List.set_cons_zero, List.append_assoc, List.nil_append]
    rw [List.length_cons] at hfits
    have hstep := @ih (done ++ [c]) old (Nat.succ.inj hlength) (by
      rw [List.length_append, List.length_singleton]
      omega)
    rw [List.length_append, List.length_singleton] at hstep
    rw [storeLoop, if_pos, hset, hstep, List.append_assoc done [c] cs, List.length_cons, Nat.add_assoc,
      Nat.add_comm 1]
    · rfl
    · refine ⟨?_, by omega⟩
      simp only [List.length_append, List.length_cons]
      omega

/-- Bytes that have room are stored from the index on. -/
theorem storeLoop_eq {cs response : Bytes} {idx : Nat} (hroom : idx + cs.length ≤ response.length)
    (hfits : idx + cs.length < 2 ^ 31) :
    storeLoop cs response idx = .ok (response.take idx ++ cs ++ response.drop (idx + cs.length), idx + cs.length) := by
  have hsplit : response =
      response.take idx ++ (response.drop idx).take cs.length ++ response.drop (idx + cs.length) := by
    rw [← List.drop_drop, List.append_assoc, List.take_append_drop, List.take_append_drop]
  have hdone : (response.take idx).length = idx := List.length_take_of_le (by omega)
  have hold : ((response.drop idx).take cs.length).length = cs.length :=
    List.length_take_of_le (by
      rw [List.length_drop]
      omega)
  have hloop := storeLoop_spec (response.drop (idx + cs.length)) hold (hdone.symm ▸ hfits)
  rw [hdone] at hloop
  rwa [← hsplit] at hloop

/-- The two loops leave the frame of the model, whatever was in the memory. -/
theorem buildFrame_eq (memory : Nat → Byte) {message : Bytes} (hmessage : message.length + 11 < 2 ^ 31) (type : Nat) :
    buildFrame memory message type = .ok (wsFrame message type) := by
  have hhead : (frameHead message.length type).length ≤ 10 := by
    rw [length_frameHead]
    split_ifs <;> omega
  rw [wsFrame_eq_append]
  unfold buildFrame
  dsimp only
  generalize frameHead message.length type = head at hhead
  generalize hresponse : (List.range (head.length + message.length + 1)).map memory = response
  have hlength : response.length = head.length + message.length + 1 := by
    rw [← hresponse, List.length_map, List.length_range]
  have hfirst : storeLoop head response 0 = .ok (head ++ response.drop head.length, head.length) := by
    have hloop := @storeLoop_eq head response 0 (by omega) (by omega)
    rwa [List.take_zero, List.nil_append, Nat.zero_add] at hloop
  have hroom : head.length + message.length ≤ (head ++ response.drop head.length).length := by
    rw [List.length_append, List.length_drop]
    omega
  have hsecond := storeLoop_eq hroom (by omega)
  rw [List.take_left] at hsecond
  rw [hfirst]
  dsimp only [bind, Except.bind]
  rw [hsecond]
  dsimp only
  rw [if_pos]
  · have htake : ∀ behind : Bytes, ((head ++ message ++ behind).set (head.length + message.length) 0).take
        (head.length + message.length) = head ++ message := by
      intro behind
      have hplace : (head ++ message).length = head.length + message.length := List.length_append
      rw [← hplace, List.set_append_right _ _ (Nat.le_refl _), List.take_left]
    rw [htake]
    rfl
  · rw [List.length_append, List.length_append, List.length_drop, List.length_append, List.length_drop]
    omega

/-- The opcodes that the server sends. -/
def sentOpcodes : List Nat := [frameTxt, frameBin, frameClose, framePing, framePong]

/-- What is sent is one frame, with its length as short as it can be, and a reader takes out of it what
went in. -/
theorem buildFrame_read {type : Nat} (htype : type ∈ sentOpcodes) {message : Bytes}
    (hmessage : message.length + 11 < 2 ^ 31) (memory : Nat → Byte) :
    ∃ bytes, buildFrame memory message type = .ok bytes ∧
      WebFrame.read bytes = some ⟨true, type, WebFrame.shortest message.length, none, message, []⟩ ∧
      (∀ w : WebFrame.Width, w.Fits message.length → (WebFrame.shortest message.length).extra ≤ w.extra) ∧
      bytes.length = message.length + if message.length ≤ 125 then 2 else if message.length ≤ 65535 then 4 else 10 := by
  have hopcode : UInt8.ofNat type < 16 ∧ (UInt8.ofNat type).toNat = type := by
    revert type
    decide
  refine ⟨wsFrame message type, buildFrame_eq memory hmessage type, ?_, fun w => WebFrame.extra_shortest_le, ?_⟩
  · have hread := @WebFrame.read_plain _ hopcode.1 true message (by omega) []
    rwa [List.append_nil, hopcode.2, ← wsFrame_eq] at hread
  · rw [wsFrame_eq_append, List.length_append, length_frameHead, Nat.add_comm]

theorem buildFrame_read_pong : ∃ bytes, buildFrame (fun _ => 7) [1, 2] framePong = .ok bytes ∧
    WebFrame.read bytes = some ⟨true, framePong, .short, none, [1, 2], []⟩ ∧ bytes.length = 4 := by
  obtain ⟨bytes, hbytes, hread, -, hlength⟩ :=
    @buildFrame_read framePong (by decide) [1, 2] (by decide) fun _ => 7
  exact ⟨bytes, hbytes, hread, hlength⟩

end Jericho.WebSocket
