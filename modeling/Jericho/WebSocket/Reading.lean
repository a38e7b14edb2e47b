import Jericho.Library.BaseFraming
import Jericho.WebSocket.Frame

/-! What a reader makes of the bytes of a frame that are there. -/
namespace Jericho.WebSocket
open StdText WebFrame

/-- The bytes a reader has in front of it. -/
def Frame.rest (frame : Frame) : Bytes := frame.request.drop frame.curPos

/-- A reader after one byte. -/
def Frame.next (frame : Frame) : Frame :=
  { frame with
    received := if frame.curPos = 0 ∨ frame.curPos = frame.received
      then (cstr frame.client.request).length + 1 else frame.received
    curPos := frame.curPos + 1 }

variable {frame : Frame} {c : Byte} {bs cs : Bytes}

theorem nextByte_eq (h : frame.rest = c :: bs) : nextByte frame = .ok (c, frame.next) := by
  have hget : frame.request[frame.curPos]? = some c := by
    have hhead := congrArg List.head? h
    rwa [Frame.rest, List.head?_drop] at hhead
  unfold nextByte Frame.next
  split_ifs <;> dsimp only <;> rw [hget]

theorem rest_next (h : frame.rest = c :: bs) : frame.next.rest = bs := by
  have htail := congrArg List.tail h
  rwa [Frame.rest, List.tail_drop] at htail

/-- What a reader knows besides its place, which goes on as the bytes in front of it get fewer. -/
structure Frame.Same (f g : Frame) : Prop where
  place : g.curPos + g.rest.length = f.curPos + f.rest.length
  message : g.message = f.message
  type : g.type = f.type
  size : g.size = f.size
  error : g.error = f.error
  client : g.client = f.client

theorem Frame.Same.refl (f : Frame) : f.Same f := ⟨rfl, rfl, rfl, rfl, rfl, rfl⟩

theorem Frame.Same.trans {f g h : Frame} (hf : f.Same g) (hg : g.Same h) : f.Same h where
  place := hg.place.trans hf.place
  message := hg.message.trans hf.message
  type := hg.type.trans hf.type
  size := hg.size.trans hf.size
  error := hg.error.trans hf.error
  client := hg.client.trans hf.client

theorem same_next (h : frame.rest = c :: bs) : frame.Same frame.next where
  place := by
    rw [rest_next h, h, List.length_cons, Nat.add_comm bs.length, ← Nat.add_assoc]
    rfl
  message := rfl
  type := rfl
  size := rfl
  error := rfl
  client := rfl

/-- A byte that is there is read. -/
theorem nextByte_spec (h : frame.rest = c :: bs) :
    ∃ g, nextByte frame = .ok (c, g) ∧ g.rest = bs ∧ frame.Same g :=
  ⟨frame.next, nextByte_eq h, rest_next h, same_next h⟩

theorem shift_or (n : Nat) (c : Byte) : n <<< 8 ||| c.toNat = n * 256 + c.toNat := by
  have hc : c.toNat < 2 ^ 8 := c.toNat_lt
  rw [Nat.shiftLeft_eq, Nat.mul_comm, ← Nat.two_pow_add_eq_or_of_lt hc, Nat.mul_comm]

theorem readLength_spec (n : Nat) (h : frame.rest = bs ++ cs) :
    ∃ g, readLength bs.length n frame = .ok (bs.foldl (fun n c => n * 256 + c.toNat) n, g) ∧ g.rest = cs ∧
      frame.Same g := by
  induction bs generalizing n frame with
  | nil => exact ⟨frame, rfl, h, .refl frame⟩
  | cons c bs ih =>
    obtain ⟨g, hbyte, hrest, hsame⟩ := nextByte_spec h
    obtain ⟨g', hread, hrest', hsame'⟩ := ih (n <<< 8 ||| c.toNat) hrest
    refine ⟨g', ?_, hrest', hsame.trans hsame'⟩
    rw [List.length_cons, readLength, hbyte]
    refine hread.trans ?_
    rw [shift_or]
    rfl

theorem copyPayload_spec (key : Fin 4 → Byte) (i : Nat) (message : Bytes) (h : frame.rest = bs ++ cs) :
    ∃ g, copyPayload key bs.length i message frame = .ok (message ++ mask key i bs, g) ∧ g.rest = cs ∧
      frame.Same g := by
  induction bs generalizing i message frame with
  | nil => exact ⟨frame, by rw [mask, List.append_nil]; rfl, h, .refl frame⟩
  | cons c bs ih =>
    obtain ⟨g, hbyte, hrest, hsame⟩ := nextByte_spec h
    obtain ⟨g', hcopy, hrest', hsame'⟩ := ih (i + 1) (message ++ [c ^^^ key (maskIndex i)]) hrest
    refine ⟨g', ?_, hrest', hsame.trans hsame'⟩
    rw [List.length_cons, copyPayload, hbyte]
    refine hcopy.trans ?_
    rw [mask_cons, List.append_assoc]
    rfl

/-- The bytes of a length, as they are read: the mask bit is not looked at, and no form is too long. -/
inductive Announces : Byte → Bytes → Nat → Prop
  | short {second : Byte} {n : Nat} (hsecond : second.toNat &&& 0x7F = n) (hn : n ≤ 125) : Announces second [] n
  | middle {second : Byte} {extended : Bytes} (hsecond : second.toNat &&& 0x7F = 126) (hlength : extended.length = 2) :
      Announces second extended (ofBigEndian extended)
  | long {second : Byte} {extended : Bytes} (hsecond : second.toNat &&& 0x7F = 127) (hlength : extended.length = 8) :
      Announces second extended (ofBigEndian extended)

theorem codeByte_spec {k : Nat} (hk : k ≤ 127) : (128 ||| UInt8.ofNat k).toNat &&& 0x7F = k := by
  have hall : ∀ k : Fin 128, ((128 : UInt8) ||| UInt8.ofNat k).toNat &&& 0x7F = k := by decide
  exact hall ⟨k, Nat.lt_succ_of_le hk⟩

/-- A length that was written is announced, in each width. -/
theorem announces_width {w : Width} {n : Nat} (hw : w.Fits n) :
    Announces (128 ||| UInt8.ofNat (w.code n)) (bigEndian w.extra n) n := by
  have hsecond := codeByte_spec (code_le hw)
  cases w with
  | short => exact .short hsecond (Nat.le_of_lt_succ hw)
  | middle =>
    have hvalue : ofBigEndian (bigEndian 2 n) = n := ofBigEndian_bigEndian hw
    have hannounces := Announces.middle hsecond (length_bigEndian 2 n)
    rwa [hvalue] at hannounces
  | long =>
    have hvalue : ofBigEndian (bigEndian 8 n) = n := ofBigEndian_bigEndian (Nat.lt_trans hw (by decide))
    have hannounces := Announces.long hsecond (length_bigEndian 8 n)
    rwa [hvalue] at hannounces

/-- A length that was written as `ws_sendframe` writes it is announced, also where its first bit is set. -/
theorem announces_length {n : Nat} (hn : n < 2 ^ 64) :
    Announces (128 ||| UInt8.ofNat (lengthCode n)) (lengthRest n) n := by
  by_cases hlow : n < 2 ^ 63
  · rw [lengthCode_eq, lengthRest_eq]
    exact announces_width (fits_shortest hlow)
  · have hvalue : ofBigEndian (bigEndian 8 n) = n := ofBigEndian_bigEndian hn
    have hannounces := Announces.long (codeByte_spec (Nat.le_refl 127)) (length_bigEndian 8 n)
    unfold lengthCode lengthRest
    rw [if_neg (by omega), if_neg (by omega), if_neg (by omega), if_neg (by omega)]
    rwa [hvalue] at hannounces

variable {second : Byte} {extended : Bytes}

theorem readCode_spec {n : Nat} (hn : Announces second extended n) (h : frame.rest = extended ++ cs) :
    ∃ g, (if second.toNat &&& 0x7F = 126 then readLength 2 0 frame
        else if second.toNat &&& 0x7F = 127 then readLength 8 0 frame
        else (.ok (second.toNat &&& 0x7F, frame) : Exec (Nat × Frame))) = .ok (n, g) ∧ g.rest = cs ∧ frame.Same g := by
  cases hn with
  | short hsecond hsmall =>
    refine ⟨frame, ?_, h, .refl frame⟩
    rw [hsecond, if_neg (by omega), if_neg (by omega)]
  | middle hsecond hlength =>
    obtain ⟨g, hread, hrest, hsame⟩ := readLength_spec 0 h
    refine ⟨g, ?_, hrest, hsame⟩
    rw [hlength] at hread
    rw [hsecond, if_pos rfl]
    exact hread
  | long hsecond hlength =>
    obtain ⟨g, hread, hrest, hsame⟩ := readLength_spec 0 h
    refine ⟨g, ?_, hrest, hsame⟩
    rw [hlength] at hread
    rw [hsecond, if_neg (by decide), if_pos rfl]
    exact hread

/-- A payload is taken out of its frame, behind the message so far. -/
theorem readFrame_spec {key : Fin 4 → Byte} {payload : Bytes} (message : Bytes) {size : Nat}
    (hsize : size + payload.length ≤ maxFrameLength) (hn : Announces second extended payload.length)
    (h : frame.rest = extended ++ List.ofFn key ++ mask key 0 payload ++ cs) :
    ∃ g, readFrame frame message (second.toNat &&& 0x7F) size =
        .ok (some (message ++ payload, size + payload.length), g) ∧ g.rest = cs ∧ frame.Same g := by
  have hmax : maxFrameLength < 2 ^ 64 := by decide
  rw [List.append_assoc, List.append_assoc] at h
  obtain ⟨g, hcode, hrest, hsame⟩ := readCode_spec hn h
  have hkey : List.ofFn key ++ (mask key 0 payload ++ cs) =
      key 0 :: key 1 :: key 2 :: key 3 :: (mask key 0 payload ++ cs) := rfl
  rw [hkey] at hrest
  obtain ⟨g₀, h₀, hrest₀, hsame₀⟩ := nextByte_spec hrest
  obtain ⟨g₁, h₁, hrest₁, hsame₁⟩ := nextByte_spec hrest₀
  obtain ⟨g₂, h₂, hrest₂, hsame₂⟩ := nextByte_spec hrest₁
  obtain ⟨g₃, h₃, hrest₃, hsame₃⟩ := nextByte_spec hrest₂
  obtain ⟨g₄, hcopy, hrest₄, hsame₄⟩ := copyPayload_spec key 0 message hrest₃
  rw [length_mask, mask_mask] at hcopy
  have hvec : ![key 0, key 1, key 2, key 3] = key := by
    funext i
    fin_cases i <;> rfl
  refine ⟨g₄, ?_, hrest₄, ((((hsame.trans hsame₀).trans hsame₁).trans hsame₂).trans hsame₃).trans hsame₄⟩
  unfold readFrame
  rw [hcode]
  dsimp only [bind, Except.bind]
  rw [Nat.mod_eq_of_lt (by omega), if_neg (by omega), h₀]
  dsimp only
  rw [h₁]
  dsimp only
  rw [h₂]
  dsimp only
  rw [h₃]
  dsimp only
  rw [hvec, hcopy]
  rfl

/-- The opcodes of data frames. -/
inductive DataOpcode : UInt8 → Prop
  | cont : DataOpcode 0
  | kind (kind : Kind) : DataOpcode kind.opcode

theorem DataOpcode.mem {opcode : UInt8} (h : DataOpcode opcode) : opcode = 0 ∨ opcode = 1 ∨ opcode = 2 := by
  cases h with
  | cont => exact .inl rfl
  | kind kind =>
    cases kind with
    | text => exact .inr (.inl rfl)
    | binary => exact .inr (.inr rfl)

theorem firstByte_spec {opcode : UInt8} (h : DataOpcode opcode) (fin : Bool) :
    ((firstByte fin opcode).toNat >>> 7 ≠ 0 ↔ fin = true) ∧ (firstByte fin opcode).toNat &&& 0xF = opcode.toNat ∧
      (firstByte fin opcode).toNat &&& 0x70 = 0 := by
  rcases h.mem with rfl | rfl | rfl <;> cases fin <;> decide

theorem DataOpcode.toNat_spec {opcode : UInt8} (h : DataOpcode opcode) :
    isControlFrame opcode.toNat = false ∧ (opcode.toNat = frameCont ↔ opcode = 0) ∧
      (opcode.toNat = frameTxt ∨ opcode.toNat = frameBin ∨ opcode.toNat = frameCont ∨
        isControlFrame opcode.toNat = true) := by
  rcases h.mem with rfl | rfl | rfl <;> decide

theorem type_ne {opcode : UInt8} {type : Int} (htype : type = -1 ↔ opcode ≠ 0) :
    (if opcode = 0 then type else opcode.toNat) ≠ -1 := by
  split_ifs with hzero
  · exact fun hnone => htype.mp hnone hzero
  · omega

/-- A frame of a message is read. -/
theorem nextFrameLoop_data {fin : Bool} {opcode : UInt8} {key : Fin 4 → Byte} {payload : Bytes} (rounds : Nat)
    (data : Bytes) (hopcode : DataOpcode opcode) (htype : frame.type = -1 ↔ opcode ≠ 0)
    (hstate : frame.client.state ≠ .closing) (hsize : frame.size + payload.length ≤ maxFrameLength)
    (hn : Announces second extended payload.length)
    (h : frame.rest = firstByte fin opcode :: second :: (extended ++ List.ofFn key ++ mask key 0 payload ++ cs)) :
    ∃ g, nextFrameLoop (rounds + 1) data frame =
        (if fin then .ok (0, { g with message := data ++ payload }) else nextFrameLoop rounds (data ++ payload) g) ∧
      g.rest = cs ∧ g.size = frame.size + payload.length ∧
      g.type = (if opcode = 0 then frame.type else opcode.toNat) ∧ g.error = frame.error ∧ g.client = frame.client ∧
      g.curPos + cs.length = frame.curPos + frame.rest.length := by
  obtain ⟨hfin, hop, hrsv⟩ := firstByte_spec hopcode fin
  obtain ⟨hcontrol, hcont, hvalid⟩ := hopcode.toNat_spec
  obtain ⟨g₀, h₀, hrest₀, hsame₀⟩ := nextByte_spec h
  have hplace : ¬ (g₀.type = -1 ∧ opcode.toNat = frameCont ∨
      g₀.type ≠ -1 ∧ isControlFrame opcode.toNat = false ∧ opcode.toNat ≠ frameCont) := by
    rw [hsame₀.type, hcont, htype]
    tauto
  have hopen : ¬ (g₀.client.state = .closing ∧ opcode.toNat ≠ frameClose) := by
    rw [hsame₀.client]
    exact fun hboth => hstate hboth.1
  have hnocontrol : ¬ isControlFrame opcode.toNat = true := by
    rw [hcontrol]
    exact Bool.false_ne_true
  -- A first frame sets the type.
  obtain ⟨g₁, hg₁, hrest₁, hsize₁, htype₁, herror₁, hclient₁, hplace₁⟩ : ∃ g₁,
      (if opcode.toNat ≠ frameCont ∧ isControlFrame opcode.toNat = false
        then { g₀ with type := opcode.toNat } else g₀) = g₁ ∧
      g₁.rest = g₀.rest ∧ g₁.size = frame.size ∧ g₁.type = (if opcode = 0 then frame.type else opcode.toNat) ∧
      g₁.error = frame.error ∧ g₁.client = frame.client ∧ g₁.curPos + g₁.rest.length = g₀.curPos + g₀.rest.length := by
    refine ⟨_, rfl, ?_⟩
    by_cases hzero : opcode = 0
    · rw [if_neg fun hboth => hboth.1 (hcont.mpr hzero), if_pos hzero]
      exact ⟨rfl, hsame₀.size, hsame₀.type, hsame₀.error, hsame₀.client, rfl⟩
    · rw [if_pos ⟨mt hcont.mp hzero, hcontrol⟩, if_neg hzero]
      exact ⟨rfl, hsame₀.size, rfl, hsame₀.error, hsame₀.client, rfl⟩
  rw [hrest₀] at hrest₁
  obtain ⟨g₂, h₂, hrest₂, hsame₂⟩ := nextByte_spec hrest₁
  have hsize₂ : g₂.size + payload.length ≤ maxFrameLength := by
    rw [hsame₂.size, hsize₁]
    exact hsize
  obtain ⟨g₃, h₃, hrest₃, hsame₃⟩ := readFrame_spec data hsize₂ hn hrest₂
  refine ⟨{ g₃ with size := frame.size + payload.length }, ?_, hrest₃, rfl, ?_, ?_, ?_, ?_⟩
  · rw [nextFrameLoop, h₀]
    dsimp only [bind, Except.bind]
    rw [hop, if_neg (not_not.mpr hrsv), if_neg hplace, if_pos hvalid]
    rw [if_neg hopen, hg₁, h₂]
    dsimp only
    rw [if_neg (fun hboth => hnocontrol hboth.1), if_pos hcontrol, h₃]
    dsimp only
    rw [hsame₂.size, hsize₁]
    cases fin with
    | true => exact if_pos (hfin.mpr rfl)
    | false => exact if_neg (mt hfin.mp Bool.false_ne_true)
  · exact hsame₃.type.trans (hsame₂.type.trans htype₁)
  · exact hsame₃.error.trans (hsame₂.error.trans herror₁)
  · exact hsame₃.client.trans (hsame₂.client.trans hclient₁)
  · rw [← hrest₃, ← hsame₀.place, ← hplace₁, ← hsame₂.place]
    exact hsame₃.place

theorem masked_append (fin : Bool) (opcode : UInt8) (key : Fin 4 → Byte) (payload cs : Bytes) :
    masked fin opcode key payload ++ cs = firstByte fin opcode :: (128 ||| UInt8.ofNat (lengthCode payload.length)) ::
      (lengthRest payload.length ++ List.ofFn key ++ mask key 0 payload ++ cs) := rfl

end Jericho.WebSocket
