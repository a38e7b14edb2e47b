import Jericho.WebSocket.Accesses
import Jericho.WebSocket.Receive

/-! Where `next_frame` stays within its arrays. -/
namespace Jericho.WebSocket
open StdText WebFrame Logging Runs

/-- A byte in front of a reader, or zero behind the end. -/
def Frame.look (frame : Frame) (i : Nat) : Byte := frame.rest.getD i 0

/-- A reader after some bytes. -/
def Frame.skip : Nat → Frame → Frame
  | 0, frame => frame
  | k + 1, frame => frame.next.skip k

/-- `next_byte` measures the request of the client on the way through the next bytes. -/
def Frame.Measures (frame : Frame) (k : Nat) : Prop :=
  frame.curPos = 0 ∧ 0 < k ∨ frame.curPos ≤ frame.received ∧ frame.received < frame.curPos + k

/-- There are so many bytes left in the array, and the texts of the client and of the array itself end where they
are measured. -/
def Frame.Holds (frame : Frame) (k : Nat) : Prop :=
  frame.curPos + k ≤ maxRequestSize + 1 ∧
    (frame.Measures k → (cstr frame.client.request).length < maxRequestSize + 1 ∧
      (cstr frame.request).length < maxRequestSize + 1)

variable {frame : Frame} {k n : Nat}

theorem keeps_nextByte (frame : Frame) : Keeps Access.Within (nextByteTraced frame) ↔ frame.Holds 1 := by
  have hlog : Keeps Access.Within (nextByteTraced frame) ↔
      ∀ a ∈ (if frame.curPos = 0 ∨ frame.curPos = frame.received
        then [Access.client (cstr frame.client.request).length, Access.request (cstr frame.request).length]
        else []) ++ [Access.request frame.curPos], a.Within := by
    unfold nextByteTraced
    rw [keeps_bind]
    exact and_iff_left fun _ _ => keeps_lift _
  rw [hlog, List.forall_mem_append, List.forall_mem_singleton]
  unfold Frame.Holds Frame.Measures
  split_ifs with hmeasure
  · rw [List.forall_mem_cons, List.forall_mem_singleton]
    simp only [Access.Within]
    omega
  · simp only [List.not_mem_nil, IsEmpty.forall_iff, implies_true, true_and, Access.Within]
    grind

theorem holds_succ (frame : Frame) (k : Nat) : frame.Holds (k + 1) ↔ frame.Holds 1 ∧ frame.next.Holds k := by
  unfold Frame.Holds Frame.Measures Frame.next
  dsimp only
  split_ifs <;> grind

/-- A longer stretch is held part by part. -/
theorem holds_add (frame : Frame) (k n : Nat) (hpos : frame.curPos ≤ maxRequestSize + 1) :
    frame.Holds (k + n) ↔ frame.Holds k ∧ (frame.skip k).Holds n := by
  induction k generalizing frame with
  | zero =>
    rw [Nat.zero_add]
    refine (and_iff_right ?_).symm
    unfold Frame.Holds Frame.Measures
    omega
  | succ k ih =>
    rw [Nat.add_right_comm, holds_succ, holds_succ frame k, and_assoc]
    refine and_congr_right fun hone => ?_
    exact ih frame.next hone.1

@[simp] theorem request_skip (frame : Frame) (k : Nat) : (frame.skip k).request = frame.request := by
  induction k generalizing frame with
  | zero => rfl
  | succ k ih => exact ih frame.next

@[simp] theorem curPos_skip (frame : Frame) (k : Nat) : (frame.skip k).curPos = frame.curPos + k := by
  induction k generalizing frame with
  | zero => rfl
  | succ k ih =>
    refine (ih frame.next).trans ?_
    exact Nat.add_right_comm frame.curPos 1 k

theorem rest_skip (frame : Frame) (k : Nat) : (frame.skip k).rest = frame.rest.drop k := by
  unfold Frame.rest
  rw [request_skip, curPos_skip, List.drop_drop]

theorem rest_eq_cons (h : frame.curPos < frame.request.length) : frame.rest = frame.look 0 :: frame.next.rest := by
  have hcons : frame.rest = frame.request[frame.curPos] :: frame.request.drop (frame.curPos + 1) :=
    List.drop_eq_getElem_cons h
  have hlook : frame.look 0 = frame.request[frame.curPos] := by
    unfold Frame.look
    rw [hcons]
    rfl
  rw [hlook, hcons]
  rfl

/-- A byte is read exactly if there is one. -/
theorem nextByte_ok_iff {r : Byte × Frame} :
    nextByte frame = .ok r ↔ frame.curPos + 1 ≤ frame.request.length ∧ (frame.look 0, frame.next) = r := by
  by_cases hlt : frame.curPos < frame.request.length
  · rw [nextByte_eq (rest_eq_cons hlt)]
    constructor
    · exact fun heq => ⟨hlt, Except.ok.inj heq⟩
    · exact fun h => congrArg Except.ok h.2
  · have hnone : frame.request[frame.curPos]? = none := List.getElem?_eq_none (Nat.not_lt.mp hlt)
    refine iff_of_false ?_ fun h => hlt h.1
    unfold nextByte
    split_ifs <;> dsimp only <;> rw [hnone] <;> intro heq <;> cases heq

theorem readLength_ok_iff {r : Nat × Frame} (hpos : frame.curPos ≤ frame.request.length) :
    readLength k n frame = .ok r ↔ frame.curPos + k ≤ frame.request.length ∧
      ((frame.rest.take k).foldl (fun n c => n * 256 + c.toNat) n, frame.skip k) = r := by
  induction k generalizing n frame with
  | zero =>
    constructor
    · exact fun heq => ⟨hpos, Except.ok.inj heq⟩
    · exact fun h => congrArg Except.ok h.2
  | succ k ih =>
    rw [readLength, bind_eq_ok]
    constructor
    · rintro ⟨p, hbyte, hread⟩
      obtain ⟨hlt, rfl⟩ := nextByte_ok_iff.mp hbyte
      obtain ⟨hle, heq⟩ := (ih hlt).mp hread
      refine ⟨Nat.add_right_comm frame.curPos k 1 ▸ hle, ?_⟩
      rw [rest_eq_cons hlt, List.take_succ_cons, List.foldl_cons, ← shift_or]
      exact heq
    · rintro ⟨hle, heq⟩
      have hlt : frame.curPos + 1 ≤ frame.request.length := by omega
      refine ⟨_, nextByte_ok_iff.mpr ⟨hlt, rfl⟩, (ih hlt).mpr ⟨?_, ?_⟩⟩
      · exact Nat.add_right_comm frame.curPos k 1 ▸ hle
      · rw [rest_eq_cons hlt, List.take_succ_cons, List.foldl_cons, ← shift_or] at heq
        exact heq

theorem copyPayload_ok_iff {r : Bytes × Frame} {key : Fin 4 → Byte} {i : Nat} {message : Bytes}
    (hpos : frame.curPos ≤ frame.request.length) :
    copyPayload key n i message frame = .ok r ↔ frame.curPos + n ≤ frame.request.length ∧
      (message ++ mask key i (frame.rest.take n), frame.skip n) = r := by
  induction n generalizing i message frame with
  | zero =>
    rw [List.take_zero, mask, List.append_nil]
    constructor
    · exact fun heq => ⟨hpos, Except.ok.inj heq⟩
    · exact fun h => congrArg Except.ok h.2
  | succ n ih =>
    rw [copyPayload, bind_eq_ok]
    constructor
    · rintro ⟨p, hbyte, hcopy⟩
      obtain ⟨hlt, rfl⟩ := nextByte_ok_iff.mp hbyte
      obtain ⟨hle, heq⟩ := (ih hlt).mp hcopy
      refine ⟨Nat.add_right_comm frame.curPos n 1 ▸ hle, ?_⟩
      rw [rest_eq_cons hlt, List.take_succ_cons, mask_cons, List.append_cons]
      exact heq
    · rintro ⟨hle, heq⟩
      have hlt : frame.curPos + 1 ≤ frame.request.length := by omega
      refine ⟨_, nextByte_ok_iff.mpr ⟨hlt, rfl⟩, (ih hlt).mpr ⟨?_, ?_⟩⟩
      · exact Nat.add_right_comm frame.curPos n 1 ▸ hle
      · rw [rest_eq_cons hlt, List.take_succ_cons, mask_cons, List.append_cons] at heq
        exact heq

/-- A reader of the whole array, at a place in it or behind its last one. -/
structure Frame.Fits (frame : Frame) : Prop where
  length : frame.request.length = maxRequestSize + 1
  pos : frame.curPos ≤ maxRequestSize + 1

theorem Frame.Fits.le (hfits : frame.Fits) : frame.curPos ≤ frame.request.length := hfits.length ▸ hfits.pos

theorem Frame.Fits.skip (hfits : frame.Fits) (hle : frame.curPos + k ≤ frame.request.length) :
    (frame.skip k).Fits where
  length := (congrArg List.length (request_skip frame k)).trans hfits.length
  pos := by
    rw [curPos_skip, ← hfits.length]
    exact hle

theorem Frame.Holds.le (hfits : frame.Fits) (h : frame.Holds k) : frame.curPos + k ≤ frame.request.length :=
  hfits.length ▸ h.1

variable {α : Type} {B : Prop}

/-- A byte, and what comes behind it. -/
theorem keeps_byte {f : Byte × Frame → Traced α} (hfits : frame.Fits)
    (hf : frame.Holds 1 → frame.next.Fits →
      (Keeps Access.Within (f (frame.look 0, frame.next)) ↔ frame.next.Holds k ∧ B)) :
    Keeps Access.Within (nextByteTraced frame >>= f) ↔ frame.Holds (k + 1) ∧ B := by
  have hok : frame.Holds 1 → (nextByteTraced frame).result = .ok (frame.look 0, frame.next) := fun hone =>
    nextByte_ok_iff.mpr ⟨hone.le hfits, rfl⟩
  rw [keeps_bind_iff (keeps_nextByte frame) hok, holds_succ frame k, and_assoc]
  refine and_congr_right fun hone => ?_
  exact hf hone (hfits.skip (k := 1) (hone.le hfits))

theorem holds_zero (hfits : frame.Fits) : frame.Holds 0 := by
  refine ⟨hfits.pos, fun hmeasures => ?_⟩
  unfold Frame.Measures at hmeasures
  omega

theorem keeps_readLength (hfits : frame.Fits) :
    Keeps Access.Within (readLengthTraced k n frame) ↔ frame.Holds k := by
  induction k generalizing n frame with
  | zero => exact iff_of_true keeps_pure (holds_zero hfits)
  | succ k ih =>
    rw [← and_iff_left (a := frame.Holds (k + 1)) trivial]
    refine keeps_byte hfits fun _ hnext => ?_
    rw [and_iff_left trivial]
    exact ih hnext

theorem keeps_copyPayload {key : Fin 4 → Byte} {i : Nat} {message : Bytes} {place : Nat → Access}
    (hfits : frame.Fits)
    (hplace : frame.Holds n → ∀ j < n, (place (message.length + j)).Within) :
    Keeps Access.Within (copyPayloadTraced place key n i message frame) ↔ frame.Holds n := by
  induction n generalizing i message frame with
  | zero => exact iff_of_true keeps_pure (holds_zero hfits)
  | succ n ih =>
    rw [← and_iff_left (a := frame.Holds (n + 1)) trivial]
    refine keeps_byte hfits fun hone hnext => ?_
    have hall : frame.next.Holds n → ∀ j < n + 1, (place (message.length + j)).Within := fun hholds =>
      hplace ((holds_succ frame n).mpr ⟨hone, hholds⟩)
    rw [and_iff_left trivial, keeps_bind_iff (keeps_record _) fun _ => rfl, List.forall_mem_singleton, ih hnext]
    · exact and_iff_right_of_imp fun hholds => hall hholds 0 (Nat.succ_pos n)
    · intro hholds j hj
      rw [List.length_append, List.length_singleton, Nat.add_assoc, Nat.add_comm 1]
      exact hall hholds (j + 1) (Nat.succ_lt_succ hj)

/-- The bytes of a length behind its length byte. -/
def extendedBytes (code : Nat) : Nat := if code = 126 then 2 else if code = 127 then 8 else 0

/-- The length of a payload. -/
def announcedLength (code : Nat) (bs : Bytes) : Nat :=
  if extendedBytes code = 0 then code else ofBigEndian (bs.take (extendedBytes code))

variable (code : Nat)

theorem keeps_frameLength (hfits : frame.Fits) :
    Keeps Access.Within (frameLengthTraced code frame) ↔ frame.Holds (extendedBytes code) := by
  unfold frameLengthTraced extendedBytes
  split_ifs
  · exact keeps_readLength hfits
  · exact keeps_readLength hfits
  · exact iff_of_true keeps_pure (holds_zero hfits)

theorem frameLength_ok_iff {r : Nat × Frame} (hpos : frame.curPos ≤ frame.request.length) :
    (frameLengthTraced code frame).result = .ok r ↔ frame.curPos + extendedBytes code ≤ frame.request.length ∧
      (announcedLength code frame.rest, frame.skip (extendedBytes code)) = r := by
  unfold frameLengthTraced
  by_cases hmiddle : code = 126
  · subst hmiddle
    exact (congrArg (· = _) (result_readLengthTraced 2 0 frame)).to_iff.trans (readLength_ok_iff hpos)
  by_cases hlong : code = 127
  · subst hlong
    exact (congrArg (· = _) (result_readLengthTraced 8 0 frame)).to_iff.trans (readLength_ok_iff hpos)
  · have hnone : extendedBytes code = 0 := (if_neg hmiddle).trans (if_neg hlong)
    rw [if_neg hmiddle, if_neg hlong, announcedLength, if_pos hnone, hnone]
    constructor
    · exact fun heq => ⟨hpos, Except.ok.inj heq⟩
    · exact fun h => congrArg Except.ok h.2

/-- The bytes of a frame behind its length byte. -/
def bodyBytes (code size : Nat) (bs : Bytes) : Nat :=
  extendedBytes code +
    if (size + announcedLength code bs) % 2 ^ 64 > maxFrameLength then 0 else announcedLength code bs + 4

theorem length_take_rest (hle : frame.curPos + n ≤ frame.request.length) : (frame.rest.take n).length = n := by
  unfold Frame.rest
  rw [List.length_take, List.length_drop]
  omega

/-- What is read is in the array, and then the terminator has to be in its own. -/
theorem keeps_readFrame (control isFin : Bool) (message : Bytes) (size : Nat) (hfits : frame.Fits)
    (hplace : announcedLength code frame.rest ≤ maxRequestSize + 1 → ∀ j < announcedLength code frame.rest,
      (placeOf control isFin message.length (announcedLength code frame.rest) (message.length + j)).Within) :
    Keeps Access.Within (readFrameTraced control isFin frame message code size) ↔
      frame.Holds (bodyBytes code size frame.rest) ∧
        (isFin ∧ (size + announcedLength code frame.rest) % 2 ^ 64 > 0 ∧
            (size + announcedLength code frame.rest) % 2 ^ 64 ≤ maxFrameLength →
          (placeOf control isFin message.length (announcedLength code frame.rest)
            (message.length + announcedLength code frame.rest)).Within) := by
  have hok : frame.Holds (extendedBytes code) → (frameLengthTraced code frame).result =
      .ok (announcedLength code frame.rest, frame.skip (extendedBytes code)) := fun hholds =>
    (frameLength_ok_iff code hfits.le).mpr ⟨hholds.le hfits, rfl⟩
  unfold readFrameTraced bodyBytes
  rw [keeps_bind_iff (keeps_frameLength code hfits) hok, holds_add frame _ _ hfits.pos, and_assoc]
  refine and_congr_right fun hextended => ?_
  have hbody : (frame.skip (extendedBytes code)).Fits := hfits.skip (Frame.Holds.le hfits hextended)
  dsimp only
  generalize hn : announcedLength code frame.rest = n at *
  generalize frame.skip (extendedBytes code) = g at *
  by_cases hlarge : (size + n) % 2 ^ 64 > maxFrameLength
  · rw [if_pos hlarge, if_pos hlarge]
    refine iff_of_true keeps_pure ⟨holds_zero hbody, fun hend => ?_⟩
    exact absurd hend.2.2 (Nat.not_le.mpr hlarge)
  rw [if_neg hlarge, if_neg hlarge]
  refine keeps_byte hbody fun _ h₀ => keeps_byte h₀ fun _ h₁ => ?_
  refine keeps_byte h₁ fun _ h₂ => keeps_byte h₂ fun _ h₃ => ?_
  generalize g.next.next.next.next = f at *
  have hcopy : f.Holds n → ∀ j < n, (placeOf control isFin message.length n (message.length + j)).Within :=
    fun hholds => hplace ((Nat.le_add_left n f.curPos).trans hholds.1)
  rw [keeps_bind_iff (keeps_copyPayload h₃ hcopy) fun hholds => (result_copyPayloadTraced _ _ _ _ _ _).trans
    ((copyPayload_ok_iff h₃.le).mpr ⟨Frame.Holds.le h₃ hholds, rfl⟩)]
  refine and_congr_right fun hholds => ?_
  rw [keeps_bind_iff (keeps_record _) fun _ => rfl, and_iff_left keeps_pure, List.length_append, length_mask,
    length_take_rest (Frame.Holds.le h₃ hholds)]
  by_cases hend : isFin = true ∧ (size + n) % 2 ^ 64 > 0
  · rw [if_pos hend, List.forall_mem_singleton]
    exact ⟨fun hin _ => hin, fun hall => hall ⟨hend.1, hend.2, Nat.not_lt.mp hlarge⟩⟩
  · rw [if_neg hend]
    exact iff_of_true (List.forall_mem_nil _) fun hall => absurd ⟨hall.1, hall.2.1⟩ hend

theorem byte_ok {f : Byte × Frame → Traced α} {a : α} (hfits : frame.Fits)
    (h : (nextByteTraced frame >>= f).result = .ok a) :
    frame.next.Fits ∧ (f (frame.look 0, frame.next)).result = .ok a := by
  obtain ⟨p, hbyte, hrest⟩ := result_bind_eq_ok.mp h
  obtain ⟨hlt, rfl⟩ := nextByte_ok_iff.mp hbyte
  exact ⟨hfits.skip (k := 1) hlt, hrest⟩

/-- A payload is no longer than the way of the reader. -/
theorem readFrame_ok {control isFin : Bool} {message : Bytes} {size : Nat} {r : Option (Bytes × Nat) × Frame}
    (hfits : frame.Fits) (h : (readFrameTraced control isFin frame message code size).result = .ok r) :
    r.2.Fits ∧ ∀ m, r.1 = some m → m.1.length + frame.curPos ≤ message.length + r.2.curPos := by
  obtain ⟨p, hlength, h⟩ := result_bind_eq_ok.mp h
  obtain ⟨hle, rfl⟩ := (frameLength_ok_iff code hfits.le).mp hlength
  have hbody := hfits.skip hle
  have hpos := curPos_skip frame (extendedBytes code)
  dsimp only at h
  generalize announcedLength code frame.rest = n at h
  generalize frame.skip (extendedBytes code) = g at h hbody hpos
  by_cases hlarge : (size + n) % 2 ^ 64 > maxFrameLength
  · rw [if_pos hlarge] at h
    obtain rfl := Except.ok.inj h
    exact ⟨⟨hbody.length, hbody.pos⟩, fun m hm => by cases hm⟩
  rw [if_neg hlarge] at h
  obtain ⟨h₀, h⟩ := byte_ok hbody h
  obtain ⟨h₁, h⟩ := byte_ok h₀ h
  obtain ⟨h₂, h⟩ := byte_ok h₁ h
  obtain ⟨h₃, h⟩ := byte_ok h₂ h
  obtain ⟨p, hcopy, h⟩ := result_bind_eq_ok.mp h
  rw [result_copyPayloadTraced] at hcopy
  obtain ⟨hn, rfl⟩ := (copyPayload_ok_iff h₃.le).mp hcopy
  obtain ⟨_, -, h⟩ := result_bind_eq_ok.mp h
  obtain rfl := Except.ok.inj h
  refine ⟨h₃.skip hn, fun m hm => ?_⟩
  obtain rfl := Option.some.inj hm
  have hstart : g.next.next.next.next.curPos = g.curPos + 4 := rfl
  rw [List.length_append, length_mask, length_take_rest hn, curPos_skip]
  omega

/-- The data of a message are bytes that were read. -/
structure Decoding.Sound (s : Decoding) : Prop where
  fits : s.frame.Fits
  data : s.data.length ≤ s.frame.curPos

/-- What a round leaves. -/
def FrameRound.Sound : FrameRound → Prop
  | done _ frame => frame.Fits
  | again data frame => Decoding.Sound ⟨data, frame⟩

variable {isFin : Bool} {data : Bytes} {opcode : Nat} {r : FrameRound}

theorem Frame.Fits.failed (hfits : frame.Fits) : frame.failed.Sound := ⟨hfits.length, hfits.pos⟩

theorem dataRound_ok (hfits : frame.Fits) (hdata : data.length ≤ frame.curPos)
    (h : (dataRound isFin data frame code).result = .ok r) : r.Sound := by
  obtain ⟨⟨_ | ⟨data', size⟩, g⟩, hread, h⟩ := result_bind_eq_ok.mp h
  · obtain rfl := Except.ok.inj h
    exact (readFrame_ok code hfits hread).1.failed
  · obtain ⟨hg, hlong⟩ := readFrame_ok code hfits hread
    have hpos := hlong _ rfl
    cases isFin with
    | true =>
      obtain rfl := Except.ok.inj h
      exact ⟨hg.length, hg.pos⟩
    | false =>
      obtain rfl := Except.ok.inj h
      refine ⟨⟨hg.length, hg.pos⟩, ?_⟩
      dsimp only at hpos ⊢
      omega

theorem controlRound_ok (hfits : frame.Fits) (hdata : data.length ≤ frame.curPos)
    (h : (controlRound opcode isFin data frame code).result = .ok r) : r.Sound := by
  obtain ⟨⟨_ | ⟨payload, size⟩, g⟩, hread, h⟩ := result_bind_eq_ok.mp h
  · obtain rfl := Except.ok.inj h
    exact (readFrame_ok code hfits hread).1.failed
  · obtain ⟨hg, hlong⟩ := readFrame_ok code hfits hread
    have hpos : data.length ≤ g.curPos := by
      have hlong := hlong _ rfl
      dsimp only [List.length_nil] at hlong
      omega
    have hagain : ∀ client, FrameRound.Sound (.again data { g with client := client }) := fun _ =>
      ⟨⟨hg.length, hg.pos⟩, hpos⟩
    dsimp only at h
    by_cases hpong : opcode = framePong
    · rw [if_pos hpong] at h
      obtain rfl := Except.ok.inj h
      exact hagain _
    rw [if_neg hpong] at h
    by_cases hping : opcode = framePing
    · rw [if_pos hping] at h
      by_cases hret : (wsSendframe g.client payload framePong).1 < 0
      · rw [if_pos hret] at h
        obtain rfl := Except.ok.inj h
        exact ⟨hg.length, hg.pos⟩
      · rw [if_neg hret] at h
        obtain rfl := Except.ok.inj h
        exact hagain _
    · rw [if_neg hping] at h
      obtain rfl := Except.ok.inj h
      exact ⟨hg.length, hg.pos⟩

/-- The bytes of a data frame go to memory that was asked for. -/
theorem placeOf_data (isFin : Bool) {start length j : Nat} (h : j < length + isFin.toNat)
    (hstart : start ≤ maxRequestSize + 1) (hlength : length ≤ maxRequestSize + 1) :
    (placeOf false isFin start length (start + j)).Within := by
  have hfin := Bool.toNat_le isFin
  have hmax : maxRequestSize = 490000 := rfl
  change start + j < start + length + isFin.toNat ∧ start + length + isFin.toNat < 2 ^ 64
  omega

/-- A data frame stays within its bounds where the array holds it. -/
theorem keeps_dataRound (hfits : frame.Fits) (hdata : data.length ≤ frame.curPos) :
    Keeps Access.Within (dataRound isFin data frame code) ↔ frame.Holds (bodyBytes code frame.size frame.rest) := by
  have hstart : data.length ≤ maxRequestSize + 1 := hdata.trans hfits.pos
  have hread := keeps_readFrame code false isFin data frame.size hfits
    fun hlength j hj => placeOf_data isFin (by omega) hstart hlength
  rw [and_iff_left_of_imp] at hread
  swap
  · intro hholds hend
    have hle := hholds.1
    rw [bodyBytes, if_neg (Nat.not_lt.mpr hend.2.2)] at hle
    exact placeOf_data isFin (by rw [hend.1]; exact Nat.lt_succ_self _) hstart (by omega)
  unfold dataRound
  rw [keeps_bind, hread]
  refine and_iff_left fun p hp => ?_
  obtain ⟨hg, hlong⟩ := readFrame_ok code hfits hp
  obtain ⟨_ | ⟨data', size⟩, g⟩ := p
  · exact keeps_pure
  have hlong := hlong _ rfl
  have hpos := hg.pos
  cases isFin with
  | false => exact keeps_pure
  | true =>
    change Keeps Access.Within (record [Access.accepted data'.length] >>= _)
    rw [keeps_bind, keeps_record, List.forall_mem_singleton]
    refine ⟨?_, fun _ _ => keeps_pure⟩
    have hmax : maxRequestSize + 1 ≤ maxFrameLength := by decide
    change data'.length ≤ maxFrameLength
    dsimp only at hlong hpos
    omega

/-- A control frame has to leave room for the terminator, too. -/
theorem keeps_controlRound (hfits : frame.Fits) (hcode : code ≤ 125) :
    Keeps Access.Within (controlRound opcode true data frame code) ↔
      frame.Holds (bodyBytes code 0 frame.rest) ∧ code ≠ 125 := by
  have hextended : extendedBytes code = 0 := (if_neg (by omega)).trans (if_neg (by omega))
  have hlength : announcedLength code frame.rest = code := if_pos hextended
  have hplace : ∀ j, (placeOf true true 0 code (0 + j)).Within ↔ j < payloadSize := fun j => by
    rw [Nat.zero_add]
    exact Iff.rfl
  have hread := keeps_readFrame code true true [] 0 hfits
    (by rw [hlength]; exact fun _ j hj => (hplace j).mpr (Nat.lt_of_lt_of_le hj hcode))
  have hend : (true = true ∧ code > 0 ∧ code ≤ maxFrameLength → code < payloadSize) ↔ code ≠ 125 := by
    constructor
    · rintro hin rfl
      exact absurd (hin (by decide)) (Nat.lt_irrefl 125)
    · exact fun hne _ => Nat.lt_of_le_of_ne hcode hne
  rw [hlength, List.length_nil, hplace, Nat.zero_add, Nat.mod_eq_of_lt (by omega), hend] at hread
  unfold controlRound
  rw [keeps_bind, hread]
  refine and_iff_left fun p _ => ?_
  obtain ⟨_ | ⟨payload, size⟩, g⟩ := p
  · exact keeps_pure
  dsimp only
  split_ifs <;> exact keeps_pure

/-- What lets a frame go on behind its first byte. -/
def Frame.Opens (frame : Frame) (c : Byte) : Prop :=
  c.toNat &&& 0x70 = 0 ∧
  ¬ (frame.type = -1 ∧ c.toNat &&& 0xF = frameCont ∨
    frame.type ≠ -1 ∧ isControlFrame (c.toNat &&& 0xF) = false ∧ c.toNat &&& 0xF ≠ frameCont) ∧
  (c.toNat &&& 0xF = frameTxt ∨ c.toNat &&& 0xF = frameBin ∨ c.toNat &&& 0xF = frameCont ∨
    isControlFrame (c.toNat &&& 0xF)) ∧
  ¬ (frame.client.state = .closing ∧ c.toNat &&& 0xF ≠ frameClose)

instance (c : Byte) : Decidable (frame.Opens c) := inferInstanceAs (Decidable (_ ∧ _ ∧ _ ∧ _))

/-- What ends a control frame behind its length byte. -/
def Refused (c second : Byte) : Prop :=
  isControlFrame (c.toNat &&& 0xF) ∧ (¬ c.toNat >>> 7 ≠ 0 ∨ second.toNat &&& 0x7F > 125)

instance (c second : Byte) : Decidable (Refused c second) := inferInstanceAs (Decidable (_ ∧ _))

theorem checkedRound_cases (data : Bytes) (c : Byte) (frame : Frame) :
    frame.Opens c ∧ checkedRound data c frame = openedRound data c frame ∨
      ¬ frame.Opens c ∧ ∃ type, checkedRound data c frame = pure (Frame.failed { frame with type := type }) := by
  unfold checkedRound Frame.Opens
  dsimp only
  split_ifs with hrsv hplace hvalid hclosing
  · exact .inr ⟨fun h => hrsv h.1, frame.type, rfl⟩
  · exact .inr ⟨fun h => h.2.1 hplace, frame.type, rfl⟩
  · exact .inr ⟨fun h => h.2.2.2 hclosing, frame.type, rfl⟩
  · exact .inl ⟨⟨not_not.mp hrsv, hplace, hvalid, hclosing⟩, rfl⟩
  · exact .inr ⟨fun h => hvalid h.2.2.1, _, rfl⟩

/-- The bytes of a frame behind its length byte, as many as are read. -/
def restBytes (c second : Byte) (size : Nat) (bs : Bytes) : Nat :=
  if Refused c second then 0
  else bodyBytes (second.toNat &&& 0x7F) (if isControlFrame (c.toNat &&& 0xF) then 0 else size) bs

/-- A control frame whose terminator is behind `payload`. -/
def Overruns (c second : Byte) : Prop :=
  isControlFrame (c.toNat &&& 0xF) ∧ c.toNat >>> 7 ≠ 0 ∧ second.toNat &&& 0x7F = 125

instance (c second : Byte) : Decidable (Overruns c second) := inferInstanceAs (Decidable (_ ∧ _ ∧ _))

variable {c second : Byte}

theorem keeps_maskedRound (hfits : frame.Fits) (hdata : data.length ≤ frame.curPos) :
    Keeps Access.Within (maskedRound data c second frame) ↔
      frame.Holds (restBytes c second frame.size frame.rest) ∧ ¬ Overruns c second := by
  unfold maskedRound restBytes
  dsimp only
  by_cases hrefused : isControlFrame (c.toNat &&& 0xF) = true ∧
      (¬ c.toNat >>> 7 ≠ 0 ∨ second.toNat &&& 0x7F > 125)
  · have hnot : ¬ Overruns c second := by
      rintro ⟨-, hfin, hcode⟩
      rcases hrefused.2 with hmore | hlong
      · exact hmore hfin
      · omega
    rw [if_pos hrefused]
    exact iff_of_true keeps_pure ⟨(if_pos (c := Refused c second) hrefused).symm ▸ holds_zero hfits, hnot⟩
  rw [if_neg hrefused, if_neg (c := Refused c second) hrefused]
  by_cases hcontrol : isControlFrame (c.toNat &&& 0xF) = true
  · have hfin : c.toNat >>> 7 ≠ 0 := not_not.mp fun hmore => hrefused ⟨hcontrol, .inl hmore⟩
    have hcode : second.toNat &&& 0x7F ≤ 125 := Nat.not_lt.mp fun hlong => hrefused ⟨hcontrol, .inr hlong⟩
    rw [if_pos hcontrol, if_neg fun hdata => Bool.false_ne_true (hdata.symm.trans hcontrol),
      decide_eq_true hfin, keeps_controlRound _ hfits hcode]
    refine and_congr_right fun _ => not_congr ?_
    exact ⟨fun h => ⟨hcontrol, hfin, h⟩, fun h => h.2.2⟩
  · rw [if_neg hcontrol, if_pos (Bool.eq_false_of_not_eq_true hcontrol), keeps_dataRound _ hfits hdata]
    exact (and_iff_left fun h => hcontrol h.1).symm

theorem maskedRound_ok (hfits : frame.Fits) (hdata : data.length ≤ frame.curPos)
    (h : (maskedRound data c second frame).result = .ok r) : r.Sound := by
  unfold maskedRound at h
  dsimp only at h
  split_ifs at h
  · obtain rfl := Except.ok.inj h
    exact hfits.failed
  · exact dataRound_ok _ hfits hdata h
  · exact controlRound_ok _ hfits hdata h

/-- The byte of a first frame sets the type and nothing else. -/
theorem openedRound_eq (data : Bytes) (c : Byte) (frame : Frame) : ∃ type, openedRound data c frame =
    nextByteTraced { frame with type := type } >>= fun p => maskedRound data c p.1 p.2 := by
  unfold openedRound
  by_cases hdata : c.toNat &&& 0xF ≠ frameCont ∧ isControlFrame (c.toNat &&& 0xF) = false
  · exact ⟨_, congrArg (nextByteTraced · >>= fun p => maskedRound data c p.1 p.2) (if_pos hdata)⟩
  · exact ⟨frame.type, congrArg (nextByteTraced · >>= fun p => maskedRound data c p.1 p.2) (if_neg hdata)⟩

/-- The bytes that a frame asks for. -/
def Frame.asked (frame : Frame) : Nat :=
  if frame.Opens (frame.look 0)
    then restBytes (frame.look 0) (frame.look 1) frame.size (frame.rest.drop 2) + 2 else 1

/-- The array holds the bytes that the next frame asks for, the request of the client and the text in the array
end where they are measured, and a control frame that is read leaves a byte of `payload`. -/
def Frame.Contained (frame : Frame) : Prop :=
  frame.Holds frame.asked ∧ ¬ (frame.Opens (frame.look 0) ∧ Overruns (frame.look 0) (frame.look 1))

/-- What a round uses is within its bounds exactly where the frame is contained. -/
theorem keeps_round (hfits : frame.Fits) (hdata : data.length ≤ frame.curPos) :
    Keeps Access.Within (nextFrameRound data frame) ↔ frame.Contained := by
  have hlook : frame.next.look 0 = frame.look 1 := by
    have hdrop : frame.next.rest = frame.rest.drop 1 := rest_skip frame 1
    unfold Frame.look
    rw [hdrop, List.getD_eq_getElem?_getD, List.getElem?_drop, List.getD_eq_getElem?_getD]
  have hrest : frame.next.next.rest = frame.rest.drop 2 := rest_skip frame 2
  unfold Frame.Contained Frame.asked nextFrameRound
  rcases checkedRound_cases data (frame.look 0) frame.next with ⟨hopens, hround⟩ | ⟨hcloses, type, hround⟩
  · have hopens' : frame.Opens (frame.look 0) := hopens
    rw [if_pos hopens', and_iff_right hopens']
    refine keeps_byte hfits fun _ hnext => ?_
    obtain ⟨type, heq⟩ := openedRound_eq data (frame.look 0) frame.next
    dsimp only
    rw [hround, heq, ← hlook, ← hrest]
    have hopened : Frame.Fits { frame.next with type := type } := ⟨hnext.length, hnext.pos⟩
    refine keeps_byte hopened fun _ hbody => ?_
    exact keeps_maskedRound hbody (hdata.trans (Nat.le_add_right frame.curPos 2))
  · have hcloses' : ¬ frame.Opens (frame.look 0) := hcloses
    rw [if_neg hcloses', and_iff_left fun h => hcloses' h.1, ← and_iff_left (a := frame.Holds 1) trivial]
    refine keeps_byte hfits fun _ hnext => ?_
    dsimp only
    rw [hround]
    exact iff_of_true keeps_pure ⟨holds_zero hnext, trivial⟩

theorem round_ok (hfits : frame.Fits) (hdata : data.length ≤ frame.curPos)
    (h : (nextFrameRound data frame).result = .ok r) : r.Sound := by
  obtain ⟨hnext, h⟩ := byte_ok hfits h
  dsimp only at h
  rcases checkedRound_cases data (frame.look 0) frame.next with ⟨-, hround⟩ | ⟨-, type, hround⟩
  · obtain ⟨type, heq⟩ := openedRound_eq data (frame.look 0) frame.next
    rw [hround, heq] at h
    have hopened : Frame.Fits { frame.next with type := type } := ⟨hnext.length, hnext.pos⟩
    obtain ⟨hbody, h⟩ := byte_ok hopened h
    exact maskedRound_ok hbody (hdata.trans (Nat.le_add_right frame.curPos 2)) h
  · rw [hround] at h
    obtain rfl := Except.ok.inj h
    exact ⟨hnext.length, hnext.pos⟩

theorem Decoding.Sound.step {s t : Decoding} {turn : Turn} (hs : s.Sound) (h : DecodeStep s turn t) : t.Sound := by
  cases h with
  | round h => exact round_ok hs.fits hs.data h
  | call client h hret =>
    have hfits : Frame.Fits _ := round_ok hs.fits hs.data h
    exact ⟨⟨hfits.length, hfits.pos⟩, Nat.zero_le _⟩

theorem opening_sound (request : Buffer) (received : Nat) (client : Client) :
    (opening request received client).Sound where
  fits := ⟨request.property, Nat.zero_le _⟩
  data := Nat.zero_le _

variable {request : Buffer} {received : Nat} {client : Client} {turns : List Turn} {s : Decoding}

theorem sound_of_run (h : Run DecodeStep (opening request received client) turns s) : s.Sound :=
  h.invariant (fun _ _ _ hs hstep => hs.step hstep) (opening_sound request received client)

/-- Every access of a sequence of calls is within its bounds exactly if every frame that it comes to
is contained. -/
theorem accesses_within_iff (request : Buffer) (received : Nat) (client : Client) (turns : List Turn) :
    (∀ done s, done <+: turns → Run DecodeStep (opening request received client) done s →
        ∀ a ∈ s.round.log, a.Within) ↔
      ∀ done s, done <+: turns → Run DecodeStep (opening request received client) done s → s.frame.Contained := by
  refine forall₄_congr fun done s _ hrun => ?_
  have hs := sound_of_run hrun
  exact keeps_round hs.fits hs.data

/-- An array that starts with some bytes. -/
def Buffer.of (bs : Bytes) : Buffer := ⟨bs.takeD (maxRequestSize + 1) 0, List.takeD_length _ _ _⟩

/-- A ping of 125 bytes, and a length of 500000. -/
theorem accesses_escape :
    (¬ ∀ done s, done <+: ([] : List Turn) →
      Run DecodeStep (opening (.of [0x89, 0xFD]) 131 { request := [] }) done s → ∀ a ∈ s.round.log, a.Within) ∧
    ¬ ∀ done s, done <+: ([] : List Turn) →
      Run DecodeStep (opening (.of [0x82, 0xFF, 0, 0, 0, 0, 0, 7, 0xA1, 0x20]) 490000 { request := [] }) done s →
        ∀ a ∈ s.round.log, a.Within := by
  constructor
  · intro h
    have hs := opening_sound (.of [0x89, 0xFD]) 131 { request := [] }
    have hcontained := (keeps_round hs.fits hs.data).mp (h [] _ (List.prefix_refl []) .nil)
    exact hcontained.2 (by decide)
  · intro h
    have hs := opening_sound (.of [0x82, 0xFF, 0, 0, 0, 0, 0, 7, 0xA1, 0x20]) 490000 { request := [] }
    have hcontained := (keeps_round hs.fits hs.data).mp (h [] _ (List.prefix_refl []) .nil)
    exact absurd hcontained.1.1 (by decide)

end Jericho.WebSocket
