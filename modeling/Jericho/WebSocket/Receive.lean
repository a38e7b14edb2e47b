import Jericho.WebSocket.Fragments

/-! What `recv_websocket` makes of well-formed messages. -/
namespace Jericho.WebSocket
open StdText WebFrame

variable {frame : Frame} {c : Byte} {bs cs : Bytes}

/-- The frames of a message are read up to the last one. -/
theorem nextFrameLoop_fragments {opcode : UInt8} {fs : List Fragment} (hne : fs ≠ []) {rounds : Nat}
    (hrounds : fs.length ≤ rounds) (data : Bytes) (hopcode : DataOpcode opcode)
    (htype : frame.type = -1 ↔ opcode ≠ 0) (hstate : frame.client.state = .openWs)
    (hsize : frame.size + (fs.flatMap Fragment.payload).length ≤ maxFrameLength)
    (h : frame.rest = fragments opcode fs ++ cs) :
    ∃ g : Frame, nextFrameLoop rounds data frame = .ok (0, { g with message := data ++ fs.flatMap Fragment.payload }) ∧
      g.rest = cs ∧ g.size = frame.size + (fs.flatMap Fragment.payload).length ∧
      g.type = (if opcode = 0 then frame.type else opcode.toNat) ∧ g.error = frame.error ∧ g.client = frame.client := by
  have hvalid : ∀ p ∈ fs.map Part.plain, p.Valid := by
    intro p hp
    obtain ⟨f, hf, rfl⟩ := List.mem_map.mp hp
    have hpart : f.payload.length ≤ (fs.flatMap Fragment.payload).length :=
      (List.sublist_flatten_of_mem (List.mem_map_of_mem hf)).length_le
    have hmax : maxFrameLength < 2 ^ 63 := by decide
    exact ⟨fits_shortest (by omega), fun c hc => absurd hc List.not_mem_nil⟩
  rw [← partsBytes_plain] at h
  rw [← partsPayload_plain] at hsize ⊢
  have hcount : (partsControls (fs.map Part.plain)).length + (fs.map Part.plain).length ≤ rounds := by
    rwa [partsControls_plain, List.length_nil, Nat.zero_add, List.length_map]
  obtain ⟨g, hread, hrest, hcollected⟩ := nextFrameLoop_parts (mt List.map_eq_nil_iff.mp hne) hcount data hopcode htype
    (hstate ▸ by decide) (fun hsome => absurd (partsControls_plain fs) hsome) hvalid hsize h
  refine ⟨g, hread, hrest, hcollected.size, hcollected.type, hcollected.error, ?_⟩
  rw [hcollected.client, partsControls_plain]
  rfl

/-- There are more bytes than fragments. -/
theorem length_fragments_le {m : Message} (h : frame.rest = bs ++ cs) (hbytes : bs.length = m.encode.length) :
    (m.first :: m.more).length ≤ frame.request.length + 1 := by
  have hlong := m.le_length_encode
  have hrest := length_rest_le frame
  rw [h, List.length_append] at hrest
  rw [List.length_cons]
  omega

/-- A message is read, and the reader stands behind it. -/
theorem nextFrame_message {m : Message} (hstate : frame.client.state = .openWs)
    (hsize : m.payload.length ≤ maxFrameLength) (h : frame.rest = m.encode ++ cs) :
    ∃ g, nextFrame frame = .ok (0, g) ∧ g.rest = cs ∧ g.message = m.payload ∧ g.size = m.payload.length ∧
      g.type = m.kind.opcode.toNat ∧ g.error = frame.error ∧ g.client = frame.client := by
  have hstart : frame.start.rest = fragments m.kind.opcode (m.first :: m.more) ++ cs := h
  have htype : frame.start.type = -1 ↔ m.kind.opcode ≠ 0 := iff_of_true rfl (opcode_ne_zero m.kind)
  obtain ⟨g, hread, hrest, hgsize, hgtype, hgerror, hgclient⟩ :=
    nextFrameLoop_fragments (List.cons_ne_nil _ _) (length_fragments_le h rfl) [] (.kind m.kind) htype hstate
      (start_size hsize) hstart
  rw [if_neg (opcode_ne_zero m.kind)] at hgtype
  refine ⟨_, hread, hrest, List.nil_append _, ?_, hgtype, hgerror, hgclient⟩
  exact hgsize.trans (Nat.zero_add _)

/-- A frame that opens a message within another one, or goes on with none, is an error. -/
theorem nextFrameLoop_misplaced {fin : Bool} {opcode : UInt8} (rounds : Nat) (data : Bytes)
    (hopcode : DataOpcode opcode)
    (htype : frame.type = -1 ↔ opcode = 0) (h : frame.rest = firstByte fin opcode :: cs) :
    ∃ g, nextFrameLoop (rounds + 1) data frame = .ok (-1, g) := by
  obtain ⟨-, hop, hrsv⟩ := firstByte_spec hopcode fin
  obtain ⟨hcontrol, hcont, -⟩ := hopcode.toNat_spec
  obtain ⟨g, hbyte, -, hsame⟩ := nextByte_spec h
  have hplace : g.type = -1 ∧ opcode.toNat = frameCont ∨
      g.type ≠ -1 ∧ isControlFrame opcode.toNat = false ∧ opcode.toNat ≠ frameCont := by
    rw [hsame.type, hcont, htype]
    tauto
  refine ⟨g.fail.2, ?_⟩
  rw [nextFrameLoop, hbyte]
  dsimp only [bind, Except.bind]
  rw [hop, if_neg (not_not.mpr hrsv), if_pos hplace]
  rfl

/-- Behind the messages a zero byte ends the reading. -/
theorem nextFrame_zero (h : frame.rest = 0 :: cs) : ∃ g, nextFrame frame = .ok (-1, g) := by
  have hstart : frame.start.rest = firstByte false 0 :: cs := h
  have htype : frame.start.type = -1 ↔ (0 : UInt8) = 0 := iff_of_true rfl rfl
  exact nextFrameLoop_misplaced _ _ .cont htype hstart

/-- The bytes of messages. -/
def encodeAll (ms : List Message) : Bytes := ms.flatMap Message.encode

/-- The call of `event_manager.message` for a message. -/
def delivery (m : Message) : Delivery := ⟨m.payload, m.payload.length, m.kind.opcode.toNat⟩

/-- The loop goes on behind a message that was read. -/
theorem recvLoop_deliver {g : Frame} {kind : Kind} {rounds : Nat} {d : Delivery} {ds : List Delivery}
    (hnext : nextFrame frame = .ok (0, g)) (hstate : g.client.state = .openWs) (htype : g.type = kind.opcode.toNat)
    (herror : g.error = false) :
    (∃ client, recvLoop (rounds + 1) frame = .ok (d :: ds, client)) ↔
      ⟨g.message, g.size, g.type⟩ = d ∧ ∃ client, recvLoop rounds g.clear = .ok (ds, client) := by
  have hopen : ¬ ((0 : Int) < 0 ∨ g.client.state ≠ .openWs) := by
    rw [hstate]
    decide
  have hdata : (g.type = frameTxt ∨ g.type = frameBin) ∧ g.error = false := by
    rw [htype, herror]
    cases kind <;> decide
  rw [recvLoop, hnext]
  dsimp only [bind, Except.bind]
  rw [if_neg hopen, if_pos hdata]
  cases recvLoop rounds g.clear with
  | error fault =>
    constructor
    · rintro ⟨client, heq⟩
      cases heq
    · rintro ⟨-, client, heq⟩
      cases heq
  | ok r =>
    constructor
    · rintro ⟨client, heq⟩
      obtain ⟨hlist, -⟩ := Prod.mk.inj (Except.ok.inj heq)
      obtain ⟨hd, rfl⟩ := List.cons.inj hlist
      exact ⟨hd, r.2, rfl⟩
    · rintro ⟨rfl, client, heq⟩
      obtain rfl := Except.ok.inj heq
      exact ⟨client, rfl⟩

theorem recvLoop_messages {ms : List Message} {rounds : Nat} (hrounds : ms.length < rounds)
    (hstate : frame.client.state = .openWs) (herror : frame.error = false)
    (hsize : ∀ m ∈ ms, m.payload.length ≤ maxFrameLength) (h : frame.rest = encodeAll ms ++ 0 :: cs) :
    ∃ client, recvLoop rounds frame = .ok (ms.map delivery, client) := by
  induction ms generalizing frame rounds with
  | nil =>
    obtain ⟨rounds, rfl⟩ := Nat.exists_eq_succ_of_ne_zero (Nat.ne_of_gt hrounds)
    obtain ⟨g, hnext⟩ := nextFrame_zero h
    refine ⟨g.client, ?_⟩
    rw [recvLoop, hnext]
    have hended : (-1 : Int) < 0 ∨ g.client.state ≠ .openWs := .inl (by decide)
    dsimp only [bind, Except.bind]
    rw [if_pos hended]
    rfl
  | cons m ms ih =>
    obtain ⟨rounds, rfl⟩ := Nat.exists_eq_succ_of_ne_zero (Nat.ne_of_gt (Nat.zero_lt_of_lt hrounds))
    rw [encodeAll, List.flatMap_cons, List.append_assoc] at h
    obtain ⟨g, hnext, hrest, hmessage, hgsize, hgtype, hgerror, hgclient⟩ :=
      nextFrame_message hstate (hsize m List.mem_cons_self) h
    have hgstate : g.client.state = .openWs := hgclient ▸ hstate
    have hcleared : g.clear.rest = encodeAll ms ++ 0 :: cs := hrest
    rw [List.map_cons, recvLoop_deliver hnext hgstate hgtype (hgerror.trans herror)]
    constructor
    · rw [hmessage, hgsize, hgtype]
      rfl
    · exact ih (Nat.lt_of_succ_lt_succ hrounds) hgstate (hgerror.trans herror)
        (fun m' hm' => hsize m' (List.mem_cons_of_mem m hm')) hcleared

theorem length_le_encodeAll (ms : List Message) : ms.length ≤ (encodeAll ms).length := by
  unfold encodeAll
  induction ms with
  | nil => exact Nat.le_refl 0
  | cons m ms ih =>
    have hlong := m.le_length_encode
    rw [List.flatMap_cons, List.length_append, List.length_cons]
    omega

theorem payload_le_encodeAll {ms : List Message} {m : Message} (hm : m ∈ ms) :
    m.payload.length ≤ (encodeAll ms).length := by
  have hlong := m.le_length_encode
  have hpart : m.encode.length ≤ (encodeAll ms).length :=
    (List.sublist_flatten_of_mem (List.mem_map_of_mem hm)).length_le
  omega

end Jericho.WebSocket
