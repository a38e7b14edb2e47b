import Jericho.WebSocket.Reading

/-! How `next_frame` puts a message together from its fragments, with control frames in between. -/
namespace Jericho.WebSocket
open StdText WebFrame

variable {frame : Frame} {bs cs : Bytes}

/-- The client after a control frame that was answered. -/
def answer (client : Client) : Control → Client
  | .ping f => { client with sent := client.sent ++ [wsFrame f.payload framePong] }
  | .pong f => pong client f.payload f.payload.length

theorem pong_spec (client : Client) (payload : Bytes) (n : Nat) :
    (pong client payload n).state = client.state ∧ (pong client payload n).online = client.online ∧
      (pong client payload n).sent = client.sent := by
  unfold pong
  split_ifs <;> exact ⟨rfl, rfl, rfl⟩

/-- A control frame leaves the connection as it is, and sends what was asked for. -/
theorem answer_spec (client : Client) (control : Control) :
    (answer client control).state = client.state ∧ (answer client control).online = client.online ∧
      (answer client control).sent = client.sent ++ control.asks.toList.map fun payload => wsFrame payload framePong := by
  cases control with
  | ping f => exact ⟨rfl, rfl, rfl⟩
  | pong f =>
    obtain ⟨hstate, honline, hsent⟩ := pong_spec client f.payload f.payload.length
    exact ⟨hstate, honline, hsent.trans (List.append_nil _).symm⟩

/-- The client after some control frames. -/
def answers (client : Client) (controls : List Control) : Client := controls.foldl answer client

theorem answers_spec (client : Client) (controls : List Control) :
    (answers client controls).state = client.state ∧ (answers client controls).online = client.online ∧
      (answers client controls).sent =
        client.sent ++ (controls.filterMap Control.asks).map fun payload => wsFrame payload framePong := by
  induction controls generalizing client with
  | nil => exact ⟨rfl, rfl, (List.append_nil _).symm⟩
  | cons control controls ih =>
    obtain ⟨hstate, honline, hsent⟩ := ih (answer client control)
    obtain ⟨hstate', honline', hsent'⟩ := answer_spec client control
    refine ⟨hstate.trans hstate', honline.trans honline', hsent.trans ?_⟩
    rw [hsent', List.append_assoc, List.filterMap_cons]
    cases control.asks <;> rfl

theorem Control.byte_spec (control : Control) :
    (firstByte true control.opcode).toNat >>> 7 ≠ 0 ∧
      (firstByte true control.opcode).toNat &&& 0xF = control.opcode.toNat ∧
      (firstByte true control.opcode).toNat &&& 0x70 = 0 ∧ isControlFrame control.opcode.toNat = true ∧
      control.opcode.toNat ≠ frameCont ∧ control.opcode.toNat ≠ frameClose := by
  cases control with
  | ping f =>
    change (firstByte true 9).toNat >>> 7 ≠ 0 ∧ (firstByte true 9).toNat &&& 0xF = (9 : UInt8).toNat ∧
      (firstByte true 9).toNat &&& 0x70 = 0 ∧ isControlFrame (9 : UInt8).toNat = true ∧
      (9 : UInt8).toNat ≠ frameCont ∧ (9 : UInt8).toNat ≠ frameClose
    decide
  | pong f =>
    change (firstByte true 10).toNat >>> 7 ≠ 0 ∧ (firstByte true 10).toNat &&& 0xF = (10 : UInt8).toNat ∧
      (firstByte true 10).toNat &&& 0x70 = 0 ∧ isControlFrame (10 : UInt8).toNat = true ∧
      (10 : UInt8).toNat ≠ frameCont ∧ (10 : UInt8).toNat ≠ frameClose
    decide

/-- A control frame is answered, and the message goes on as it was. -/
theorem nextFrameLoop_control {control : Control} (rounds : Nat) (data : Bytes)
    (hstate : frame.client.state ≠ .closing) (honline : frame.client.online = true)
    (hsize : control.frame.payload.length ≤ 125) (h : frame.rest = control.encode ++ cs) :
    ∃ g, nextFrameLoop (rounds + 1) data frame = nextFrameLoop rounds data g ∧ g.rest = cs ∧ g.size = frame.size ∧
      g.type = frame.type ∧ g.error = frame.error ∧ g.client = answer frame.client control ∧
      g.curPos + cs.length = frame.curPos + frame.rest.length := by
  obtain ⟨hfin, hop, hrsv, hcontrol, hcont, hclose⟩ := Control.byte_spec control
  have hfits : Width.short.Fits control.frame.payload.length := Nat.lt_succ_of_le hsize
  obtain ⟨g₀, h₀, hrest₀, hsame₀⟩ := nextByte_spec h
  obtain ⟨g₁, h₁, hrest₁, hsame₁⟩ := nextByte_spec hrest₀
  have hmax : control.frame.payload.length ≤ maxFrameLength := hsize.trans (by decide)
  have hbody : 0 + control.frame.payload.length ≤ maxFrameLength := (Nat.zero_add _).trans_le hmax
  obtain ⟨g, hread, hrest, hsame⟩ := readFrame_spec [] hbody (announces_width hfits) hrest₁
  have hclient : g.client = frame.client := hsame.client.trans (hsame₁.client.trans hsame₀.client)
  have hnoplace : ¬ (g₀.type = -1 ∧ control.opcode.toNat = frameCont ∨
      g₀.type ≠ -1 ∧ isControlFrame control.opcode.toNat = false ∧ control.opcode.toNat ≠ frameCont) := by
    rw [hcontrol]
    rintro (⟨-, hzero⟩ | ⟨-, hdata, -⟩)
    · exact hcont hzero
    · exact Bool.false_ne_true hdata.symm
  have hopen : ¬ (g₀.client.state = .closing ∧ control.opcode.toNat ≠ frameClose) := by
    rw [hsame₀.client]
    exact fun hboth => hstate hboth.1
  have hnodata : ¬ (control.opcode.toNat ≠ frameCont ∧ isControlFrame control.opcode.toNat = false) := by
    rw [hcontrol]
    exact fun hboth => Bool.false_ne_true hboth.2.symm
  have hcode : (128 ||| UInt8.ofNat (Width.short.code control.frame.payload.length)).toNat &&& 0x7F =
      control.frame.payload.length := codeByte_spec (code_le hfits)
  have hshort : ¬ (isControlFrame control.opcode.toNat = true ∧
      (¬ (firstByte true control.opcode).toNat >>> 7 ≠ 0 ∨ control.frame.payload.length > 125)) := by
    rintro ⟨-, hnotfin | hlong⟩
    · exact hnotfin hfin
    · exact absurd hsize (Nat.not_le.mpr hlong)
  have hnotdata : ¬ isControlFrame control.opcode.toNat = false := by
    rw [hcontrol]
    exact fun hdata => Bool.false_ne_true hdata.symm
  rw [hcode, List.nil_append, Nat.zero_add] at hread
  refine ⟨{ g with client := answer frame.client control }, ?_, hrest, ?_, ?_, ?_, rfl, ?_⟩
  · rw [nextFrameLoop, h₀]
    dsimp only [bind, Except.bind]
    rw [hop, if_neg (not_not.mpr hrsv), if_neg hnoplace, if_pos (.inr (.inr (.inr hcontrol))), if_neg hopen,
      if_neg hnodata, h₁]
    dsimp only
    rw [hcode, if_neg hshort, if_neg hnotdata, hread]
    dsimp only
    rw [hclient]
    cases control with
    | ping f =>
      have hping : (Control.ping f).opcode.toNat = framePing := rfl
      rw [hping, if_neg (by decide), if_pos rfl, wsSendframe, if_pos honline]
      dsimp only
      rw [if_neg (by decide)]
      rfl
    | pong f =>
      have hpong : (Control.pong f).opcode.toNat = framePong := rfl
      rw [hpong, if_pos rfl]
      rfl
  · exact hsame.size.trans (hsame₁.size.trans hsame₀.size)
  · exact hsame.type.trans (hsame₁.type.trans hsame₀.type)
  · exact hsame.error.trans (hsame₁.error.trans hsame₀.error)
  · rw [← hrest, ← hsame₀.place, ← hsame₁.place]
    exact hsame.place

/-- A reader that has answered control frames, and knows the rest as before. -/
structure Frame.Answered (controls : List Control) (f g : Frame) : Prop where
  place : g.curPos + g.rest.length = f.curPos + f.rest.length
  type : g.type = f.type
  size : g.size = f.size
  error : g.error = f.error
  client : g.client = answers f.client controls

/-- Any number of control frames. -/
theorem nextFrameLoop_controls {controls : List Control} {rounds k : Nat}
    (hrounds : controls.length + k ≤ rounds) (data : Bytes)
    (hstate : frame.client.state ≠ .closing) (honline : controls ≠ [] → frame.client.online = true)
    (hsize : ∀ c ∈ controls, c.frame.payload.length ≤ 124) (h : frame.rest = controls.flatMap Control.encode ++ cs) :
    ∃ rounds' g, k ≤ rounds' ∧ nextFrameLoop rounds data frame = nextFrameLoop rounds' data g ∧ g.rest = cs ∧
      frame.Answered controls g := by
  induction controls generalizing frame rounds with
  | nil =>
    rw [List.length_nil, Nat.zero_add] at hrounds
    exact ⟨rounds, frame, hrounds, rfl, h, rfl, rfl, rfl, rfl, rfl⟩
  | cons control controls ih =>
    rw [List.length_cons] at hrounds
    have honline := honline (List.cons_ne_nil control controls)
    obtain ⟨rounds, rfl⟩ : ∃ n, rounds = n + 1 := ⟨rounds - 1, by omega⟩
    rw [List.flatMap_cons, List.append_assoc] at h
    obtain ⟨g, hread, hrest, hgsize, hgtype, hgerror, hgclient, hplace⟩ :=
      nextFrameLoop_control rounds data hstate honline
        ((hsize control List.mem_cons_self).trans (Nat.le_succ 124)) h
    obtain ⟨hgstate, hgonline, -⟩ := answer_spec frame.client control
    rw [← hgclient] at hgstate hgonline
    obtain ⟨rounds', g', hk, hread', hrest', hanswered⟩ := ih
      (Nat.le_of_succ_le_succ (Nat.add_right_comm _ 1 k ▸ hrounds)) (hgstate ▸ hstate)
      (fun _ => hgonline ▸ honline) (fun c hc => hsize c (List.mem_cons_of_mem control hc)) hrest
    refine ⟨rounds', g', hk, hread.trans hread', hrest', ?_⟩
    rw [← hrest] at hplace
    exact
      { place := hanswered.place.trans hplace
        type := hanswered.type.trans hgtype
        size := hanswered.size.trans hgsize
        error := hanswered.error.trans hgerror
        client := by
          rw [hanswered.client, hgclient]
          rfl }

/-- A reader behind some parts of a message. -/
structure Frame.Collected (opcode : UInt8) (parts : List Part) (f g : Frame) : Prop where
  place : g.curPos + g.rest.length = f.curPos + f.rest.length
  type : g.type = if opcode = 0 then f.type else opcode.toNat
  size : g.size = f.size + (partsPayload parts).length
  error : g.error = f.error
  client : g.client = answers f.client (partsControls parts)

/-- One part: its control frames are answered, and its payload goes behind the data so far. -/
theorem nextFrameLoop_part {opcode : UInt8} {fin : Bool} {p : Part} {rounds k : Nat}
    (hrounds : p.controls.length + (k + 1) ≤ rounds) (data : Bytes)
    (hopcode : DataOpcode opcode) (htype : frame.type = -1 ↔ opcode ≠ 0) (hstate : frame.client.state ≠ .closing)
    (honline : p.controls ≠ [] → frame.client.online = true) (hp : p.Valid)
    (hsize : frame.size + p.fragment.payload.length ≤ maxFrameLength)
    (h : frame.rest = p.controls.flatMap Control.encode ++ maskedAs p.width fin opcode p.fragment ++ cs) :
    ∃ rounds' g, k ≤ rounds' ∧ nextFrameLoop rounds data frame =
        (if fin then .ok (0, { g with message := data ++ p.fragment.payload })
          else nextFrameLoop rounds' (data ++ p.fragment.payload) g) ∧
      g.rest = cs ∧ frame.Collected opcode [p] g := by
  rw [List.append_assoc] at h
  obtain ⟨rounds', f, hk, hread, hrest, hanswered⟩ :=
    nextFrameLoop_controls hrounds data hstate honline hp.controls h
  obtain ⟨rounds', rfl⟩ : ∃ n, rounds' = n + 1 := ⟨rounds' - 1, by omega⟩
  obtain ⟨hfstate, hfonline, -⟩ := answers_spec frame.client p.controls
  rw [← hanswered.client] at hfstate hfonline
  have hftype : f.type = -1 ↔ opcode ≠ 0 := by rwa [hanswered.type]
  have hfsize : f.size + p.fragment.payload.length ≤ maxFrameLength := by rwa [hanswered.size]
  obtain ⟨g, hread', hrest', hgsize, hgtype, hgerror, hgclient, hplace⟩ :=
    nextFrameLoop_data rounds' data hopcode hftype (hfstate ▸ hstate) hfsize (announces_width hp.fits) hrest
  refine ⟨rounds', g, Nat.le_of_succ_le_succ hk, hread.trans hread', hrest', ?_⟩
  rw [← hrest'] at hplace
  exact
    { place := hplace.trans hanswered.place
      type := by rw [hgtype, hanswered.type]
      size := by rw [hgsize, hanswered.size, partsPayload_singleton]
      error := hgerror.trans hanswered.error
      client := by rw [hgclient, hanswered.client, partsControls_singleton] }

theorem Frame.Collected.append {opcode : UInt8} {ps qs : List Part} {f g h : Frame} (hf : f.Collected opcode ps g)
    (hg : g.Collected 0 qs h) : f.Collected opcode (ps ++ qs) h where
  place := hg.place.trans hf.place
  type := hg.type.trans ((if_pos rfl).trans hf.type)
  size := by
    rw [hg.size, hf.size, partsPayload, partsPayload, partsPayload, List.flatMap_append, List.length_append,
      Nat.add_assoc]
  error := hg.error.trans hf.error
  client := by
    rw [hg.client, hf.client, partsControls, partsControls, partsControls, List.flatMap_append]
    exact (List.foldl_append ..).symm

/-- The parts of a message are read up to the last one. -/
theorem nextFrameLoop_parts {opcode : UInt8} {parts : List Part} (hne : parts ≠ []) {rounds : Nat}
    (hrounds : (partsControls parts).length + parts.length ≤ rounds) (data : Bytes) (hopcode : DataOpcode opcode)
    (htype : frame.type = -1 ↔ opcode ≠ 0) (hstate : frame.client.state ≠ .closing)
    (honline : partsControls parts ≠ [] → frame.client.online = true) (hvalid : ∀ p ∈ parts, p.Valid)
    (hsize : frame.size + (partsPayload parts).length ≤ maxFrameLength)
    (h : frame.rest = partsBytes opcode parts ++ cs) :
    ∃ g : Frame, nextFrameLoop rounds data frame = .ok (0, { g with message := data ++ partsPayload parts }) ∧
      g.rest = cs ∧ frame.Collected opcode parts g := by
  induction parts generalizing opcode frame rounds data with
  | nil => exact absurd rfl hne
  | cons p ps ih =>
    rw [partsPayload_cons, List.length_append] at hsize
    rw [partsControls_cons, List.length_append, List.length_cons] at hrounds
    rw [partsControls_cons] at honline
    rw [partsBytes, List.append_assoc] at h
    have hprounds : p.controls.length + ((partsControls ps).length + ps.length + 1) ≤ rounds := by omega
    obtain ⟨rounds', f, hk, hread, hrest, hcollected⟩ :=
      nextFrameLoop_part hprounds data hopcode htype hstate
        (fun hsome => honline fun hnil => hsome (List.append_eq_nil_iff.mp hnil).1) (hvalid p List.mem_cons_self)
        (by omega) h
    cases ps with
    | nil =>
      refine ⟨f, hread.trans ?_, hrest, hcollected⟩
      rw [partsPayload_singleton]
      rfl
    | cons p' ps' =>
      have hstarted : f.type ≠ -1 := by
        rw [hcollected.type]
        exact type_ne htype
      obtain ⟨hfstate, hfonline, -⟩ := answers_spec frame.client (partsControls [p])
      rw [← hcollected.client] at hfstate hfonline
      have hfsize : f.size + (partsPayload (p' :: ps')).length ≤ maxFrameLength := by
        rw [hcollected.size, partsPayload_singleton]
        omega
      obtain ⟨g, hread', hrest', hcollected'⟩ :=
        ih (List.cons_ne_nil p' ps') hk (data ++ p.fragment.payload) .cont
          (iff_of_false hstarted (not_not.mpr rfl)) (hfstate ▸ hstate)
          (fun hsome => hfonline ▸ honline fun hnil => hsome (List.append_eq_nil_iff.mp hnil).2)
          (fun q hq => hvalid q (List.mem_cons_of_mem p hq)) hfsize hrest
      refine ⟨g, hread.trans ?_, hrest', hcollected.append hcollected'⟩
      rw [List.isEmpty_cons, if_neg Bool.false_ne_true, hread', partsPayload_cons p, List.append_assoc]

theorem length_rest_le (frame : Frame) : frame.rest.length ≤ frame.request.length := by
  unfold Frame.rest
  rw [List.length_drop]
  exact Nat.sub_le _ _

theorem opcode_ne_zero (kind : Kind) : kind.opcode ≠ 0 := by cases kind <;> decide

theorem start_size {n : Nat} (h : n ≤ maxFrameLength) : frame.start.size + n ≤ maxFrameLength :=
  (Nat.zero_add n).trans_le h

/-- A message in fragments comes out whole, whatever their masks and the widths of their lengths, and the
pings between them are answered in order. -/
theorem nextFrame_reassembles {kind : Kind} {parts : List Part} (hne : parts ≠ []) (hvalid : ∀ p ∈ parts, p.Valid)
    (hsize : (partsPayload parts).length ≤ maxFrameLength) (hstate : frame.client.state ≠ .closing)
    (honline : frame.client.online = true) (herror : frame.error = false)
    (h : frame.rest = partsBytes kind.opcode parts ++ cs) :
    ∃ g, nextFrame frame = .ok (0, g) ∧ g.error = false ∧ g.message = partsPayload parts ∧
      g.size = (partsPayload parts).length ∧ g.type = kind.opcode.toNat ∧
      g.curPos = frame.curPos + (partsBytes kind.opcode parts).length ∧
      g.client.sent = frame.client.sent ++
        ((partsControls parts).filterMap Control.asks).map fun payload => wsFrame payload framePong := by
  have hstart : frame.start.rest = partsBytes kind.opcode parts ++ cs := h
  have htype : frame.start.type = -1 ↔ kind.opcode ≠ 0 := iff_of_true rfl (opcode_ne_zero kind)
  have hrounds : (partsControls parts).length + parts.length ≤ frame.request.length + 1 := by
    have hframes := length_parts_le kind.opcode parts
    have hbytes := length_rest_le frame
    rw [h, List.length_append] at hbytes
    omega
  obtain ⟨g, hread, hrest, hcollected⟩ := nextFrameLoop_parts hne hrounds [] (.kind kind) htype hstate
    (fun _ => honline) hvalid (start_size hsize) hstart
  have hplace := hcollected.place
  rw [hrest, hstart, List.length_append] at hplace
  refine ⟨_, hread, hcollected.error.trans herror, List.nil_append _, hcollected.size.trans (Nat.zero_add _), ?_, ?_, ?_⟩
  · exact hcollected.type.trans (if_neg (opcode_ne_zero kind))
  · have hfrom : frame.start.curPos = frame.curPos := rfl
    change g.curPos = _
    omega
  · rw [hcollected.client]
    exact (answers_spec frame.client (partsControls parts)).2.2

/-- Two fragments with a ping between them. -/
def pinged : List Part :=
  [⟨[], .short, ⟨![1, 2, 3, 4], [104]⟩⟩, ⟨[.ping ⟨![5, 6, 7, 8], [9]⟩], .middle, ⟨![1, 0, 0, 0], [105]⟩⟩]

theorem nextFrame_reassembles_pinged :
    ∃ g, nextFrame { request := partsBytes Kind.text.opcode pinged, received := 0, client := { request := [] } } =
        .ok (0, g) ∧
      g.error = false ∧ g.message = [104, 105] ∧ g.size = 2 ∧ g.type = 1 ∧ g.curPos = 23 ∧
      g.client.sent = [wsFrame [9] framePong] := by
  have hvalid : ∀ p ∈ pinged, p.Valid := by
    intro p hp
    rcases List.mem_pair.mp hp with rfl | rfl
    · exact ⟨by decide, by decide⟩
    · refine ⟨by decide, fun c hc => ?_⟩
      obtain rfl := List.mem_singleton.mp hc
      decide
  have hne : pinged ≠ [] := List.cons_ne_nil _ _
  exact @nextFrame_reassembles
    { request := partsBytes Kind.text.opcode pinged, received := 0, client := { request := [] } } [] .text pinged hne
    hvalid (by decide) (by decide) rfl rfl (List.append_nil _).symm

end Jericho.WebSocket
