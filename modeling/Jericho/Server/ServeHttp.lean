import Jericho.Server.FetchDecoding

/-! `resource::serve_http` and what `fetch` reads of it: a header section that announces its length, and a body
that may be too long for the buffer of `fetch`. -/
namespace Jericho.Server
open StdText TextLines

/-- The status line and the headers of `serve_http`. -/
def httpLines (length : Nat) (type : Bytes) : List Bytes :=
  [lit "HTTP/1.1 200 OK", lit "Connection: close", lit "Content-Length: " ++ decimal length,
    lit "Content-Type: " ++ cstr type, lit "Access-Control-Allow-Origin: *",
    lit "Access-Control-Allow-Methods: GET, POST, OPTIONS", lit "Access-Control-Allow-Headers: Content-Type",
    lit "Access-Control-Max-Age: 86400", lit "Jericho: true"]

/-- `resource::serve_http`, one text for each `SSL_write`. -/
def serveHttp (content type : Bytes) : List Bytes :=
  (httpLines content.length type).map (· ++ crlf) ++ [crlf, content]

/-- The pieces that `SSL_read` can give of some bytes: none is empty, and nothing more fits into a full buffer. -/
structure Reads (bytes : Bytes) (cuts : List Bytes) : Prop where
  nonempty : ∀ piece ∈ cuts, piece ≠ []
  flatten_eq : cuts.flatten = bytes.take responseSize

/-- What the loop leaves in `result`, also when the connection is closed while it waits. -/
def Progress.text : Progress → Bytes
  | .running s => s.result
  | .waiting s => s.result
  | .ended result => result
  | .full result => result

/-- `result` behind the loop. -/
def fetched (cuts : List Bytes) : Exec Bytes := (ReadLoop.run {} cuts).map Progress.text

/-- A header section in which the loop finds a length. -/
structure Announces (head : Bytes) (length : Nat) : Prop where
  zero_notMem : (0 : Byte) ∉ head
  blank : ∀ rest, Occurrence.find crlf2 (head ++ crlf2 ++ rest) = some head.length
  announce_eq : ∀ s : ReadLoop, s.announce head = { s with encoding := .length, remaining := length }

/-- The loop while it waits, behind a header section that announces a length. -/
def waitingAt (head : Bytes) (length : Nat) (received : Bytes) : ReadLoop :=
  if received.length < head.length + 4 then { memory := received }
  else { memory := received.set head.length 0, body := some (head.length + 4), encoding := .length
         remaining := length }

variable {head content received : Bytes} {length : Nat}

theorem waitingAt_result (head : Bytes) (length : Nat) (received : Bytes) :
    (waitingAt head length received).result = [] := by
  unfold waitingAt
  split_ifs <;> rfl

theorem waitingAt_length (head : Bytes) (length : Nat) (received : Bytes) :
    (waitingAt head length received).memory.length = received.length := by
  unfold waitingAt
  split_ifs
  · rfl
  · exact List.length_set

theorem length_announced (head rest : Bytes) : (head ++ crlf2 ++ rest).length = head.length + 4 + rest.length := by
  rw [List.length_append, List.length_append]
  rfl

/-- Before the blank line is complete it is not found. -/
theorem findBody_before (h : Announces head length) {rest : Bytes} (hpre : received <+: head ++ crlf2 ++ rest)
    (hshort : received.length < head.length + 4) :
    ReadLoop.findBody { memory := received } = { memory := received } := by
  have hnone : Occurrence.find crlf2 (cstr received) = none := by
    by_contra hfound
    obtain ⟨n, hfind⟩ := Option.ne_none_iff_exists'.mp hfound
    obtain ⟨t, ht⟩ := (cstr_isPrefix received).trans hpre
    have hsame : Occurrence.find crlf2 (head ++ crlf2 ++ rest) = some n := by
      rw [← ht]
      exact Occurrence.find_append_of_find hfind t
    have hn : head.length = n := Option.some.inj ((h.blank rest).symm.trans hsame)
    have hle := Occurrence.find_le hfind
    have hcut := cstr_length_le received
    have hfour : crlf2.length = 4 := rfl
    omega
  unfold ReadLoop.findBody
  dsimp only
  rw [hnone]
  rfl

/-- Once it is complete the body starts behind it. -/
theorem findBody_behind (h : Announces head length) (payload : Bytes) :
    ReadLoop.findBody { memory := head ++ crlf2 ++ payload } = waitingAt head length (head ++ crlf2 ++ payload) := by
  have hzero : (0 : Byte) ∉ head ++ crlf2 := by
    rw [List.mem_append, not_or]
    exact ⟨h.zero_notMem, by decide⟩
  have hcstr : cstr (head ++ crlf2 ++ payload) = head ++ crlf2 ++ cstr payload := cstr_append hzero payload
  have hlong : ¬ (head ++ crlf2 ++ payload).length < head.length + 4 := by
    rw [length_announced]
    omega
  unfold ReadLoop.findBody waitingAt
  dsimp only
  rw [hcstr, h.blank, if_neg hlong]
  dsimp only
  rw [List.append_assoc, List.append_assoc, List.take_left, h.announce_eq]
  rfl

/-- What the loop knows of a prefix of the response does not depend on how it came. -/
theorem findBody_waitingAt (h : Announces head length) {rest piece : Bytes}
    (hpre : received ++ piece <+: head ++ crlf2 ++ rest) :
    ReadLoop.findBody { waitingAt head length received with
        memory := (waitingAt head length received).memory ++ piece } =
      waitingAt head length (received ++ piece) := by
  by_cases hearly : received.length < head.length + 4
  · have hstate : waitingAt head length received = { memory := received } := if_pos hearly
    rw [hstate]
    by_cases hlater : (received ++ piece).length < head.length + 4
    · rw [findBody_before h hpre hlater]
      exact (if_pos hlater).symm
    · have hsection : head ++ crlf2 <+: received ++ piece := by
        refine List.prefix_of_prefix_length_le (List.prefix_append _ rest) hpre ?_
        have hfour : (head ++ crlf2).length = head.length + 4 := List.length_append
        omega
      obtain ⟨payload, hpayload⟩ := hsection
      rw [← hpayload]
      exact findBody_behind h payload
  · have hlater : ¬ (received ++ piece).length < head.length + 4 := by
      rw [List.length_append]
      omega
    have hset : received.set head.length 0 ++ piece = (received ++ piece).set head.length 0 :=
      (List.set_append_left _ _ (by omega)).symm
    unfold waitingAt
    rw [if_neg hearly, if_neg hlater, ← hset]
    rfl

/-- The loop ends with the last byte of the body, and waits before. -/
theorem takeBody_waitingAt (hpre : received <+: head ++ crlf2 ++ content) :
    (waitingAt head content.length received).takeBody =
      if received = head ++ crlf2 ++ content then .ok (.ended (cstr content))
      else .ok (.waiting (waitingAt head content.length received)) := by
  have htotal := length_announced head content
  by_cases hearly : received.length < head.length + 4
  · have hstate : waitingAt head content.length received = { memory := received } := if_pos hearly
    have hpart : received ≠ head ++ crlf2 ++ content := by
      rintro rfl
      omega
    rw [if_neg hpart, hstate]
    rfl
  · have hbehind : ((head.length : Int) + 4).toNat = head.length + 4 := by omega
    have hdrop : (received.set head.length 0).drop (head.length + 4) = received.drop (head.length + 4) :=
      List.drop_set_of_lt (by omega)
    unfold waitingAt
    rw [if_neg hearly]
    unfold ReadLoop.takeBody ReadLoop.room ReadLoop.textAt
    dsimp only
    rw [List.length_set, hbehind, hdrop]
    by_cases hall : received = head ++ crlf2 ++ content
    · have hbody : received.drop (head.length + 4) = content := by
        rw [hall]
        exact List.drop_left' List.length_append
      have hlength : received.length = head.length + 4 + content.length := by rw [hall, htotal]
      rw [if_pos (by omega), if_pos (by omega), if_pos hall, hbody]
      rfl
    · have hless : received.length < (head ++ crlf2 ++ content).length :=
        Nat.lt_of_le_of_ne hpre.length_le fun heq => hall (hpre.eq_of_length heq)
      rw [if_neg (by omega), if_neg hall]

/-- One `SSL_read`. -/
theorem receive_waitingAt (h : Announces head content.length) {piece : Bytes}
    (hpre : received ++ piece <+: head ++ crlf2 ++ content) :
    (waitingAt head content.length received).receive piece =
      if received ++ piece = head ++ crlf2 ++ content then .ok (.ended (cstr content))
      else .ok (.waiting (waitingAt head content.length (received ++ piece))) := by
  rw [← takeBody_waitingAt hpre]
  exact congrArg ReadLoop.takeBody (findBody_waitingAt h hpre)

/-- The loop from a prefix on. A response that fits into the buffer is read to its end, any other fills it. -/
theorem run_waitingAt (h : Announces head content.length) (cuts : List Bytes) {received : Bytes}
    (hcuts : received ++ cuts.flatten = (head ++ crlf2 ++ content).take responseSize)
    (hpieces : ∀ piece ∈ cuts, piece ≠ []) (hpart : received ≠ head ++ crlf2 ++ content) :
    ((waitingAt head content.length received).run cuts).map Progress.text =
      .ok (if (head ++ crlf2 ++ content).length ≤ responseSize then cstr content else []) := by
  induction cuts generalizing received with
  | nil =>
    have hfull : ¬ (head ++ crlf2 ++ content).length ≤ responseSize := by
      intro hfits
      rw [List.take_of_length_le hfits] at hcuts
      exact hpart ((List.append_nil received).symm.trans hcuts)
    rw [if_neg hfull]
    exact congrArg Except.ok (waitingAt_result head content.length received)
  | cons piece rest ih =>
    have hnext : received ++ piece ++ rest.flatten = (head ++ crlf2 ++ content).take responseSize := by
      rw [← hcuts, List.flatten_cons, List.append_assoc]
    have htake : received ++ piece <+: (head ++ crlf2 ++ content).take responseSize := ⟨rest.flatten, hnext⟩
    have hpre : received ++ piece <+: head ++ crlf2 ++ content := htake.trans (List.take_prefix _ _)
    have hle : (received ++ piece).length ≤ responseSize := htake.length_le.trans (List.length_take_le _ _)
    have hroom : (waitingAt head content.length received).memory.length ≠ responseSize := by
      have hpos := List.length_pos_iff.mpr (hpieces piece List.mem_cons_self)
      rw [waitingAt_length]
      rw [List.length_append] at hle
      omega
    unfold ReadLoop.run
    rw [if_neg hroom, receive_waitingAt h hpre]
    by_cases hall : received ++ piece = head ++ crlf2 ++ content
    · rw [if_pos hall, if_pos (hall ▸ hle)]
      rfl
    · rw [if_neg hall]
      exact ih hnext (fun other hother => hpieces other (List.mem_cons_of_mem piece hother)) hall

/-- A response with an announced length is read up to its first NUL if all of it fits into the buffer, and otherwise
not at all, in whatever pieces it comes. -/
theorem fetched_announced (h : Announces head content.length) {cuts : List Bytes}
    (hreads : Reads (head ++ crlf2 ++ content) cuts) :
    fetched cuts = .ok (if (head ++ crlf2 ++ content).length ≤ responseSize then cstr content else []) := by
  have hfirst : waitingAt head content.length [] = {} := if_pos (by simp)
  have hpart : ([] : Bytes) ≠ head ++ crlf2 ++ content := by
    intro heq
    have hlength := length_announced head content
    rw [← heq, List.length_nil] at hlength
    omega
  unfold fetched
  rw [← hfirst]
  exact run_waitingAt h cuts hreads.flatten_eq hreads.nonempty hpart

def httpHead (length : Nat) (type : Bytes) : Bytes := text 13 10 (httpLines length type)

/-- The section line by line. -/
theorem flatMap_httpLines (length : Nat) (type : Bytes) :
    (httpLines length type).flatMap (· ++ crlf) = httpHead length type ++ crlf := by
  simp [httpHead, httpLines, text_cons_cons, text_singleton, crlf]

theorem flatten_serveHttp (content type : Bytes) :
    (serveHttp content type).flatten = httpHead content.length type ++ crlf2 ++ content := by
  have hlines := flatMap_httpLines content.length type
  rw [serveHttp, List.flatten_append, ← List.flatMap_def, hlines]
  simp [crlf2]

theorem httpLines_plain {type : Bytes} (htype : Plain type) :
    ∀ line ∈ httpLines length type, line ≠ [] ∧ Plain line := by
  have hlength : Plain (lit "Content-Length: " ++ decimal length) := Plain.append (by decide) (plain_decimal length)
  have hcontent : Plain (lit "Content-Type: " ++ cstr type) := by
    rw [htype.cstr]
    exact Plain.append (by decide) htype
  intro line hline
  simp only [httpLines, List.mem_cons, List.not_mem_nil, or_false] at hline
  rcases hline with rfl | rfl | rfl | rfl | rfl | rfl | rfl | rfl | rfl
  · exact ⟨by decide, by decide⟩
  · exact ⟨by decide, by decide⟩
  · exact ⟨List.append_ne_nil_of_left_ne_nil (by decide) _, hlength⟩
  · exact ⟨List.append_ne_nil_of_left_ne_nil (by decide) _, hcontent⟩
  all_goals exact ⟨by decide, by decide⟩

/-- The section as it is searched for the length. -/
theorem httpHead_split (length : Nat) (type : Bytes) :
    ∃ rest, httpHead length type =
      lit "HTTP/1.1 200 OK\r\nConnection: close\r\nContent-Length: " ++ (decimal length ++ rest) ∧
      rest.head? = some 13 := by
  refine ⟨13 :: 10 :: text 13 10 ((httpLines length type).drop 3), ?_, rfl⟩
  have hfront : lit "HTTP/1.1 200 OK\r\nConnection: close\r\nContent-Length: " =
      lit "HTTP/1.1 200 OK" ++ 13 :: 10 :: (lit "Connection: close" ++ 13 :: 10 :: lit "Content-Length: ") := by decide
  rw [hfront, httpHead, httpLines, text_cons_cons, text_cons_cons, text_cons_cons]
  simp

theorem zero_notMem_httpHead {type : Bytes} (htype : Plain type) : (0 : Byte) ∉ httpHead length type := by
  intro hmem
  have hlines : (0 : Byte) ∈ (httpLines length type).flatMap (· ++ crlf) := by
    rw [flatMap_httpLines]
    exact List.mem_append_left crlf hmem
  obtain ⟨line, hline, hzero⟩ := List.mem_flatMap.mp hlines
  rcases List.mem_append.mp hzero with hzero | hzero
  · exact ((httpLines_plain htype line hline).2 0 hzero).2.2 rfl
  · revert hzero
    decide

theorem announces_httpHead {type : Bytes} (htype : Plain type) (hlength : length < 2 ^ 31) :
    Announces (httpHead length type) length where
  zero_notMem := zero_notMem_httpHead htype
  blank := find_blank (by decide) fun line hline =>
    ⟨(httpLines_plain htype line hline).1, (httpLines_plain htype line hline).2.notMem_cr⟩
  announce_eq s := by
    obtain ⟨rest, hsplit, hrest⟩ := httpHead_split length type
    have hfind : Occurrence.find (lit "\nContent-Length: ") (httpHead length type) = some 35 := by
      rw [hsplit]
      exact Occurrence.find_append_of_find (by decide) _
    have hdrop : (httpHead length type).drop 35 = 10 :: (lit "Content-Length: " ++ (decimal length ++ rest)) := by
      rw [hsplit]
      rfl
    unfold ReadLoop.announce
    rw [hfind]
    dsimp only
    rw [hdrop, contentLength_value, strtol_decimal hlength (.inr hrest), asInt_small hlength]

/-- What `serve_http` writes is read as it was if it fits. -/
theorem fetched_serveHttp {type : Bytes} (htype : Plain type) (hlength : content.length < 2 ^ 31) {cuts : List Bytes}
    (hreads : Reads (serveHttp content type).flatten cuts) :
    fetched cuts = .ok (if (serveHttp content type).flatten.length ≤ responseSize then cstr content else []) := by
  rw [flatten_serveHttp] at hreads ⊢
  exact fetched_announced (announces_httpHead htype hlength) hreads

end Jericho.Server
