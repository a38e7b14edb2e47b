import Jericho.Message.MessageBuffer
import Jericho.Server.Request

/-! `send_request`: the bytes one node writes to another. -/
namespace Jericho.Server
open StdText Util Message Crypt

/-- `char buffer[490000]` on the stack of `send_request`, not initialised. -/
structure StackBuffer where
  bytes : Bytes
  size : bytes.length = 490000

variable (bio : Base64Filter)

/-- The protocol word of the request line; another protocol leaves the buffer unwritten. -/
def protocolWord (protocol : Bytes) : Exec Bytes :=
  if protocol = lit "https" then .ok (lit "HTTP/1.1")
  else if protocol = lit "job" then .ok (lit "JOB")
  else .error .undefined

/-- The headers written for every message, before its own. -/
def fixedHeaders (hostname port : Bytes) (buf : MessageBuffer) : List Field :=
  [⟨lit "Host", cstr hostname ++ lit ":" ++ cstr port⟩, ⟨lit "Connection", lit "keep-alive"⟩,
    ⟨lit "User-Agent", lit "honpwc https_get 1.0"⟩, ⟨lit "Jericho", lit "true"⟩] ++
  if buf.type = lit "bin" then
    [⟨lit "Content-Type", lit "application/octet-stream"⟩,
      ⟨lit "Content-Size", decimal buf.sent.length⟩, ⟨lit "Content-Encoding", lit "base64"⟩]
  else [⟨lit "Content-Size", decimal buf.sent.length⟩]

/-- `"%s: %s\r\n"` -/
def headerText (h : Field) : Bytes := cstr h.1 ++ lit ": " ++ cstr h.2 ++ crlf

/-- Everything up to the blank line. -/
def requestHead (hostname port path : Bytes) (buf : MessageBuffer) : Exec Bytes := do
  let word ← protocolWord buf.protocol
  return lit "GET " ++ cstr path ++ lit " " ++ word ++ crlf ++
    (fixedHeaders hostname port buf).flatMap headerText ++ buf.headers.entries.flatMap headerText ++ crlf

/-- `send_request` up to the blank line. Its loops count the content in an `int`, and a section that leaves no room for
its NUL overruns the buffer. -/
def headerSection (hostname port path : Bytes) (buf : MessageBuffer) : Exec Bytes :=
  if inInt buf.sent.length then do
    let head ← requestHead hostname port path buf
    if head.length < 490000 then .ok head else .error .undefined
  else .error .undefined

/-- The bytes handed to `SSL_write`: the whole buffer for a binary message, the text up to
its NUL otherwise. The content is the format string of its own `sprintf`, and a text that does not fit overruns the
buffer. -/
def sendRequest (buffer : StackBuffer) (hostname port path : Bytes) (buf : MessageBuffer) : Exec Bytes := do
  let head ← headerSection hostname port path buf
  let body ← formatPlain (cstr (if buf.type = lit "bin" then encodeUrl bio buf.sent else buf.sent))
  let text := head ++ body
  if buffer.bytes.length ≤ text.length then .error .undefined
  else if buf.type = lit "bin" then .ok (text ++ 0 :: buffer.bytes.drop (text.length + 1))
  else .ok text

theorem headerSection_eq_ok {hostname port path head : Bytes} {buf : MessageBuffer} :
    headerSection hostname port path buf = .ok head ↔
      inInt buf.sent.length ∧ requestHead hostname port path buf = .ok head ∧ head.length < 490000 := by
  unfold headerSection
  split_ifs with hint
  · rw [bind_eq_ok]
    constructor
    · rintro ⟨head', hhead, h⟩
      split_ifs at h with hlt
      obtain rfl := Except.ok.inj h
      exact ⟨hint, hhead, hlt⟩
    · rintro ⟨-, hhead, hlt⟩
      exact ⟨head, hhead, if_pos hlt⟩
  · exact iff_of_false (fun h => nomatch h) fun h => hint h.1

/-- The header section is the text of the headers if that fits. -/
theorem exists_headerSection {hostname port path head : Bytes} {buf : MessageBuffer}
    (hhead : requestHead hostname port path buf = .ok head) (hsize : inInt buf.sent.length) {P : Bytes → Prop} :
    (∃ text, headerSection hostname port path buf = .ok text ∧ P text) ↔ head.length < 490000 ∧ P head := by
  constructor
  · rintro ⟨text, htext, hp⟩
    obtain ⟨-, hsame, hlt⟩ := headerSection_eq_ok.mp htext
    obtain rfl := Except.ok.inj (hhead.symm.trans hsame)
    exact ⟨hlt, hp⟩
  · rintro ⟨hlt, hp⟩
    exact ⟨head, headerSection_eq_ok.mpr ⟨hsize, hhead, hlt⟩, hp⟩

/-- A header is written as a whole. -/
theorem length_le_requestHead {hostname port path head : Bytes} {buf : MessageBuffer}
    (hhead : requestHead hostname port path buf = .ok head) {f : Field} (hf : f ∈ buf.headers.entries) :
    (cstr f.2).length ≤ head.length := by
  obtain ⟨word, -, hhead⟩ := bind_eq_ok.mp hhead
  rw [← Except.ok.inj hhead]
  have hvalue : (cstr f.2).length ≤ (headerText f).length := by
    unfold headerText
    simp only [List.length_append]
    omega
  have hline : (headerText f).length ≤ (buf.headers.entries.flatMap headerText).length := by
    rw [List.length_flatMap]
    exact List.le_sum_of_mem (List.mem_map_of_mem hf)
  simp only [List.length_append]
  omega

end Jericho.Server
