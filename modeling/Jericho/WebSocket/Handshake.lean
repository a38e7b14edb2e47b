import Jericho.Crypt.LineBase64
import Jericho.Crypt.Sha1
import Jericho.Library.Occurrence
import Jericho.Library.Strtok

/-! `handshake`: the answer to an upgrade request, made from the key that is found in it. -/
namespace Jericho.WebSocket
open StdText Crypt

def wsHeader : Bytes :=
  lit "HTTP/1.1 101 Switching Protocols\r\nUpgrade: websocket\r\nConnection: Upgrade\r\nSec-WebSocket-Accept: "
def keyLen : Nat := 24
def magicString : Bytes := lit "258EAFA5-E914-47DA-95CA-C5AB0DC85B11"
def plainLen : Nat := keyLen + 36
def wsRequest : Bytes := lit "Sec-WebSocket-Key"
def acceptLen : Nat := 130

/-- The characters that `handshake` cuts lines at, and those it cuts words at. -/
def lineBreak (c : Byte) : Bool := c = 13 || c = 10
def blank (c : Byte) : Bool := c = 32

/-- The text that is hashed: `KEY_LEN` characters of the key at most and the magic string, in a zeroed buffer. -/
def plainKey (wsKey : Bytes) : Bytes :=
  let str := wsKey.take keyLen ++ magicString
  str ++ List.replicate (plainLen - str.length) 0

/-- `handshake_key`: what it writes to `dest`, or nothing if it returns a negative number. -/
def handshakeKey : Option Bytes → Option Bytes
  | none => none
  | some wsKey => some (base64Encode (sha1 (plainKey wsKey))).dropLast

/-- `handshake`: the number it returns and the response. A response that does not fit overruns its buffer. -/
def handshake (hsrequest : Bytes) : Exec (Int × Option Bytes) :=
  match (Strtok.tokens lineBreak (cstr hsrequest)).find? fun s => (Occurrence.find wsRequest s).isSome with
  | none => .ok (-1, none)
  | some s =>
    match handshakeKey (Strtok.tokens blank s)[1]? with
    | none => .ok (-1, none)
    | some accept =>
      let hsresponse := wsHeader ++ (accept ++ lit "\r\n\r\n")
      if acceptLen ≤ hsresponse.length then .error .undefined else .ok (0, some hsresponse)

/-- An upgrade request: its first line, its header lines, and what follows the blank line. -/
structure UpgradeRequest where
  requestLine : Bytes
  headers : List Bytes
  rest : Bytes := []

def UpgradeRequest.text (r : UpgradeRequest) : Bytes :=
  r.requestLine ++ lit "\r\n" ++ r.headers.flatMap (· ++ lit "\r\n") ++ lit "\r\n" ++ r.rest

/-- The header lines with the name of the key. -/
def UpgradeRequest.keyLines (r : UpgradeRequest) : List Bytes :=
  r.headers.filter fun line => (wsRequest ++ lit ":").isPrefixOf line

/-- The request has one line with a key. -/
structure UpgradeRequest.HasKey (r : UpgradeRequest) (key : Bytes) : Prop where
  line : r.keyLines = [wsRequest ++ lit ": " ++ key]
  length : key.length = 24
  solid : ∀ c ∈ key, isspace c = false

/-- The response that accepts a hashed text. -/
def accepting (plain : Bytes) : Bytes := wsHeader ++ (Base64.encode (sha1 plain) ++ lit "\r\n\r\n")

/-- The key of the request is accepted, and a request without a key is refused. -/
def Answered (r : UpgradeRequest) : Prop :=
  (∀ key, r.HasKey key → handshake r.text = .ok (0, some (accepting (key ++ magicString)))) ∧
    (r.keyLines = [] → ∃ ret < 0, handshake r.text = .ok (ret, none))

/-- A line is the first of a text, as a C string, in which the name of the key occurs anywhere, and this is the
second word of it, if it has one. -/
def Mentions (text : Bytes) (word : Option Bytes) : Prop :=
  ∃ line, Strtok.FirstWith lineBreak wsRequest (cstr text) line ∧ (Strtok.pieces blank line)[1]? = word

theorem wsRequest_free : ∀ c ∈ wsRequest, lineBreak c = false := Strtok.free_of_all (by decide)

theorem find_isSome_iff (s : Bytes) : (Occurrence.find wsRequest s).isSome = true ↔ wsRequest <:+: s := by
  rw [Option.isSome_iff_ne_none, Ne, Occurrence.find_eq_none_iff, not_not]

theorem length_encode_sha1 (plain : Bytes) : (Base64.encode (sha1 plain)).length = 28 := rfl

/-- The line feed is taken off the encoded digest. -/
theorem handshakeKey_some (wsKey : Bytes) :
    handshakeKey (some wsKey) = some (Base64.encode (sha1 (plainKey wsKey))) := by
  have hline : base64Encode (sha1 (plainKey wsKey)) = Base64.encode (sha1 (plainKey wsKey)) ++ [10] :=
    base64Lines_eq (.inr (List.ne_nil_of_length_pos (by rw [length_sha1]; decide)))
      (by rw [length_encode_sha1]; decide)
  rw [handshakeKey, hline, List.dropLast_concat]

/-- The response fits into its buffer, with the NUL. -/
theorem length_accepting (plain : Bytes) : (accepting plain).length + 1 = acceptLen := by
  have hheader : wsHeader.length = 97 := by decide
  rw [accepting, List.length_append, List.length_append, hheader, length_encode_sha1]
  rfl

/-- A key of full length is hashed with the magic string behind it. -/
theorem plainKey_eq {key : Bytes} (h : key.length = 24) : plainKey key = key ++ magicString := by
  have htake : key.take keyLen = key := List.take_of_length_le h.le
  have hmagic : magicString.length = 36 := by decide
  have hpad : plainLen - (key ++ magicString).length = 0 := by rw [List.length_append, h, hmagic]; rfl
  unfold plainKey
  rw [htake]
  dsimp only
  rw [hpad, List.replicate_zero, List.append_nil]

/-- The second word of the first line that mentions the key is answered. -/
theorem handshake_word {text word : Bytes} (h : Mentions text (some word)) :
    handshake text = .ok (0, some (accepting (plainKey word))) := by
  obtain ⟨line, hfirst, hword⟩ := h
  have hfits := length_accepting (plainKey word)
  unfold handshake
  rw [Strtok.tokens_eq, hfirst.find (by decide) find_isSome_iff]
  dsimp only
  rw [Strtok.tokens_eq, hword, handshakeKey_some]
  dsimp only
  rw [← accepting, if_neg (by omega)]

/-- Without such a word the request is refused. -/
theorem handshake_refused {text : Bytes} (h : ∀ word, ¬ Mentions text (some word)) :
    handshake text = .ok (-1, none) := by
  unfold handshake
  rw [Strtok.tokens_eq]
  cases hfind : (Strtok.pieces lineBreak (cstr text)).find? fun s => (Occurrence.find wsRequest s).isSome with
  | none => rfl
  | some line =>
    have hfirst := (Strtok.find_pieces_iff (by decide) wsRequest_free find_isSome_iff).mp hfind
    have hword : (Strtok.pieces blank line)[1]? = none := by
      rw [Option.eq_none_iff_forall_ne_some]
      exact fun word hword => h word ⟨line, hfirst, hword⟩
    dsimp only
    rw [Strtok.tokens_eq, hword, handshakeKey]

theorem accepting_injective {a b : Bytes} (h : accepting a = accepting b) : sha1 a = sha1 b := by
  have htail := List.append_cancel_left h
  exact Base64.encode_injective (List.append_cancel_right htail)

section Lines
variable {r : UpgradeRequest} {key : Bytes}

/-- A solid character cuts neither words nor lines. -/
theorem cuts_of_solid {c : Byte} (h : isspace c = false) : blank c = false ∧ lineBreak c = false := by
  have hsp : c ≠ 32 := by rintro rfl; cases h
  have hcr : c ≠ 13 := by rintro rfl; cases h
  have hlf : c ≠ 10 := by rintro rfl; cases h
  simp [blank, lineBreak, hsp, hcr, hlf]

theorem pieces_keyLine (hne : key ≠ []) (hsolid : ∀ c ∈ key, isspace c = false) :
    Strtok.pieces blank (wsRequest ++ lit ": " ++ key) = [wsRequest ++ lit ":", key] := by
  have hkey : ∀ c ∈ key, blank c = false := fun c hc => (cuts_of_solid (hsolid c hc)).1
  have hname : ∀ c ∈ wsRequest ++ lit ":", blank c = false := Strtok.free_of_all (by decide)
  have hsplit : wsRequest ++ lit ": " ++ key = (wsRequest ++ lit ":") ++ 32 :: key := by
    rw [List.append_assoc, List.append_assoc]
    rfl
  rw [hsplit, Strtok.pieces_append_cons rfl, Strtok.pieces_of_free hname, Strtok.pieces_of_free hkey]
  simp [hne, wsRequest, lit]

/-- Lines without the name of the key have it nowhere, each with its end. -/
theorem notInfix_lines {lines : List Bytes} (h : ∀ line ∈ lines, ¬ wsRequest <:+: line) :
    ¬ wsRequest <:+: lines.flatMap (· ++ lit "\r\n") := by
  have hcr : (13 : Byte) ∉ wsRequest := by decide
  have hlf : (10 : Byte) ∉ wsRequest := by decide
  induction lines with
  | nil => decide
  | cons line lines ih =>
    obtain ⟨hline, hlines⟩ := List.forall_mem_cons.mp h
    have hsplit : (line :: lines).flatMap (· ++ lit "\r\n") =
        line ++ 13 :: ([] ++ 10 :: lines.flatMap (· ++ lit "\r\n")) := by
      rw [List.flatMap_cons, List.append_assoc]
      rfl
    rw [hsplit, Strtok.infix_append_cons hcr, Strtok.infix_append_cons hlf]
    rintro (hin | hin | hin)
    · exact hline hin
    · exact absurd hin (by decide)
    · exact ih hlines hin

/-- The lines before one, with their ends, end with a line feed. -/
theorem flatMap_lines_eq {lines : List Bytes} (hne : lines ≠ []) :
    ∃ front, lines.flatMap (· ++ lit "\r\n") = front ++ [10] := by
  obtain ⟨init, last, rfl⟩ : ∃ init last, lines = init ++ [last] :=
    ⟨_, _, (List.dropLast_append_getLast hne).symm⟩
  refine ⟨init.flatMap (· ++ lit "\r\n") ++ (last ++ [13]), ?_⟩
  rw [List.flatMap_append, List.flatMap_singleton]
  simp [lit]

/-- The header line of a key is the first to mention it if no line before has its name in it. -/
theorem mentions_key (hne : key ≠ []) (hsolid : ∀ c ∈ key, isspace c = false) {before after : List Bytes}
    (hheaders : r.headers = before ++ (wsRequest ++ lit ": " ++ key) :: after)
    (hno : ∀ line ∈ r.requestLine :: before, ¬ wsRequest <:+: line)
    (hzero : (0 : Byte) ∉ key ∧ ∀ line ∈ r.requestLine :: before, (0 : Byte) ∉ line) :
    Mentions r.text (some key) := by
  set line := wsRequest ++ lit ": " ++ key with hline
  set front := (r.requestLine :: before).flatMap (· ++ lit "\r\n") with hfront
  set tail := after.flatMap (· ++ lit "\r\n") ++ (lit "\r\n" ++ r.rest) with htail
  have htext : r.text = front ++ (line ++ (lit "\r\n" ++ tail)) := by
    rw [UpgradeRequest.text, hheaders, hfront, htail]
    simp only [List.flatMap_cons, List.flatMap_append, List.append_assoc]
  have hzfront : (0 : Byte) ∉ front := by
    intro hm
    obtain ⟨l, hl, hc⟩ := List.mem_flatMap.mp hm
    rcases List.mem_append.mp hc with hc | hc
    · exact hzero.2 l hl hc
    · exact absurd hc (by decide)
  have hzline : (0 : Byte) ∉ line := by
    have hname : (0 : Byte) ∉ wsRequest ++ lit ": " := by decide
    rw [hline, List.mem_append]
    exact not_or.mpr ⟨hname, hzero.1⟩
  have hseen : cstr r.text = front ++ (line ++ 13 :: 10 :: cstr tail) := by
    rw [htext, cstr_append hzfront, cstr_append hzline, cstr_append (by decide)]
    rfl
  have hfree : ∀ c ∈ line, lineBreak c = false := by
    have hname : ∀ c ∈ wsRequest ++ lit ": ", lineBreak c = false := Strtok.free_of_all (by decide)
    intro c hc
    rcases List.mem_append.mp hc with hc | hc
    · exact hname c hc
    · exact (cuts_of_solid (hsolid c hc)).2
  refine ⟨line, ⟨front, 13 :: 10 :: cstr tail, ⟨hseen, hfree, .inr ?_, .inr ⟨13, _, rfl, rfl⟩⟩, notInfix_lines hno, ?_⟩,
    ?_⟩
  · obtain ⟨b, hb⟩ := flatMap_lines_eq (List.cons_ne_nil r.requestLine before)
    exact ⟨b, 10, hb, rfl⟩
  · rw [hline, List.append_assoc]
    exact (List.prefix_append _ _).isInfix
  · rw [hline, pieces_keyLine hne hsolid]
    rfl

/-- Where no line before the key's has its name in it, the key is accepted. -/
theorem handshake_key_first (h : r.HasKey key) {before after : List Bytes}
    (hheaders : r.headers = before ++ (wsRequest ++ lit ": " ++ key) :: after)
    (hno : ∀ line ∈ r.requestLine :: before, ¬ wsRequest <:+: line)
    (hzero : (0 : Byte) ∉ key ∧ ∀ line ∈ r.requestLine :: before, (0 : Byte) ∉ line) :
    handshake r.text = .ok (0, some (accepting (key ++ magicString))) := by
  have hne : key ≠ [] := List.ne_nil_of_length_pos (by rw [h.length]; decide)
  rw [handshake_word (mentions_key hne h.solid hheaders hno hzero), plainKey_eq h.length]

end Lines

/-- A request is answered as it should be when the first line that mentions the name of the key has, as its second
word, the key, or a word with the same digest; and a request without a key when that line has no second word, or no
line mentions the name. -/
theorem handshake_answered_iff (r : UpgradeRequest) :
    Answered r ↔
      (∀ key, r.HasKey key → ∃ word, Mentions r.text (some word) ∧ sha1 (plainKey word) = sha1 (key ++ magicString)) ∧
        (r.keyLines = [] → ∀ word, ¬ Mentions r.text (some word)) := by
  refine and_congr (forall_congr' fun key => imp_congr_right fun _ => ?_) (imp_congr_right fun _ => ?_)
  · constructor
    · intro h
      by_cases hword : ∃ word, Mentions r.text (some word)
      · obtain ⟨word, hword⟩ := hword
        rw [handshake_word hword] at h
        simp only [Except.ok.injEq, Prod.mk.injEq, Option.some.injEq, true_and] at h
        exact ⟨word, hword, accepting_injective h⟩
      · rw [handshake_refused (not_exists.mp hword)] at h
        simp at h
    · rintro ⟨word, hword, hsame⟩
      rw [handshake_word hword, accepting, accepting, hsame]
  · constructor
    · rintro ⟨ret, hneg, hret⟩ word hword
      rw [handshake_word hword] at hret
      simp at hret
    · intro h
      exact ⟨-1, by decide, handshake_refused h⟩

/-- The name of the key in the target of a request, with and without a header line of that name. -/
theorem handshake_misled :
    ¬ Answered ⟨lit "GET /?Sec-WebSocket-Key=1 HTTP/1.1",
        [lit "Host: localhost", lit "Sec-WebSocket-Key: dGhlIHNhbXBsZSBub25jZQ=="], []⟩ ∧
      ¬ Answered ⟨lit "GET /?Sec-WebSocket-Key=1 HTTP/1.1", [lit "Host: localhost"], []⟩ := by
  refine ⟨fun h => ?_, fun h => ?_⟩
  · have hkey := h.1 (lit "dGhlIHNhbXBsZSBub25jZQ==") ⟨by decide, by decide, Strtok.free_of_all (by decide)⟩
    exact absurd hkey (by decide +kernel)
  · obtain ⟨ret, hneg, hret⟩ := h.2 (by decide)
    have hzero : (handshake (UpgradeRequest.text
        ⟨lit "GET /?Sec-WebSocket-Key=1 HTTP/1.1", [lit "Host: localhost"], []⟩)).map Prod.fst = .ok 0 := by
      decide +kernel
    rw [hret] at hzero
    obtain rfl : ret = 0 := Except.ok.inj hzero
    exact lt_irrefl _ hneg

example : handshake (lit "GET / HTTP/1.1\r\nSec-WebSocket-Key: dGhlIHNhbXBsZSBub25jZQ==\r\n\r\n") =
    .ok (0, some (wsHeader ++ lit "s3pPLMBiTxaQ9kYGzzhZRbK+xOo=\r\n\r\n")) := by
  decide +kernel

end Jericho.WebSocket
