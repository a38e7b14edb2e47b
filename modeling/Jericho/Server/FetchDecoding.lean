import Jericho.Library.QueryText
import Jericho.Server.FetchLoop

/-! Which responses `fetch` stores as they were sent, however their bytes are cut. -/
namespace Jericho.Server
open StdText TextLines

/-- A hexadecimal size. -/
structure SizeText (size : Nat) where
  text : Bytes
  nonempty : text ≠ []
  digits : ∀ c ∈ text, digitOf c < 16
  value : numeral 16 text = size

structure Chunk where
  data : Bytes
  nonempty : data ≠ []
  size : SizeText data.length

/-- How the length of the body is told. Nothing but the spelling is different for the second. -/
inductive Framing where
  | length (body : Bytes)
  | lowerLength (body : Bytes)
  | chunked (chunks : List Chunk) (last : SizeText 0)

def Framing.line : Framing → Bytes
  | .length body => lit "Content-Length: " ++ decimal body.length
  | .lowerLength body => lit "Content-length: " ++ decimal body.length
  | .chunked _ _ => lit "Transfer-Encoding: chunked"

def Chunk.bytes (c : Chunk) : Bytes := c.size.text ++ crlf ++ c.data ++ crlf

/-- What follows the blank line. -/
def Framing.payload : Framing → Bytes
  | .length body => body
  | .lowerLength body => body
  | .chunked chunks last => chunks.flatMap Chunk.bytes ++ last.text ++ crlf ++ crlf

def Framing.body : Framing → Bytes
  | .length body => body
  | .lowerLength body => body
  | .chunked chunks _ => chunks.flatMap Chunk.data

/-- A line of a header section that is not the one of the framing. -/
structure OtherLine (line : Bytes) : Prop where
  nonempty : line ≠ []
  plain : Plain line
  noLength : ¬ lit "Content-Length: " <+: line
  noChunked : ¬ lit "Transfer-Encoding: chunked" <+: line

/-- The status line and the headers. -/
def headText (status : Bytes) (front : List Bytes) (framing : Framing) (back : List Bytes) : Bytes :=
  text 13 10 (status :: (front ++ framing.line :: back))

/-- A response that fits into the buffer of `fetch`. -/
structure HttpResponse where
  status : Bytes
  front : List Bytes
  framing : Framing
  back : List Bytes
  status_line : status ≠ [] ∧ Plain status
  front_lines : ∀ line ∈ front, OtherLine line
  back_lines : ∀ line ∈ back, OtherLine line
  fits : (headText status front framing back ++ crlf2 ++ framing.payload).length < responseSize

def HttpResponse.head (r : HttpResponse) : Bytes := headText r.status r.front r.framing r.back

def HttpResponse.bytes (r : HttpResponse) : Bytes := r.head ++ crlf2 ++ r.framing.payload

/-- However the bytes are cut, the loop ends and leaves the body. -/
def HttpResponse.Decoded (r : HttpResponse) : Prop :=
  ∀ cuts : List Bytes, (∀ piece ∈ cuts, piece ≠ []) → cuts.flatten = r.bytes →
    ReadLoop.run {} cuts = .ok (.ended r.framing.body)

/-- The framings that are decoded: a length that is spelled as it is searched, of a body without a NUL, and
chunks if there are none. -/
def Framing.Readable : Framing → Prop
  | .length body => (0 : Byte) ∉ body
  | .lowerLength _ => False
  | .chunked chunks _ => chunks = []

theorem plain_framingLine (f : Framing) : f.line ≠ [] ∧ Plain f.line := by
  cases f with
  | length body =>
    exact ⟨List.append_ne_nil_of_left_ne_nil (by decide) _, Plain.append (by decide) (plain_decimal _)⟩
  | lowerLength body =>
    exact ⟨List.append_ne_nil_of_left_ne_nil (by decide) _, Plain.append (by decide) (plain_decimal _)⟩
  | chunked chunks last =>
    have hplain : Plain (lit "Transfer-Encoding: chunked") := by decide
    exact ⟨List.cons_ne_nil _ _, hplain⟩

theorem head_lines (r : HttpResponse) :
    ∀ line ∈ r.status :: (r.front ++ r.framing.line :: r.back), line ≠ [] ∧ Plain line := by
  intro line hline
  rcases List.mem_cons.mp hline with rfl | hline
  · exact r.status_line
  rcases List.mem_append.mp hline with hline | hline
  · exact ⟨(r.front_lines line hline).nonempty, (r.front_lines line hline).plain⟩
  rcases List.mem_cons.mp hline with rfl | hline
  · exact plain_framingLine r.framing
  · exact ⟨(r.back_lines line hline).nonempty, (r.back_lines line hline).plain⟩

/-- What the header section announces to the loop. -/
def Framing.announced : Framing → Encoding × Int
  | .length body => (.length, body.length)
  | .lowerLength _ => (.connection, 0)
  | .chunked _ _ => (.chunked, 0)

/-- The state of the loop while it waits, after the first bytes of a response. -/
def stateAt (r : HttpResponse) (received : Bytes) : ReadLoop :=
  if received.length < r.head.length + 4 then { memory := received }
  else { memory := received.set r.head.length 0, body := some (r.head.length + 4), encoding := r.framing.announced.1,
         remaining := r.framing.announced.2 }

variable {r : HttpResponse}

/-- A header is searched line by line. -/
theorem search_head (r : HttpResponse) {name : Bytes} (hcr : (13 : Byte) ∉ name) :
    (Occurrence.find (10 :: name) r.head).map (fun n => r.head.drop (n + 1)) =
      if (r.front ++ r.framing.line :: r.back).any (name.isPrefixOf ·) then
        some (text 13 10 ((r.front ++ r.framing.line :: r.back).dropWhile (! name.isPrefixOf ·)))
      else none :=
  find_line (by decide) hcr r.status _ fun line hline => (head_lines r line hline).2.notMem_lf

/-- A header is found at the framing line. -/
theorem search_found {name : Bytes} (hcr : (13 : Byte) ∉ name) (hfront : ∀ line ∈ r.front, ¬ name <+: line)
    (hline : name <+: r.framing.line) : ∃ q, Occurrence.find (10 :: name) r.head = some q ∧
      r.head.drop q = 10 :: text 13 10 (r.framing.line :: r.back) := by
  have hfind := search_head r hcr
  have hany : (r.front ++ r.framing.line :: r.back).any (name.isPrefixOf ·) = true :=
    List.any_eq_true.mpr ⟨r.framing.line, by simp, List.isPrefixOf_iff_prefix.mpr hline⟩
  have hdrop : (r.front ++ r.framing.line :: r.back).dropWhile (! name.isPrefixOf ·) = r.framing.line :: r.back := by
    rw [List.dropWhile_append_of_pos, List.dropWhile_cons_of_neg]
    · simpa using hline
    · intro line hmem
      rw [Bool.not_eq_true', ← Bool.not_eq_true, List.isPrefixOf_iff_prefix]
      exact hfront line hmem
  rw [if_pos hany, hdrop] at hfind
  obtain ⟨q, hq, htail⟩ := Option.map_eq_some_iff.mp hfind
  refine ⟨q, hq, ?_⟩
  have hsplit := congrArg (List.drop q) (Occurrence.find_split hq)
  have hlength : (r.head.take q).length = q :=
    List.length_take_of_le (by have hle := Occurrence.find_le hq; omega)
  rw [List.append_assoc, List.drop_left' hlength] at hsplit
  rw [← htail, ← List.tail_drop, hsplit]
  rfl

theorem search_none {name : Bytes} (hcr : (13 : Byte) ∉ name) (hfront : ∀ line ∈ r.front, ¬ name <+: line)
    (hback : ∀ line ∈ r.back, ¬ name <+: line) (hline : ¬ name <+: r.framing.line) :
    Occurrence.find (10 :: name) r.head = none := by
  have hfind := search_head r hcr
  have hany : ¬ (r.front ++ r.framing.line :: r.back).any (name.isPrefixOf ·) = true := by
    rw [List.any_eq_true]
    rintro ⟨line, hmem, hpre⟩
    have hpre := List.isPrefixOf_iff_prefix.mp hpre
    rcases List.mem_append.mp hmem with hmem | hmem
    · exact hfront line hmem hpre
    · rcases List.mem_cons.mp hmem with rfl | hmem
      · exact hline hpre
      · exact hback line hmem hpre
  rw [if_neg hany] at hfind
  exact Option.map_eq_none_iff.mp hfind

theorem framing_fits (r : HttpResponse) : r.head.length + 4 + r.framing.payload.length < 32768 := by
  have hfits := r.fits
  rw [List.length_append, List.length_append] at hfits
  exact hfits

theorem contentLength_search : lit "\nContent-Length: " = 10 :: lit "Content-Length: " := by decide
theorem transferEncoding_search :
    lit "\nTransfer-Encoding: chunked" = 10 :: lit "Transfer-Encoding: chunked" := by decide

/-- The value of a length behind the blank. -/
theorem contentLength_value (value : Bytes) :
    ((10 :: (lit "Content-Length: " ++ value)).dropWhile (· ≠ 32)).tail = value := by
  have hcut : 10 :: (lit "Content-Length: " ++ value) = lit "\nContent-Length:" ++ 32 :: value := by
    rw [← List.cons_append, ← contentLength_search]
    have hblank : lit "\nContent-Length: " = lit "\nContent-Length:" ++ [32] := by decide
    rw [hblank, List.append_assoc]
    rfl
  rw [hcut]
  exact (QueryText.cut_append 32 (by decide) value).2

/-- What the header section says is what the loop sets up. -/
theorem announce_head (r : HttpResponse) {s : ReadLoop} (hs : s.remaining = 0) :
    s.announce r.head = { s with encoding := r.framing.announced.1, remaining := r.framing.announced.2 } := by
  have hlengthFront : ∀ line ∈ r.front, ¬ lit "Content-Length: " <+: line := fun line h =>
    (r.front_lines line h).noLength
  have hlengthBack : ∀ line ∈ r.back, ¬ lit "Content-Length: " <+: line := fun line h => (r.back_lines line h).noLength
  have hchunkedFront : ∀ line ∈ r.front, ¬ lit "Transfer-Encoding: chunked" <+: line := fun line h =>
    (r.front_lines line h).noChunked
  have hchunkedBack : ∀ line ∈ r.back, ¬ lit "Transfer-Encoding: chunked" <+: line := fun line h =>
    (r.back_lines line h).noChunked
  have hfits := framing_fits r
  have hcr : (13 : Byte) ∉ lit "Content-Length: " := by decide
  have hcr' : (13 : Byte) ∉ lit "Transfer-Encoding: chunked" := by decide
  unfold ReadLoop.announce
  rw [contentLength_search, transferEncoding_search]
  cases hf : r.framing with
  | length body =>
    have hline : r.framing.line = lit "Content-Length: " ++ decimal body.length := by rw [hf]; rfl
    have hpre : lit "Content-Length: " <+: r.framing.line := by
      rw [hline]
      exact List.prefix_append _ _
    obtain ⟨q, hq, hdrop⟩ := search_found hcr hlengthFront hpre
    obtain ⟨rest, hrest, hend⟩ := @text_cons _ 13 10 r.framing.line r.back
    have hvalue : ((r.head.drop q).dropWhile (· ≠ 32)).tail = decimal body.length ++ rest := by
      rw [hdrop, hrest, hline, List.append_assoc]
      exact contentLength_value _
    have hlength : body.length < 2 ^ 31 := by
      rw [hf] at hfits
      have hbody : (Framing.length body).payload.length = body.length := rfl
      omega
    rw [hq]
    dsimp only
    rw [hvalue, strtol_decimal hlength hend, asInt_small hlength]
    rfl
  | lowerLength body =>
    have hline : r.framing.line = lit "Content-length: " ++ decimal body.length := by rw [hf]; rfl
    have hlength : ¬ lit "Content-Length: " <+: r.framing.line := by
      rw [hline]
      intro hpre
      have hsame : lit "Content-Length: " <+: lit "Content-length: " :=
        List.prefix_of_prefix_length_le hpre (List.prefix_append _ _) (by decide)
      revert hsame
      decide
    have hchunked : ¬ lit "Transfer-Encoding: chunked" <+: r.framing.line := by
      rw [hline]
      intro hpre
      have hfirst := (List.cons_prefix_cons.mp hpre).1
      revert hfirst
      decide
    rw [search_none hcr hlengthFront hlengthBack hlength, search_none hcr' hchunkedFront hchunkedBack hchunked]
    obtain ⟨memory, pos, encoding, remaining, result⟩ := s
    obtain rfl : remaining = 0 := hs
    rfl
  | chunked chunks last =>
    have hline : r.framing.line = lit "Transfer-Encoding: chunked" := by rw [hf]; rfl
    have hlength : ¬ lit "Content-Length: " <+: r.framing.line := by
      rw [hline]
      decide
    have hpre : lit "Transfer-Encoding: chunked" <+: r.framing.line := by
      rw [hline]
    obtain ⟨q, hq, -⟩ := search_found hcr' hchunkedFront hpre
    rw [search_none hcr hlengthFront hlengthBack hlength, hq]
    rfl

/-- The bytes that were received are cut where the body starts. -/
theorem received_split {received : Bytes} (h : received <+: r.bytes) (hlong : r.head.length + 4 ≤ received.length) :
    ∃ payload, received = r.head ++ crlf2 ++ payload ∧ payload <+: r.framing.payload := by
  have hpre : r.head ++ crlf2 <+: received := by
    refine List.prefix_of_prefix_length_le (List.prefix_append _ r.framing.payload) h ?_
    rw [List.length_append]
    exact hlong
  obtain ⟨payload, rfl⟩ := hpre
  exact ⟨payload, rfl, (List.prefix_append_right_inj _).mp h⟩

theorem zero_notMem_head (r : HttpResponse) : (0 : Byte) ∉ r.head ++ crlf2 := by
  have hline : ∀ lines : List Bytes, (∀ line ∈ lines, Plain line) → (0 : Byte) ∉ text 13 10 lines := by
    intro lines hlines
    induction lines with
    | nil => exact List.not_mem_nil
    | cons first lines ih =>
      have hfirst : (0 : Byte) ∉ first := fun h => (hlines first List.mem_cons_self 0 h).2.2 rfl
      have ih := ih fun line hline => hlines line (List.mem_cons_of_mem first hline)
      cases lines with
      | nil =>
        rw [text_singleton]
        exact hfirst
      | cons next lines =>
        rw [text_cons_cons]
        simp only [List.mem_append, List.mem_cons, not_or]
        exact ⟨hfirst, by decide, by decide, ih⟩
  rw [List.mem_append]
  rintro (h | h)
  · exact hline _ (fun line hmem => (head_lines r line hmem).2) h
  · revert h
    decide

/-- Before the blank line has come nothing is found. -/
theorem findBody_early {received : Bytes} (h : received <+: r.bytes) (hshort : received.length < r.head.length + 4) :
    ReadLoop.findBody { memory := received } = { memory := received } := by
  have hblank : Occurrence.find crlf2 r.bytes = some r.head.length := by
    refine find_blank (by decide) (fun line hline => ?_) r.framing.payload
    exact ⟨(head_lines r line hline).1, (head_lines r line hline).2.notMem_cr⟩
  have hnone : Occurrence.find crlf2 (cstr received) = none := by
    cases hfind : Occurrence.find crlf2 (cstr received) with
    | none => rfl
    | some n =>
      obtain ⟨t, ht⟩ := (cstr_isPrefix received).trans h
      have hsame : Occurrence.find crlf2 r.bytes = some n := by
        rw [← ht]
        exact Occurrence.find_append_of_find hfind t
      have hn : r.head.length = n := Option.some.inj (hblank.symm.trans hsame)
      have hle := Occurrence.find_le hfind
      have hcut := cstr_length_le received
      have hfour : crlf2.length = 4 := rfl
      omega
  unfold ReadLoop.findBody
  dsimp only
  rw [hnone]
  rfl

theorem findBody_found {payload : Bytes} :
    ReadLoop.findBody { memory := r.head ++ crlf2 ++ payload } = stateAt r (r.head ++ crlf2 ++ payload) := by
  have hcstr : cstr (r.head ++ crlf2 ++ payload) = r.head ++ crlf2 ++ cstr payload := cstr_append (zero_notMem_head r) _
  have hblank : Occurrence.find crlf2 (r.head ++ crlf2 ++ cstr payload) = some r.head.length := by
    refine find_blank (by decide) (fun line hline => ?_) _
    exact ⟨(head_lines r line hline).1, (head_lines r line hline).2.notMem_cr⟩
  have hlong : ¬ (r.head ++ crlf2 ++ payload).length < r.head.length + 4 := by
    have hfour : crlf2.length = 4 := rfl
    rw [List.length_append, List.length_append]
    omega
  unfold ReadLoop.findBody stateAt
  dsimp only
  rw [hcstr, hblank, if_neg hlong]
  dsimp only
  rw [List.append_assoc, List.append_assoc, List.take_left, announce_head r rfl]
  rfl

/-- What the loop knows after it has taken in more bytes. -/
theorem findBody_next {received bytes : Bytes} (h : received ++ bytes <+: r.bytes) :
    ReadLoop.findBody { stateAt r received with memory := (stateAt r received).memory ++ bytes } =
      stateAt r (received ++ bytes) := by
  by_cases hearly : received.length < r.head.length + 4
  · have hstate : stateAt r received = { memory := received } := if_pos hearly
    rw [hstate]
    by_cases hlater : (received ++ bytes).length < r.head.length + 4
    · rw [findBody_early h hlater]
      exact (if_pos hlater).symm
    · obtain ⟨payload, hpayload, -⟩ := received_split h (Nat.le_of_not_lt hlater)
      rw [hpayload]
      exact findBody_found
  · have hlater : ¬ (received ++ bytes).length < r.head.length + 4 := by
      rw [List.length_append]
      omega
    have hset : received.set r.head.length 0 ++ bytes = (received ++ bytes).set r.head.length 0 :=
      (List.set_append_left _ _ (by omega)).symm
    unfold stateAt
    rw [if_neg hearly, if_neg hlater, ← hset]
    rfl

theorem receive_eq {received bytes : Bytes} (h : received ++ bytes <+: r.bytes) :
    (stateAt r received).receive bytes = (stateAt r (received ++ bytes)).takeBody :=
  congrArg ReadLoop.takeBody (findBody_next h)

theorem takeBody_early {received : Bytes} (h : received.length < r.head.length + 4) :
    (stateAt r received).takeBody = .ok (.waiting (stateAt r received)) := by
  have hstate : stateAt r received = { memory := received } := if_pos h
  rw [hstate]
  rfl

theorem stateAt_found {received : Bytes} (h : r.head.length + 4 ≤ received.length) :
    (stateAt r received).body = some (r.head.length + 4 : Int) ∧
      (stateAt r received).encoding = r.framing.announced.1 ∧ (stateAt r received).remaining = r.framing.announced.2 ∧
      (stateAt r received).result = [] ∧ (stateAt r received).memory = received.set r.head.length 0 := by
  unfold stateAt
  rw [if_neg (Nat.not_lt.mpr h)]
  exact ⟨rfl, rfl, rfl, rfl, rfl⟩

/-- The body as far as it has come. -/
theorem textAt_body {received : Bytes} (h : r.head.length + 4 ≤ received.length) :
    (stateAt r received).textAt (r.head.length + 4) = .ok (cstr (received.drop (r.head.length + 4))) ∧
      (stateAt r received).room (r.head.length + 4) = received.length - (r.head.length + 4) := by
  obtain ⟨-, -, -, -, hmemory⟩ := stateAt_found h
  have hdrop : (received.set r.head.length 0).drop (r.head.length + 4) = received.drop (r.head.length + 4) :=
    List.drop_set_of_lt (by omega)
  unfold ReadLoop.textAt ReadLoop.room
  rw [hmemory, List.length_set]
  constructor
  · have hnat : ((r.head.length : Int) + 4).toNat = r.head.length + 4 := by omega
    rw [if_pos (by omega), hnat, hdrop]
  · rfl

theorem bytes_length (r : HttpResponse) : r.bytes.length = r.head.length + 4 + r.framing.payload.length := by
  unfold HttpResponse.bytes
  rw [List.length_append, List.length_append]
  rfl

theorem drop_head (r : HttpResponse) : r.bytes.drop (r.head.length + 4) = r.framing.payload := by
  have hlength : (r.head ++ crlf2).length = r.head.length + 4 := List.length_append
  exact List.drop_left' hlength

theorem ne_of_early {received : Bytes} (h : received.length < r.head.length + 4) : received ≠ r.bytes := by
  rintro rfl
  rw [bytes_length] at h
  omega

/-- With the length announced, the loop ends with the last byte, and takes what is in front of a NUL. -/
theorem takeBody_length {body received : Bytes} (hf : r.framing = .length body) (h : received <+: r.bytes) :
    (stateAt r received).takeBody = .ok (.ended (cstr body)) ∨
      (stateAt r received).takeBody = .ok (.waiting (stateAt r received)) ∧ received ≠ r.bytes := by
  have hpayload : r.framing.payload = body := by rw [hf]; rfl
  have htotal := bytes_length r
  rw [hpayload] at htotal
  by_cases hearly : received.length < r.head.length + 4
  · exact .inr ⟨takeBody_early hearly, ne_of_early hearly⟩
  · have hlong := Nat.le_of_not_lt hearly
    obtain ⟨htext, hroom⟩ := textAt_body hlong
    obtain ⟨hbody, hencoding, hremaining, hresult, -⟩ := stateAt_found hlong
    have hannounced : r.framing.announced = (.length, (body.length : Int)) := by rw [hf]; rfl
    rw [hannounced] at hencoding hremaining
    unfold ReadLoop.takeBody
    rw [hbody]
    dsimp only
    rw [hencoding, hroom, hremaining, htext, hresult]
    dsimp only
    by_cases hall : received = r.bytes
    · have hbodyText : received.drop (r.head.length + 4) = body := by rw [hall, drop_head, hpayload]
      have hroom : (body.length : Int) ≤ received.length - (r.head.length + 4) := by
        rw [hall, htotal]
        omega
      rw [if_pos hroom, hbodyText]
      exact .inl rfl
    · have hless : received.length < r.bytes.length := by
        refine lt_of_le_of_ne h.length_le fun heq => hall (h.eq_of_length heq)
      rw [if_neg (by omega)]
      exact .inr ⟨rfl, hall⟩

/-- A length that is not found leaves the loop waiting for the end of the connection. -/
theorem takeBody_lower {body : Bytes} (hf : r.framing = .lowerLength body) (received : Bytes) :
    (stateAt r received).takeBody = .ok (.waiting (stateAt r received)) := by
  by_cases hearly : received.length < r.head.length + 4
  · exact takeBody_early hearly
  · obtain ⟨hbody, hencoding, -⟩ := stateAt_found (Nat.le_of_not_lt hearly)
    have hannounced : r.framing.announced.1 = .connection := by rw [hf]; rfl
    unfold ReadLoop.takeBody
    rw [hbody]
    dsimp only
    rw [hencoding, hannounced]

/-- The size line of a chunk. -/
theorem size_read {size : Nat} (t : SizeText size) (hsize : size < 2 ^ 31) {rest : Bytes}
    (hrest : rest = [] ∨ rest.head? = some 13) : asInt (strtol 16 (t.text ++ rest)) = size := by
  have hmin : min (2 ^ 63 - 1) (size : Int) = size := by omega
  rw [strtol_digits (Nat.le_refl 16) t.nonempty t.digits hrest, t.value, hmin, asInt_small hsize]

theorem size_plain {size : Nat} (t : SizeText size) : (13 : Byte) ∉ t.text ∧ (0 : Byte) ∉ t.text := by
  refine ⟨fun h => ?_, fun h => ?_⟩
  · exact (digitOf_lt (t.digits 13 h)).2.2.2.2.2.1 rfl
  · exact (digitOf_lt (t.digits 0 h)).2.2.2.2.2.2 rfl

/-- Without a line end the loop waits for the rest of the size line. -/
theorem chunkSize_none {s : ReadLoop} {pos : Int} {line : Bytes} (hremaining : s.remaining = 0)
    (htext : s.textAt pos = .ok line) (hfind : Occurrence.find crlf line = none) :
    s.chunkSize pos = .ok (.waiting s) := by
  unfold ReadLoop.chunkSize
  rw [if_pos hremaining, htext]
  dsimp only [bind, Except.bind]
  rw [hfind]
  rfl

/-- With one, it has the size. -/
theorem chunkSize_some {s : ReadLoop} {pos : Int} {line : Bytes} {q : Nat} {size : Int} (hremaining : s.remaining = 0)
    (htext : s.textAt pos = .ok line) (hfind : Occurrence.find crlf line = some q)
    (hsize : asInt (strtol 16 line) = size) :
    s.chunkSize pos = if size = 0 then .ok (.ended s.result)
      else .ok (.running { s with remaining := size, body := some (pos + q + 2) }) := by
  unfold ReadLoop.chunkSize
  rw [if_pos hremaining, htext]
  dsimp only [bind, Except.bind]
  rw [hfind]
  dsimp only
  rw [hsize]
  rfl

/-- What has come of a size line and of what follows it. Once there is a line end, the size is there. -/
theorem size_received {size : Nat} (t : SizeText size) {payload : Bytes} (hpre : payload <+: t.text ++ (crlf ++ crlf)) :
    (0 : Byte) ∉ payload ∧ ∀ q, Occurrence.find crlf payload = some q →
      ∃ rest, payload = t.text ++ rest ∧ (rest = [] ∨ rest.head? = some 13) := by
  refine ⟨fun hmem => ?_, fun q hfind => ?_⟩
  · rcases List.mem_append.mp (hpre.subset hmem) with hmem | hmem
    · exact (size_plain t).2 hmem
    · exact absurd hmem (by decide)
  · have hcr : (13 : Byte) ∈ payload := by
      rw [Occurrence.find_split hfind]
      exact List.mem_append_left _ (List.mem_append_right _ List.mem_cons_self)
    have hsize : t.text <+: payload := by
      rcases List.prefix_or_prefix_of_prefix (List.prefix_append t.text _) hpre with hle | hle
      · exact hle
      · exact absurd (hle.subset hcr) (size_plain t).1
    obtain ⟨rest, rfl⟩ := hsize
    refine ⟨rest, rfl, ?_⟩
    cases rest with
    | nil => exact .inl rfl
    | cons c rest =>
      obtain rfl := (List.cons_prefix_cons.mp ((List.prefix_append_right_inj _).mp hpre)).1
      exact .inr rfl

/-- Without chunks the loop ends at the line of the last size, with nothing. -/
theorem takeBody_empty {last : SizeText 0} (hf : r.framing = .chunked [] last) {received : Bytes}
    (h : received <+: r.bytes) :
    (stateAt r received).takeBody = .ok (.ended []) ∨
      (stateAt r received).takeBody = .ok (.waiting (stateAt r received)) ∧ received ≠ r.bytes := by
  have hpayload : r.framing.payload = last.text ++ crlf ++ crlf := by rw [hf]; rfl
  by_cases hearly : received.length < r.head.length + 4
  · exact .inr ⟨takeBody_early hearly, ne_of_early hearly⟩
  · have hlong := Nat.le_of_not_lt hearly
    obtain ⟨htext, hroom⟩ := textAt_body hlong
    obtain ⟨hbody, hencoding, hremaining, hresult, -⟩ := stateAt_found hlong
    have hannounced : r.framing.announced = (.chunked, 0) := by rw [hf]; rfl
    rw [hannounced] at hencoding hremaining
    obtain ⟨payload, hsplit, hpre⟩ := received_split h hlong
    have hdrop : received.drop (r.head.length + 4) = payload := by
      have hlength : (r.head ++ crlf2).length = r.head.length + 4 := List.length_append
      rw [hsplit]
      exact List.drop_left' hlength
    rw [hpayload, List.append_assoc] at hpre
    obtain ⟨hzero, hline⟩ := size_received last hpre
    rw [hdrop, cstr_eq_self_iff.mpr hzero] at htext
    have hbodyPos : (stateAt r received).body.getD 0 = r.head.length + 4 := by rw [hbody]; rfl
    have htake : (stateAt r received).takeBody =
        (stateAt r received).readChunks ((stateAt r received).memory.length + 1) := by
      unfold ReadLoop.takeBody
      rw [hbody]
      dsimp only
      rw [hencoding]
    rw [htake]
    unfold ReadLoop.readChunks ReadLoop.chunkRound
    rw [hbodyPos]
    cases hfind : Occurrence.find crlf payload with
    | none =>
      rw [chunkSize_none hremaining htext hfind]
      refine .inr ⟨rfl, fun hall => ?_⟩
      have hfull : payload = last.text ++ (crlf ++ crlf) := by
        rw [← hdrop, hall, drop_head, hpayload, List.append_assoc]
      refine Occurrence.find_eq_none_iff.mp hfind ?_
      rw [hfull, ← List.append_assoc]
      exact (List.suffix_append _ crlf).isInfix
    | some q =>
      left
      obtain ⟨rest, rfl, hrest⟩ := hline q hfind
      rw [chunkSize_some hremaining htext hfind (size_read last (by decide) hrest), if_pos Nat.cast_zero, hresult]
      rfl

theorem stateAt_nil (r : HttpResponse) : stateAt r [] = {} := if_pos (Nat.zero_lt_succ _)

theorem stateAt_length (r : HttpResponse) (received : Bytes) :
    (stateAt r received).memory.length = received.length := by
  unfold stateAt
  split_ifs
  · rfl
  · exact List.length_set

/-- One round of the loop over a response. -/
theorem run_cons {received piece : Bytes} (rest : List Bytes) (h : received ++ piece <+: r.bytes) :
    (stateAt r received).run (piece :: rest) = (do
      match ← (stateAt r (received ++ piece)).takeBody with
      | .waiting s => s.run rest
      | other => return other) := by
  have hroom : (stateAt r received).memory.length ≠ responseSize := by
    have hle := h.length_le
    have hfits := framing_fits r
    rw [bytes_length, List.length_append] at hle
    rw [stateAt_length]
    unfold responseSize
    omega
  have hround : (stateAt r received).run (piece :: rest) = (do
      match ← (stateAt r received).receive piece with
      | .waiting s => s.run rest
      | other => return other) := if_neg hroom
  rw [hround, receive_eq h]

theorem prefix_of_cuts {received piece : Bytes} {rest : List Bytes}
    (h : received ++ (piece :: rest).flatten = r.bytes) :
    received ++ piece <+: r.bytes ∧ received ++ piece ++ rest.flatten = r.bytes := by
  rw [List.flatten_cons, ← List.append_assoc] at h
  exact ⟨⟨rest.flatten, h⟩, h⟩

/-- A loop that waits for more until it ends with the body, and does not wait at the end of the response,
ends with the body for all cuts. -/
theorem run_ended {body : Bytes}
    (htake : ∀ received, received <+: r.bytes → (stateAt r received).takeBody = .ok (.ended body) ∨
      (stateAt r received).takeBody = .ok (.waiting (stateAt r received)) ∧ received ≠ r.bytes)
    (cuts : List Bytes) {received : Bytes} (hcuts : received ++ cuts.flatten = r.bytes) (hne : received ≠ r.bytes) :
    (stateAt r received).run cuts = .ok (.ended body) := by
  induction cuts generalizing received with
  | nil => exact absurd ((List.append_nil received).symm.trans hcuts) hne
  | cons piece rest ih =>
    obtain ⟨hpre, hrest⟩ := prefix_of_cuts hcuts
    rw [run_cons rest hpre]
    rcases htake _ hpre with h | ⟨h, hall⟩
    · rw [h]
      rfl
    · rw [h]
      exact ih hrest hall

theorem run_lower {body : Bytes} (hf : r.framing = .lowerLength body) (cuts : List Bytes) {received : Bytes}
    (hcuts : received ++ cuts.flatten = r.bytes) :
    (stateAt r received).run cuts = .ok (.waiting (stateAt r r.bytes)) := by
  induction cuts generalizing received with
  | nil =>
    obtain rfl : received = r.bytes := (List.append_nil received).symm.trans hcuts
    rfl
  | cons piece rest ih =>
    obtain ⟨hpre, hrest⟩ := prefix_of_cuts hcuts
    rw [run_cons rest hpre, takeBody_lower hf]
    exact ih hrest

/-- The text of some chunks and the end behind them. -/
def chunksText (chunks : List Chunk) (last : SizeText 0) : Bytes :=
  chunks.flatMap Chunk.bytes ++ last.text ++ crlf ++ crlf

/-- What is collected when everything has come: for every chunk all that follows its size line. -/
def collected (last : SizeText 0) : List Chunk → Bytes
  | [] => []
  | c :: chunks => cstr (c.data ++ crlf ++ chunksText chunks last) ++ collected last chunks

theorem chunksText_cons (c : Chunk) (chunks : List Chunk) (last : SizeText 0) :
    chunksText (c :: chunks) last = c.size.text ++ crlf ++ (c.data ++ crlf ++ chunksText chunks last) := by
  unfold chunksText Chunk.bytes
  simp only [List.flatMap_cons, List.append_assoc]

/-- A size line at the body. -/
theorem chunkSize_eq {size : Nat} (t : SizeText size) {s : ReadLoop} {pos : Nat} {more : Bytes}
    (hremaining : s.remaining = 0) (htext : s.memory.drop pos = t.text ++ crlf ++ more) (hsize : size < 2 ^ 31) :
    s.chunkSize pos = if (size : Int) = 0 then .ok (.ended s.result)
      else .ok (.running { s with remaining := size, body := some ((pos + t.text.length + 2 : Nat) : Int) }) := by
  obtain ⟨hcr, hzero⟩ := size_plain t
  have hne : s.memory.drop pos ≠ [] := by
    rw [htext, List.append_assoc]
    exact List.append_ne_nil_of_left_ne_nil t.nonempty _
  have hpos : pos ≤ s.memory.length := by
    by_contra hlt
    exact hne (List.drop_eq_nil_of_le (by omega))
  have hplain : (0 : Byte) ∉ t.text ++ crlf := by
    rw [List.mem_append]
    rintro (h | h)
    · exact hzero h
    · revert h
      decide
  have hline : s.textAt pos = .ok (t.text ++ (crlf ++ cstr more)) := by
    unfold ReadLoop.textAt
    rw [if_pos ⟨Int.natCast_nonneg pos, by exact_mod_cast hpos⟩, Int.toNat_natCast, htext, cstr_append hplain,
      List.append_assoc]
  have hfind : Occurrence.find crlf (t.text ++ (crlf ++ cstr more)) = some t.text.length := by
    have hpass : Occurrence.find crlf (t.text ++ (crlf ++ cstr more)) =
        (Occurrence.find crlf (crlf ++ cstr more)).map (· + t.text.length) := Occurrence.find_append_of_notMem hcr _
    rw [hpass, Occurrence.find_eq_zero (List.prefix_append _ _), Option.map_some, Nat.zero_add]
  rw [chunkSize_some hremaining hline hfind (size_read t hsize (.inr rfl))]
  push_cast
  rfl

/-- The state of the loop behind a chunk, with what was taken. -/
def ReadLoop.behind (s : ReadLoop) (pos : Nat) (text : Bytes) : ReadLoop :=
  { s with result := s.result ++ text, body := some (pos : Int), remaining := 0 }

/-- A chunk that is there is taken with all that follows it. -/
theorem chunkData_eq {c : Chunk} {s : ReadLoop} {pos : Nat} {more : Bytes} (hremaining : s.remaining = c.data.length)
    (htext : s.memory.drop pos = c.data ++ more) :
    s.chunkData pos = .ok (.running (s.behind (pos + c.data.length + 2) (cstr (c.data ++ more)))) := by
  have hlength := congrArg List.length htext
  have hdata := List.length_pos_iff.mpr c.nonempty
  rw [List.length_drop, List.length_append] at hlength
  have hroom : s.remaining ≤ s.room pos := by
    unfold ReadLoop.room
    omega
  have hline : s.textAt pos = .ok (cstr (c.data ++ more)) := by
    unfold ReadLoop.textAt
    rw [if_pos ⟨Int.natCast_nonneg pos, by omega⟩, Int.toNat_natCast, htext]
  unfold ReadLoop.chunkData ReadLoop.behind
  rw [if_pos hroom, hline, hremaining]
  push_cast
  rfl

/-- The loop over the chunks when all of them have come. -/
theorem readChunks_eq {last : SizeText 0} (chunks : List Chunk) {fuel : Nat} (hfuel : chunks.length < fuel)
    {s : ReadLoop} {pos : Nat} (hbody : s.body = some (pos : Int)) (hremaining : s.remaining = 0)
    (htext : s.memory.drop pos = chunksText chunks last) (hsmall : s.memory.length < 2 ^ 31) :
    s.readChunks fuel = .ok (.ended (s.result ++ collected last chunks)) := by
  induction chunks generalizing fuel s pos with
  | nil =>
    obtain ⟨fuel, rfl⟩ := Nat.exists_eq_add_of_lt hfuel
    have hsize := @chunkSize_eq _ last s pos crlf hremaining htext (by decide)
    have hpos : s.body.getD 0 = pos := by rw [hbody]; rfl
    rw [ReadLoop.readChunks]
    unfold ReadLoop.chunkRound
    rw [hpos, hsize, if_pos Nat.cast_zero]
    unfold collected
    rw [List.append_nil]
    rfl
  | cons c chunks ih =>
    obtain ⟨fuel, rfl⟩ := Nat.exists_eq_add_of_lt hfuel
    rw [chunksText_cons] at htext
    have hlength := congrArg List.length htext
    have hdata := List.length_pos_iff.mpr c.nonempty
    simp only [List.length_drop, List.length_append] at hlength
    have hcrlf : crlf.length = 2 := rfl
    have hsize := chunkSize_eq c.size hremaining htext (by omega)
    have hpos : s.body.getD 0 = pos := by rw [hbody]; rfl
    rw [if_neg (by omega)] at hsize
    have hdrop : s.memory.drop (pos + c.size.text.length + 2) = c.data ++ crlf ++ chunksText chunks last := by
      have hskip : (c.size.text ++ crlf).length = c.size.text.length + 2 := List.length_append
      rw [Nat.add_assoc, ← List.drop_drop, htext]
      exact List.drop_left' hskip
    have hnext : s.memory.drop (pos + c.size.text.length + 2 + c.data.length + 2) = chunksText chunks last := by
      have hskip : (c.data ++ crlf).length = c.data.length + 2 := List.length_append
      rw [Nat.add_assoc _ c.data.length, ← List.drop_drop, hdrop]
      exact List.drop_left' hskip
    rw [List.append_assoc] at hdrop
    have htake := @chunkData_eq c
      { s with remaining := c.data.length, body := some ((pos + c.size.text.length + 2 : Nat) : Int) } _ _ rfl hdrop
    have hround : s.chunkRound = .ok (.running (s.behind (pos + c.size.text.length + 2 + c.data.length + 2)
        (cstr (c.data ++ (crlf ++ chunksText chunks last))))) := by
      unfold ReadLoop.chunkRound
      rw [hpos, hsize]
      exact htake
    have hrest := @ih ((c :: chunks).length + fuel) (by rw [List.length_cons]; omega)
      (s.behind (pos + c.size.text.length + 2 + c.data.length + 2) (cstr (c.data ++ (crlf ++ chunksText chunks last))))
      _ rfl rfl hnext hsmall
    rw [ReadLoop.readChunks, hround]
    refine Eq.trans hrest ?_
    rw [collected, ReadLoop.behind]
    dsimp only
    rw [List.append_assoc, List.append_assoc]

theorem zero_notMem_collected (last : SizeText 0) (chunks : List Chunk) : (0 : Byte) ∉ collected last chunks := by
  induction chunks with
  | nil => exact List.not_mem_nil
  | cons c chunks ih =>
    rw [collected, List.mem_append]
    rintro (h | h)
    · exact zero_notMem_cstr _ h
    · exact ih h

theorem zero_notMem_chunksText {chunks : List Chunk} (h : (0 : Byte) ∉ chunks.flatMap Chunk.data) (last : SizeText 0) :
    (0 : Byte) ∉ chunksText chunks last := by
  have hcrlf : (0 : Byte) ∉ crlf := by decide
  induction chunks with
  | nil =>
    unfold chunksText
    simp only [List.flatMap_nil, List.nil_append, List.mem_append, not_or]
    exact ⟨⟨(size_plain last).2, hcrlf⟩, hcrlf⟩
  | cons c chunks ih =>
    rw [List.flatMap_cons, List.mem_append, not_or] at h
    rw [chunksText_cons]
    simp only [List.mem_append, not_or]
    exact ⟨⟨(size_plain c.size).2, hcrlf⟩, ⟨h.1, hcrlf⟩, ih h.2⟩

/-- Without a NUL every chunk adds at least its own line end. -/
theorem length_collected {chunks : List Chunk} (h : (0 : Byte) ∉ chunks.flatMap Chunk.data) (last : SizeText 0) :
    (chunks.flatMap Chunk.data).length + 2 * chunks.length ≤ (collected last chunks).length := by
  induction chunks with
  | nil => exact Nat.zero_le _
  | cons c chunks ih =>
    rw [List.flatMap_cons, List.mem_append, not_or] at h
    have hzero : (0 : Byte) ∉ c.data ++ crlf ++ chunksText chunks last := by
      have hcrlf : (0 : Byte) ∉ crlf := by decide
      simp only [List.mem_append, not_or]
      exact ⟨⟨h.1, hcrlf⟩, zero_notMem_chunksText h.2 last⟩
    have ih := ih h.2
    have hcrlf : crlf.length = 2 := rfl
    rw [collected, cstr_eq_self_iff.mpr hzero]
    simp only [List.flatMap_cons, List.length_append, List.length_cons]
    omega

theorem collected_ne {chunks : List Chunk} (h : chunks ≠ []) (last : SizeText 0) :
    collected last chunks ≠ chunks.flatMap Chunk.data := by
  intro heq
  by_cases hzero : (0 : Byte) ∈ chunks.flatMap Chunk.data
  · exact zero_notMem_collected last chunks (heq ▸ hzero)
  · have hle := length_collected hzero last
    have hpos := List.length_pos_iff.mpr h
    rw [heq] at hle
    omega

theorem length_le_chunksText (chunks : List Chunk) (last : SizeText 0) :
    chunks.length ≤ (chunksText chunks last).length := by
  induction chunks with
  | nil => exact Nat.zero_le _
  | cons c chunks ih =>
    have hcrlf : crlf.length = 2 := rfl
    rw [chunksText_cons]
    simp only [List.length_append, List.length_cons]
    omega

/-- A response that comes at once is collected with all that follows each chunk. -/
theorem run_chunks {chunks : List Chunk} {last : SizeText 0} (hf : r.framing = .chunked chunks last) :
    ReadLoop.run {} [r.bytes] = .ok (.ended (collected last chunks)) := by
  have hlong : r.head.length + 4 ≤ r.bytes.length := by
    rw [bytes_length]
    exact Nat.le_add_right _ _
  have hpayload : r.framing.payload = chunksText chunks last := by rw [hf]; rfl
  obtain ⟨hbody, hencoding, hremaining, hresult, hmemory⟩ := stateAt_found hlong
  have hannounced : r.framing.announced = (.chunked, 0) := by rw [hf]; rfl
  rw [hannounced] at hencoding hremaining
  have htext : (stateAt r r.bytes).memory.drop (r.head.length + 4) = chunksText chunks last := by
    rw [hmemory, List.drop_set_of_lt (by omega), drop_head, hpayload]
  have hfits := framing_fits r
  have hlength := stateAt_length r r.bytes
  have hcount := length_le_chunksText chunks last
  have hstart := @run_cons r [] r.bytes [] (List.prefix_refl _)
  rw [List.nil_append, stateAt_nil] at hstart
  have htake : (stateAt r r.bytes).takeBody = .ok (.ended (collected last chunks)) := by
    unfold ReadLoop.takeBody
    rw [hbody]
    dsimp only
    rw [hencoding]
    dsimp only
    rw [bytes_length] at hlength
    rw [hpayload] at hfits hlength
    rw [readChunks_eq chunks (by omega) hbody hremaining htext (by omega), hresult]
    rfl
  rw [hstart, htake]
  rfl

/-- A response is decoded for all cuts exactly if its framing is readable. -/
theorem decoded_iff (r : HttpResponse) : r.Decoded ↔ r.framing.Readable := by
  have hne : ([] : Bytes) ≠ r.bytes := by
    intro hnil
    have hlength := congrArg List.length hnil
    rw [bytes_length, List.length_nil] at hlength
    omega
  have hwhole : ∀ piece ∈ [r.bytes], piece ≠ [] := List.forall_mem_singleton.mpr hne.symm
  cases hf : r.framing with
  | length body =>
    constructor
    · intro h
      have hrun := h [r.bytes] hwhole List.flatten_singleton
      have hrun' := @run_ended r _ (fun _ => takeBody_length hf) [r.bytes] [] List.flatten_singleton hne
      rw [stateAt_nil, hrun, hf] at hrun'
      exact cstr_eq_self_iff.mp (Progress.ended.inj (Except.ok.inj hrun')).symm
    · intro hzero cuts _ hcuts
      have hrun := @run_ended r _ (fun _ => takeBody_length hf) cuts [] hcuts hne
      rw [stateAt_nil, cstr_eq_self_iff.mpr hzero] at hrun
      rw [hrun, hf]
      rfl
  | lowerLength body =>
    refine iff_of_false (fun h => ?_) not_false
    have hrun := h [r.bytes] hwhole List.flatten_singleton
    have hrun' := @run_lower r body hf [r.bytes] [] List.flatten_singleton
    rw [stateAt_nil, hrun] at hrun'
    cases hrun'
  | chunked chunks last =>
    constructor
    · intro h
      by_contra hchunks
      have hrun := h [r.bytes] hwhole List.flatten_singleton
      rw [run_chunks hf, hf] at hrun
      exact collected_ne hchunks last (Progress.ended.inj (Except.ok.inj hrun))
    · intro hchunks cuts _ hcuts
      obtain rfl : chunks = [] := hchunks
      have hrun := @run_ended r _ (fun _ => takeBody_empty hf) cuts [] hcuts hne
      rw [stateAt_nil] at hrun
      rw [hrun, hf]
      rfl

/-- What `send_400` writes. -/
def badRequest : HttpResponse where
  status := lit "HTTP/1.1 400 Bad Request"
  front := [lit "Connection: close"]
  framing := .lowerLength (lit "Bad Request")
  back := []
  status_line := ⟨List.cons_ne_nil _ _, by decide⟩
  front_lines := List.forall_mem_singleton.mpr ⟨List.cons_ne_nil _ _, by decide, by decide, by decide⟩
  back_lines := fun _ h => absurd h List.not_mem_nil
  fits := by decide

example : badRequest.bytes =
    lit "HTTP/1.1 400 Bad Request\r\nConnection: close\r\nContent-length: 11\r\n\r\nBad Request" := by
  decide

/-- One byte as a chunk. -/
def oneChunk : HttpResponse where
  status := lit "HTTP/1.1 200 OK"
  front := []
  framing := .chunked
    [⟨lit "a", List.cons_ne_nil _ _,
      ⟨lit "1", List.cons_ne_nil _ _, List.forall_mem_singleton.mpr (by decide), by decide⟩⟩]
    ⟨lit "0", List.cons_ne_nil _ _, List.forall_mem_singleton.mpr (by decide), by decide⟩
  back := []
  status_line := ⟨List.cons_ne_nil _ _, by decide⟩
  front_lines := fun _ h => absurd h List.not_mem_nil
  back_lines := fun _ h => absurd h List.not_mem_nil
  fits := by decide

/-- The length of an error page is not found, and of a chunk the line end is taken too. -/
theorem decoded_wrong : ¬ badRequest.Decoded ∧ ¬ oneChunk.Decoded := by
  constructor
  · intro h
    have hne : badRequest.bytes ≠ [] := List.cons_ne_nil _ _
    have hrun := h [badRequest.bytes] (List.forall_mem_singleton.mpr hne) List.flatten_singleton
    have hrun' := @run_lower badRequest _ rfl [badRequest.bytes] [] List.flatten_singleton
    rw [stateAt_nil, hrun] at hrun'
    cases hrun'
  · intro h
    have hne : oneChunk.bytes ≠ [] := List.cons_ne_nil _ _
    have hrun := h [oneChunk.bytes] (List.forall_mem_singleton.mpr hne) List.flatten_singleton
    rw [@run_chunks oneChunk _ _ rfl] at hrun
    exact collected_ne (List.cons_ne_nil _ _) _ (Progress.ended.inj (Except.ok.inj hrun))

end Jericho.Server
