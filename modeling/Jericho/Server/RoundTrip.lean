import Jericho.Server.Wire

/-! Which messages arrive as they were sent. -/
namespace Jericho.Server
open StdText Util Message Crypt
variable (prizm : Prizm) (bio : Base64Filter)

theorem ne_nil_of_fieldLine (f : Field) : fieldLine f ≠ [] := by
  unfold fieldLine
  rw [List.append_assoc]
  apply List.append_ne_nil_of_right_ne_nil
  exact List.append_ne_nil_of_left_ne_nil (by decide) _

theorem ne_nil_of_requestLineText (path word : Bytes) : requestLineText path word ≠ [] := by
  unfold requestLineText
  rw [List.append_assoc, List.append_assoc]
  exact List.append_ne_nil_of_left_ne_nil (by decide) _

/-- How `eval` divides written lines and a body. -/
theorem eval_lines {lines : List Bytes} {last body : Bytes} (hlines : ∀ l ∈ lines, Plain l ∧ l ≠ [])
    (hlast : Plain last ∧ last ≠ []) (client : Client)
    (hrec : cstr client.received = lines.flatMap (· ++ crlf) ++ last ++ crlf2 ++ body) :
    Request.eval prizm bio client =
      if body = [] then
        Request.parseHeaders prizm bio { client := client } ((lines ++ [last]).flatMap (· ++ crlf) ++ crlf)
      else match Occurrence.tokens crlf2 body with
        | [content] => Request.parseHeaders prizm bio { client := client, content := content }
            (lines.flatMap (· ++ crlf) ++ last)
        | _ => Request.parseHeaders prizm bio { client := client } [] := by
  have hno := crlf2_notInfix hlines hlast
  set head := lines.flatMap (· ++ crlf) ++ last with hhead
  have hfind : Occurrence.find crlf2 (head ++ crlf2 ++ body) = some head.length :=
    Occurrence.find_append (by decide) _ _ hno
  have hne : head ≠ [] := List.append_ne_nil_of_right_ne_nil _ hlast.2
  have htokens : Occurrence.tokens crlf2 (head ++ crlf2 ++ body) = head :: Occurrence.tokens crlf2 body :=
    Occurrence.tokens_append (by decide) hne _ hno
  have hlen : (head ++ crlf2 ++ body).length = head.length + 4 + body.length := by
    simp [crlf2, crlf]
    omega
  have hbound : head.length + 4 + body.length ≤ maxRequestSize := by
    rw [← hlen, ← hrec]
    exact (cstr_length_le _).trans client.fits
  have hmax : maxRequestSize = 490000 := rfl
  have hpos : (head.length + 4 + body.length + 2^64 - 4) % 2^64 = head.length + body.length := by omega
  have hvalid : (head.length ≠ npos) = True := by
    rw [eq_iff_iff, iff_true, npos]
    omega
  unfold Request.eval
  rw [client.cstr_request, hrec]
  dsimp only
  rw [hfind]
  simp only [Option.getD_some, hlen, hpos, htokens, hvalid, decide_true]
  by_cases hb : body = []
  · have hsame : ¬ head.length ≠ head.length + body.length := by simp [hb]
    rw [if_neg hsame, if_pos hb]
    simp [hb, hhead, crlf2]
  · have hdiff : head.length ≠ head.length + body.length := by
      have := List.length_pos_iff.mpr hb
      omega
    rw [if_pos hdiff, if_neg hb]
    rcases Occurrence.tokens crlf2 body with _ | ⟨c, _ | ⟨d, cs⟩⟩ <;> rfl

/-- Without header text the request line stays empty. -/
theorem parseHeaders_nil (req : Request) :
    ∃ r, Request.parseHeaders prizm bio req [] = .ok r ∧ r.path = [] ∧ r.protocol = [] ∧ r.content = req.content := by
  have hwords : headerWords [] = [] := rfl
  have hfill : fillRequest ⟨req, ∅, ∅⟩ {} =
      .ok { req with method := [], path := [], protocol := [], headers := ∅ } := by simp [fillRequest]
  have hpost : ¬ ([] : Bytes) = lit "POST" := by decide
  refine ⟨{ req with method := [], path := [], protocol := [], headers := ∅ }, ?_, rfl, rfl, rfl⟩
  refine bind_eq_ok.mpr ⟨⟨req, ∅, ∅⟩, by rw [hwords]; rfl, ?_⟩
  refine bind_eq_ok.mpr ⟨_, by rw [hwords]; exact hfill, ?_⟩
  simp [splitQuery, Occurrence.find, readContent, hpost]

variable {prizm}

/-- The content `eval` cuts out of a body: nothing, or its single piece. -/
def BodyContent (body content : Bytes) : Prop :=
  body = [] ∧ content = [] ∨ body ≠ [] ∧ Occurrence.tokens crlf2 body = [content]

/-- A body of one piece is read back with its headers when the numeric headers are numbers; a
body of several pieces loses the request line. -/
theorem eval_written (hp : prizm.Documented) (client : Client) {path word body : Bytes} {fs : List Field}
    (hf : ∀ f ∈ fs, PlainField f) (hpath : RequestWord path) (hplain : Plain path)
    (hquery : (63 : Byte) ∉ path) (hword : RequestWord word) (hwplain : Plain word)
    (hrec : cstr client.received =
      (requestLineText path word :: fs.map fieldLine).flatMap (· ++ crlf) ++ crlf ++ body) :
    (∀ content, BodyContent body content →
      ((∃ r, Request.eval prizm bio client = .ok r) ↔ NumbersReadable fs) ∧
      ∀ r, Request.eval prizm bio client = .ok r → ReadBack path word content fs r) ∧
    ((¬ ∃ content, BodyContent body content) →
      ∀ r, Request.eval prizm bio client = .ok r → r.protocol = []) := by
  have hall : ∀ l ∈ requestLineText path word :: fs.map fieldLine, Plain l ∧ l ≠ [] := by
    intro l hl
    rcases List.mem_cons.mp hl with rfl | hl
    · refine ⟨?_, ne_nil_of_requestLineText path word⟩
      exact ((Plain.append (by decide) hplain).append (by decide)).append hwplain
    · obtain ⟨f, hm, rfl⟩ := List.mem_map.mp hl
      exact ⟨(hf f hm).line, ne_nil_of_fieldLine f⟩
  obtain ⟨lines, last, hsplit⟩ := (List.eq_nil_or_concat (requestLineText path word :: fs.map fieldLine)).resolve_left
    (List.cons_ne_nil _ _)
  rw [List.concat_eq_append] at hsplit
  rw [hsplit] at hall
  have hlines : ∀ l ∈ lines, Plain l ∧ l ≠ [] := fun l hl => hall l (by simp [hl])
  have hlast : Plain last ∧ last ≠ [] := hall last (by simp)
  have heval := eval_lines prizm bio hlines hlast client
    (show _ = _ ++ _ ++ crlf2 ++ body by rw [hrec, hsplit]; simp [crlf2])
  have hblank : ∃ words, headerWords ((lines ++ [last]).flatMap (· ++ crlf) ++ crlf) = words ++ [[13]] ∧
      List.Forall₂ LineOf words (requestLineText path word :: fs.map fieldLine) := by
    rw [hsplit]
    exact headerWords_blank (fun l hl => (hall l hl).1)
  obtain ⟨words, hwords, hwall⟩ := hblank
  have hcut : List.Forall₂ LineOf (headerWords (lines.flatMap (· ++ crlf) ++ last))
      (requestLineText path word :: fs.map fieldLine) := by
    rw [hsplit]
    exact headerWords_lines (fun l hl => (hlines l hl).1) hlast.1 hlast.2
  constructor
  · rintro content (⟨hb, rfl⟩ | ⟨hb, hc⟩)
    · rw [if_pos hb] at heval
      rw [heval]
      exact parseHeaders_lines bio hp { client := client } (.inr hwords) hwall hf hpath hquery hword
    · rw [if_neg hb, hc] at heval
      rw [heval]
      exact parseHeaders_lines bio hp { client := client, content := content } (.inl rfl) hcut hf hpath hquery hword
  · intro hno r hr
    have hb : body ≠ [] := fun h => hno ⟨[], .inl ⟨h, rfl⟩⟩
    rw [if_neg hb] at heval
    have hdrop : Request.eval prizm bio client = Request.parseHeaders prizm bio { client := client } [] := by
      rw [heval]
      rcases htok : Occurrence.tokens crlf2 body with _ | ⟨c, _ | ⟨d, cs⟩⟩
      · rfl
      · exact absurd ⟨c, .inr ⟨hb, htok⟩⟩ hno
      · rfl
    obtain ⟨q, hq, -, hqw, -⟩ := parseHeaders_nil prizm bio { client := client }
    rw [hdrop, hq] at hr
    obtain rfl := Except.ok.inj hr
    exact hqw

variable {bio}

/-- A message whose headers and path keep to their places on the wire. -/
structure WireMessage (hostname port path : Bytes) (buf : MessageBuffer) : Prop where
  protocol : buf.protocol = lit "https" ∨ buf.protocol = lit "job"
  hostname : Plain hostname
  port : Plain port
  headers : ∀ h ∈ buf.headers.entries, PlainField h
  path : ∀ c ∈ path, isspace c = false ∧ c ≠ 63

/-- The message leaves room for the terminating NUL. -/
def Fits (hostname port path : Bytes) (buf : MessageBuffer) (body : Bytes) : Prop :=
  ∀ head, requestHead hostname port path buf = .ok head → head.length + body.length < 490000

/-- All headers of a message in the order they are written. -/
def allFields (hostname port : Bytes) (buf : MessageBuffer) : List Field :=
  fixedHeaders hostname port buf ++ buf.headers.entries

/-- The numeric headers of the sender's own map can be read by the receiver. -/
structure ReadableHeaders (headers : StrMap) : Prop where
  size : ∀ v, headers.lookup (lit "Content-Size") = some v → v.all isdigit → ∃ n, stoi v = .ok n
  callback : (∃ k ∈ headers.keys, isCallbackKey k) → ∀ k ∈ callbackNumbers, ∃ n, stoi (headers.get k) = .ok n

theorem WireMessage.word {hostname port path : Bytes} {buf : MessageBuffer}
    (hm : WireMessage hostname port path buf) :
    ∃ word, protocolWord buf.protocol = .ok word ∧ RequestWord word ∧ Plain word ∧ word ≠ [] := by
  rcases hm.protocol with h | h
  · exact ⟨lit "HTTP/1.1", by rw [h]; decide, by decide, by decide, by decide⟩
  · exact ⟨lit "JOB", by rw [h]; decide, by decide, by decide, by decide⟩

def fixedKeys : List Bytes :=
  [lit "Host", lit "Connection", lit "User-Agent", lit "Jericho", lit "Content-Type", lit "Content-Size",
    lit "Content-Encoding"]

/-- The fixed headers: known keys, and values that are the host, the length or plain constants. -/
theorem fixedHeaders_spec (hostname port : Bytes) (buf : MessageBuffer) {f : Field}
    (hf : f ∈ fixedHeaders hostname port buf) :
    f.1 ∈ fixedKeys ∧ (f.1 = lit "Content-Size" → f.2 = decimal buf.sent.length) ∧
      (f.2 = cstr hostname ++ lit ":" ++ cstr port ∨ f.2 = decimal buf.sent.length ∨ Plain f.2) := by
  unfold fixedHeaders at hf
  split at hf
  · simp only [List.cons_append, List.nil_append, List.mem_cons, List.not_mem_nil, or_false] at hf
    rcases hf with rfl | rfl | rfl | rfl | rfl | rfl | rfl
    all_goals dsimp only
    · exact ⟨by decide, fun h => absurd h (by decide), .inl rfl⟩
    · exact ⟨by decide, fun h => absurd h (by decide), .inr (.inr (by decide))⟩
    · exact ⟨by decide, fun h => absurd h (by decide), .inr (.inr (by decide))⟩
    · exact ⟨by decide, fun h => absurd h (by decide), .inr (.inr (by decide))⟩
    · exact ⟨by decide, fun h => absurd h (by decide), .inr (.inr (by decide))⟩
    · exact ⟨by decide, fun _ => rfl, .inr (.inl rfl)⟩
    · exact ⟨by decide, fun h => absurd h (by decide), .inr (.inr (by decide))⟩
  · simp only [List.cons_append, List.nil_append, List.mem_cons, List.not_mem_nil, or_false] at hf
    rcases hf with rfl | rfl | rfl | rfl | rfl
    all_goals dsimp only
    · exact ⟨by decide, fun h => absurd h (by decide), .inl rfl⟩
    · exact ⟨by decide, fun h => absurd h (by decide), .inr (.inr (by decide))⟩
    · exact ⟨by decide, fun h => absurd h (by decide), .inr (.inr (by decide))⟩
    · exact ⟨by decide, fun h => absurd h (by decide), .inr (.inr (by decide))⟩
    · exact ⟨by decide, fun _ => rfl, .inr (.inl rfl)⟩

private theorem fixedKeys_all : ∀ k ∈ fixedKeys, Plain k ∧ ¬ lit ": " <:+: k ∧ isCallbackKey k = false := by
  decide

theorem fixedHeaders_plain {hostname port : Bytes} (hh : Plain hostname) (hp : Plain port) (buf : MessageBuffer) :
    ∀ f ∈ fixedHeaders hostname port buf, PlainField f := by
  intro f hf
  obtain ⟨hkey, -, hval⟩ := fixedHeaders_spec hostname port buf hf
  obtain ⟨hk, hsep, -⟩ := fixedKeys_all _ hkey
  refine ⟨hk, ?_, hsep⟩
  rcases hval with h | h | h
  · rw [h, hh.cstr, hp.cstr]
    exact (hh.append (by decide)).append hp
  · rw [h]
    exact plain_decimal _
  · exact h

theorem WireMessage.fields {hostname port path : Bytes} {buf : MessageBuffer}
    (hm : WireMessage hostname port path buf) : ∀ f ∈ allFields hostname port buf, PlainField f := by
  intro f hf
  rcases List.mem_append.mp hf with h | h
  · exact fixedHeaders_plain hm.hostname hm.port buf f h
  · exact hm.headers f h

theorem flatMap_headerText {fs : List Field} (h : ∀ f ∈ fs, PlainField f) :
    fs.flatMap headerText = (fs.map fieldLine).flatMap (· ++ crlf) := by
  rw [List.flatMap_map]
  apply List.flatMap_congr
  intro f hf
  exact (h f hf).headerText

/-- The header text as lines. -/
theorem WireMessage.requestHead_eq {hostname port path : Bytes} {buf : MessageBuffer}
    (hm : WireMessage hostname port path buf) {word : Bytes} (hw : protocolWord buf.protocol = .ok word) :
    requestHead hostname port path buf =
      .ok ((requestLineText (cstr path) word :: (allFields hostname port buf).map fieldLine).flatMap (· ++ crlf) ++
        crlf) := by
  have hlines := flatMap_headerText hm.fields
  unfold requestHead
  rw [hw, List.flatMap_cons, ← hlines, allFields, List.flatMap_append]
  simp only [requestLineText, List.append_assoc]
  rfl

theorem fixedHeaders_nodupKeys (hostname port : Bytes) (buf : MessageBuffer) :
    (fixedHeaders hostname port buf).NodupKeys := by
  unfold fixedHeaders List.NodupKeys List.keys
  split
  · simp only [List.cons_append, List.nil_append, List.map_cons, List.map_nil]
    decide
  · simp only [List.cons_append, List.nil_append, List.map_cons, List.map_nil]
    decide

theorem dlookup_allFields (hostname port : Bytes) (buf : MessageBuffer) (k : Bytes) :
    (allFields hostname port buf).reverse.dlookup k =
      (buf.headers.lookup k).or ((fixedHeaders hostname port buf).dlookup k) := by
  rw [allFields, List.reverse_append, List.dlookup_append, StrMap.dlookup_reverse_entries]
  rw [← List.perm_dlookup k (fixedHeaders_nodupKeys hostname port buf) (List.reverse_perm _).symm]

theorem readSize_isOk_iff (v : Bytes) :
    (∃ n, readSize v = .ok n) ↔ (v.all isdigit → ∃ n, stoi v = .ok n) := by
  unfold readSize
  by_cases h : v.all isdigit <;> simp [h]

theorem dlookup_fixedHeaders_callback (hostname port : Bytes) (buf : MessageBuffer) {k : Bytes}
    (hk : isCallbackKey k) : (fixedHeaders hostname port buf).dlookup k = none := by
  rw [List.dlookup_eq_none]
  intro hmem
  obtain ⟨v, hv⟩ := List.exists_of_mem_keys hmem
  have hkey := (fixedHeaders_spec hostname port buf hv).1
  have := (fixedKeys_all _ hkey).2.2
  simp [hk] at this

theorem get_allFields (hostname port : Bytes) (buf : MessageBuffer) {k : Bytes} (hk : isCallbackKey k) :
    StrMap.get (StrMap.assign ∅ (allFields hostname port buf)) k = buf.headers.get k := by
  unfold StrMap.get
  rw [StrMap.lookup_assign, dlookup_allFields, dlookup_fixedHeaders_callback hostname port buf hk]
  simp

/-- The numeric headers the sender adds can be read; only its own map can spoil them. -/
theorem numbersReadable_iff (hostname port : Bytes) {buf : MessageBuffer} (hlen : buf.sent.length < 2^31) :
    NumbersReadable (allFields hostname port buf) ↔ ReadableHeaders buf.headers := by
  have hkeys : ∀ k ∈ callbackNumbers, isCallbackKey k := by decide
  have hmem : (∃ f ∈ allFields hostname port buf, isCallbackKey f.1) ↔
      ∃ k ∈ buf.headers.keys, isCallbackKey k := by
    constructor
    · rintro ⟨f, hf, hc⟩
      rcases List.mem_append.mp hf with h | h
      · have := (fixedKeys_all _ (fixedHeaders_spec hostname port buf h).1).2.2
        simp [hc] at this
      · exact ⟨f.1, List.mem_keys_of_mem h, hc⟩
    · rintro ⟨k, hk, hc⟩
      obtain ⟨v, hv⟩ := List.exists_of_mem_keys hk
      exact ⟨⟨k, v⟩, List.mem_append_right _ hv, hc⟩
  constructor
  · rintro ⟨hsize, hcb⟩
    refine ⟨fun v hv => ?_, fun h k hk => ?_⟩
    · rw [← readSize_isOk_iff]
      exact hsize ⟨_, v⟩ (List.mem_append_right _ (AList.mem_lookup_iff.mp hv)) rfl
    · rw [← get_allFields hostname port buf (hkeys k hk)]
      exact hcb (hmem.mpr h) k hk
  · rintro ⟨hsize, hcb⟩
    refine ⟨fun f hf hk => ?_, fun h k hk => ?_⟩
    · rw [readSize_isOk_iff]
      rcases List.mem_append.mp hf with h | h
      · rw [(fixedHeaders_spec hostname port buf h).2.1 hk]
        exact fun _ => ⟨_, stoi_decimal hlen⟩
      · obtain ⟨k, v⟩ := f
        obtain rfl : k = _ := hk
        exact hsize v (AList.mem_lookup_iff.mpr h)
    · rw [get_allFields hostname port buf (hkeys k hk)]
      exact hcb (hmem.mp h) k hk

/-- A received request carries what was sent. -/
structure Arrived (hostname port path : Bytes) (buf : MessageBuffer) (r : Request) : Prop where
  path_eq : r.path = path
  protocol_eq : protocolWord buf.protocol = .ok r.protocol
  lookup_eq : ∀ k, r.headers.lookup k = (buf.headers.lookup k).or ((fixedHeaders hostname port buf).dlookup k)
  content_eq : r.content = buf.sent

/-- The written bytes, in the receive buffer of the other node, give back what was sent. -/
def RoundTrip (prizm : Prizm) (bio : Base64Filter) (buffer : StackBuffer) (hostname port path : Bytes)
    (buf : MessageBuffer) : Prop :=
  ∃ (client : Client) (r : Request), sendRequest bio buffer hostname port path buf = .ok client.received ∧
    Request.eval prizm bio client = .ok r ∧ Arrived hostname port path buf r

theorem WireMessage.path_plain {hostname port path : Bytes} {buf : MessageBuffer}
    (hm : WireMessage hostname port path buf) :
    Plain (cstr path) ∧ RequestWord (cstr path) ∧ (63 : Byte) ∉ cstr path := by
  have hsub : ∀ c ∈ cstr path, c ∈ path := fun c hc => (cstr_isPrefix path).subset hc
  refine ⟨fun c hc => ?_, fun c hc => ?_, fun hc => (hm.path _ (hsub _ hc)).2 rfl⟩
  · have hsp := (hm.path c (hsub c hc)).1
    refine ⟨?_, ?_, fun h => zero_notMem_cstr path (h ▸ hc)⟩ <;> rintro rfl <;> revert hsp <;> decide
  · have hsp := (hm.path c (hsub c hc)).1
    refine ⟨?_, ?_, ?_⟩ <;> rintro rfl <;> revert hsp <;> decide

/-- The header text is NUL-free: every part is written as a C string. -/
theorem zero_notMem_requestHead {hostname port path : Bytes} {buf : MessageBuffer} {head : Bytes}
    (hh : requestHead hostname port path buf = .ok head) : (0 : Byte) ∉ head := by
  have hfields : ∀ fs : List Field, (0 : Byte) ∉ fs.flatMap headerText := by
    intro fs
    simp only [headerText, List.mem_flatMap, List.mem_append, not_exists, not_and, not_or]
    intro f _
    exact ⟨⟨⟨zero_notMem_cstr _, by decide⟩, zero_notMem_cstr _⟩, by decide⟩
  obtain ⟨word, hword, hh⟩ := bind_eq_ok.mp hh
  obtain rfl := Except.ok.inj hh
  have hzero : (0 : Byte) ∉ word := by
    unfold protocolWord at hword
    split_ifs at hword with h1 h2
    · obtain rfl := Except.ok.inj hword
      decide
    · obtain rfl := Except.ok.inj hword
      decide
  simp only [List.mem_append, not_or]
  exact ⟨⟨⟨⟨⟨⟨⟨by decide, zero_notMem_cstr _⟩, by decide⟩, hzero⟩, by decide⟩, hfields _⟩, hfields _⟩, by decide⟩

/-- What a successful send wrote. -/
theorem sendRequest_ok_iff {buffer : StackBuffer} {hostname port path : Bytes} {buf : MessageBuffer}
    {bytes : Bytes} : sendRequest bio buffer hostname port path buf = .ok bytes ↔ inInt buf.sent.length ∧
      ∃ head body, requestHead hostname port path buf = .ok head ∧
        formatPlain (cstr (if buf.type = lit "bin" then encodeUrl bio buf.sent else buf.sent)) = .ok body ∧
        (head ++ body).length < 490000 ∧
        bytes = if buf.type = lit "bin" then head ++ body ++ 0 :: buffer.bytes.drop ((head ++ body).length + 1)
          else head ++ body := by
  simp only [sendRequest, headerSection_eq_ok, bind_eq_ok, buffer.size]
  constructor
  · rintro ⟨head, ⟨hint, hh, -⟩, body, hb, h⟩
    refine ⟨hint, head, body, hh, hb, ?_⟩
    split_ifs at h with h1 h2
    · obtain rfl := Except.ok.inj h
      exact ⟨not_le.mp h1, by rw [if_pos h2]⟩
    · obtain rfl := Except.ok.inj h
      exact ⟨not_le.mp h1, by rw [if_neg h2]⟩
  · rintro ⟨hint, head, body, hh, hb, hlen, rfl⟩
    have hhead : head.length < 490000 := (List.prefix_append head body).length_le.trans_lt hlen
    refine ⟨head, ⟨hint, hh, hhead⟩, body, hb, ?_⟩
    rw [if_neg (not_le.mpr hlen)]
    split <;> rfl

/-- What the reader sees of the written bytes, of either type. -/
theorem cstr_sent {hostname port path : Bytes} {buf : MessageBuffer} {head body : Bytes} {s : Bytes}
    (hh : requestHead hostname port path buf = .ok head) (hb : formatPlain (cstr s) = .ok body)
    (junk : Bytes) : cstr (head ++ body) = head ++ body ∧ cstr (head ++ body ++ 0 :: junk) = head ++ body := by
  have hzero : (0 : Byte) ∉ head ++ body := by
    rw [List.mem_append, not_or]
    exact ⟨zero_notMem_requestHead hh, fun h => zero_notMem_cstr s (mem_of_formatPlain hb 0 h)⟩
  exact ⟨cstr_eq_self_iff.mpr hzero, cstr_append_zero hzero junk⟩

/-- Reading a written header text and a body. -/
theorem arrived_iff (hp : prizm.Documented) {hostname port path : Bytes} {buf : MessageBuffer}
    (hm : WireMessage hostname port path buf) (hlen : buf.sent.length < 2^31) {head body : Bytes}
    (hh : requestHead hostname port path buf = .ok head) (client : Client)
    (hrec : cstr client.received = head ++ body) :
    (∃ r, Request.eval prizm bio client = .ok r ∧ Arrived hostname port path buf r) ↔
      (0 : Byte) ∉ path ∧ ReadableHeaders buf.headers ∧ BodyContent body buf.sent := by
  obtain ⟨word, hw, hrw, hwp, hwne⟩ := hm.word
  rw [hm.requestHead_eq hw] at hh
  obtain rfl := Except.ok.inj hh
  obtain ⟨hpp, hprw, hpq⟩ := hm.path_plain
  obtain ⟨hone, hmany⟩ := eval_written bio hp client hm.fields hprw hpp hpq hrw hwp hrec
  rw [← numbersReadable_iff hostname port hlen, ← cstr_eq_self_iff]
  constructor
  · rintro ⟨r, hr, harr⟩
    have hrp : r.protocol = word := Except.ok.inj (harr.protocol_eq.symm.trans hw)
    by_cases hpiece : ∃ content, BodyContent body content
    · obtain ⟨content, hcontent⟩ := hpiece
      obtain ⟨hiff, hread⟩ := hone content hcontent
      have hback := hread r hr
      rw [harr.content_eq.symm.trans hback.content_eq]
      exact ⟨hback.path_eq.symm.trans harr.path_eq, hiff.mp ⟨r, hr⟩, hcontent⟩
    · exact absurd (hrp.symm.trans (hmany hpiece r hr)) hwne
  · rintro ⟨hpath, hnum, hbody⟩
    obtain ⟨hiff, hread⟩ := hone buf.sent hbody
    obtain ⟨r, hr⟩ := hiff.mpr hnum
    have hback := hread r hr
    refine ⟨r, hr, hback.path_eq.trans hpath, by rw [hw, hback.protocol_eq], ?_, hback.content_eq⟩
    intro k
    rw [hback.lookup_eq, dlookup_allFields]

theorem length_le_of_tokens {s body : Bytes} (h : Occurrence.tokens crlf2 body = [s]) :
    s.length ≤ body.length := by
  have hmem : s ∈ Occurrence.tokens crlf2 body := by simp [h]
  exact Occurrence.length_le_of_mem_split (by decide) body s (List.mem_of_mem_filter hmem)

/-- Every step of writing and cutting a text can only shorten it, so a text that arrives
whole met nothing that shortens it. -/
theorem sent_intact {s body : Bytes} (hb : formatPlain (cstr s) = .ok body)
    (h : Occurrence.tokens crlf2 body = [s]) :
    (0 : Byte) ∉ s ∧ (37 : Byte) ∉ s ∧ ¬ crlf2 <:+: s := by
  have h1 := length_le_of_tokens h
  have h2 := formatPlain_length hb
  have h3 := cstr_length_le s
  have hlen : (cstr s).length = s.length := by omega
  have hcstr : cstr s = s := (List.takeWhile_prefix _).eq_of_length hlen
  have hpercent : (37 : Byte) ∉ s := by
    intro hm
    rw [hcstr] at h2
    have := h2.2 hm
    omega
  rw [hcstr, formatPlain_of_notMem hpercent] at hb
  obtain rfl := Except.ok.inj hb
  exact ⟨cstr_eq_self_iff.mp hcstr, hpercent, ((Occurrence.tokens_eq_singleton_iff (by decide)).mp h).2⟩

theorem Fits.length_lt {hostname port path : Bytes} {buf : MessageBuffer} {body : Bytes}
    (hm : WireMessage hostname port path buf) (hfit : Fits hostname port path buf body) :
    ∃ head, requestHead hostname port path buf = .ok head ∧ head.length + body.length < 490000 := by
  obtain ⟨word, hw, -⟩ := hm.word
  exact ⟨_, hm.requestHead_eq hw, hfit _ (hm.requestHead_eq hw)⟩

/-- A text message arrives as it was sent exactly when its path is a C string, its content has
no NUL, no percent sign and no blank line, and its own numeric headers are numbers. -/
theorem text_round_trip_iff (hp : prizm.Documented) (buffer : StackBuffer) {hostname port path : Bytes}
    {buf : MessageBuffer} (hm : WireMessage hostname port path buf) (htext : buf.type ≠ lit "bin")
    (hfit : Fits hostname port path buf buf.sent) :
    RoundTrip prizm bio buffer hostname port path buf ↔
      (0 : Byte) ∉ path ∧ (0 : Byte) ∉ buf.sent ∧ (37 : Byte) ∉ buf.sent ∧ ¬ crlf2 <:+: buf.sent ∧
        ReadableHeaders buf.headers := by
  obtain ⟨head, hh, hlt⟩ := hfit.length_lt hm
  have hlen : buf.sent.length < 2^31 := by omega
  constructor
  · rintro ⟨client, r, hs, hr, harr⟩
    obtain ⟨-, head', body, hh', hb, -, hrec⟩ := sendRequest_ok_iff.mp hs
    rw [if_neg htext] at hb hrec
    have hcstr : cstr client.received = head' ++ body := by
      rw [hrec]
      exact (cstr_sent hh' hb []).1
    obtain ⟨hpath, hnum, hbody⟩ := (arrived_iff hp hm hlen hh' client hcstr).mp ⟨r, hr, harr⟩
    rcases hbody with ⟨-, hnil⟩ | ⟨-, htok⟩
    · simp [hnil, hpath, hnum, crlf2, crlf]
    · obtain ⟨h0, hpercent, hblank⟩ := sent_intact hb htok
      exact ⟨hpath, h0, hpercent, hblank, hnum⟩
  · rintro ⟨hpath, h0, hpercent, hblank, hnum⟩
    have hb : formatPlain (cstr buf.sent) = .ok buf.sent := by
      rw [cstr_eq_self_iff.mpr h0]
      exact formatPlain_of_notMem hpercent
    have hfits : (head ++ buf.sent).length ≤ maxRequestSize := by
      rw [List.length_append]
      exact hlt.le
    let client : Client := ⟨head ++ buf.sent, hfits, []⟩
    have hbody : BodyContent buf.sent buf.sent := by
      by_cases hnil : buf.sent = []
      · exact .inl ⟨hnil, hnil⟩
      · exact .inr ⟨hnil, (Occurrence.tokens_eq_singleton_iff (by decide)).mpr ⟨hnil, hblank⟩⟩
    obtain ⟨r, hr, harr⟩ := (arrived_iff hp hm hlen hh client (cstr_sent hh hb []).1).mpr
      ⟨hpath, hnum, hbody⟩
    refine ⟨client, r, ?_, hr, harr⟩
    rw [sendRequest_ok_iff]
    refine ⟨inInt_nat.mpr hlen, head, buf.sent, hh, ?_, by rwa [List.length_append], ?_⟩
    · rw [if_neg htext]
      exact hb
    · rw [if_neg htext]

/-- A job message without headers of its own. -/
def jobMessage (type sent : Bytes) : MessageBuffer := { sent := sent, protocol := lit "job", type := type }

theorem jobMessage_wire (type sent : Bytes) :
    WireMessage (lit "localhost") (lit "8080") (lit "/sum") (jobMessage type sent) where
  protocol := .inr rfl
  hostname := by decide
  port := by decide
  headers := by simp [jobMessage]
  path := by
    have hall : (lit "/sum").all (fun c => isspace c = false ∧ c ≠ 63) = true := by decide
    exact fun c hc => of_decide_eq_true (List.all_eq_true.mp hall c hc)

theorem jobMessage_readable (type sent : Bytes) : ReadableHeaders (jobMessage type sent).headers where
  size := by simp [jobMessage]
  callback := by simp [jobMessage]

def StackBuffer.zeroed : StackBuffer := ⟨List.replicate 490000 0, List.length_replicate⟩

theorem text_round_trip_hello :
    RoundTrip Prizm.reference Base64Filter.reference StackBuffer.zeroed (lit "localhost") (lit "8080") (lit "/sum")
      (jobMessage (lit "text/plain") (lit "hello")) := by
  refine (text_round_trip_iff Prizm.reference_documented StackBuffer.zeroed (jobMessage_wire _ _) (by decide) ?_).mpr
    ⟨by decide, by decide, by decide, by decide, jobMessage_readable _ _⟩
  intro head hh
  obtain rfl := Except.ok.inj hh
  decide +kernel

/-- A content with a blank line inside is cut into three pieces and the headers are lost. -/
theorem text_round_trip_blank_line :
    ¬ RoundTrip Prizm.reference Base64Filter.reference StackBuffer.zeroed (lit "localhost") (lit "8080") (lit "/sum")
      (jobMessage (lit "text/plain") (lit "a\r\n\r\nb")) := by
  rintro ⟨client, r, hs, hr, harr⟩
  obtain ⟨-, head, body, hh, hb, -, hrec⟩ := sendRequest_ok_iff.mp hs
  obtain rfl : lit "a\r\n\r\nb" = body := Except.ok.inj hb
  have hcstr : cstr client.received = head ++ lit "a\r\n\r\nb" := by
    rw [hrec]
    exact (cstr_sent hh hb []).1
  have hbody := ((arrived_iff Prizm.reference_documented (jobMessage_wire _ _) (by decide) hh client hcstr).mp
    ⟨r, hr, harr⟩).2.2
  rcases hbody with ⟨h, -⟩ | ⟨-, h⟩
  · revert h
    decide
  · revert h
    decide

end Jericho.Server
