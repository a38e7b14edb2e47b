import Jericho.Server.RoundTrip

/-! Binary messages. The request line always says GET, so the receiver never reaches the
branch that decodes an octet stream. -/
namespace Jericho.Server
open StdText Util Message Crypt
variable {prizm : Prizm} {bio : Base64Filter}

theorem headerLine_rest {s s' : HeaderScan} {word : Bytes} (h : headerLine prizm s word = .ok s') :
    s'.rest = s.rest := by
  unfold headerLine at h
  split at h
  · exact (headerField_ok h).2.2
  · obtain rfl := Except.ok.inj h
    rfl

theorem foldlM_headerLine_rest {words : List Bytes} {s s' : HeaderScan}
    (h : words.foldlM (headerLine prizm) s = .ok s') : s'.rest = s.rest :=
  foldlM_ok (P := fun u => u.rest = s.rest) (fun _ _ _ _ hu hv => (headerLine_rest hv).trans hu) h rfl

/-- A text that starts with GET has GET as its method. -/
theorem method_of_get (rest : Bytes) :
    (((headerWords (lit "GET " ++ rest)).headD []).foldl RequestLine.read {}).method = lit "GET" := by
  obtain ⟨w, ws, hw⟩ := List.exists_cons_of_ne_nil (List.splitOnP_ne_nil (· == (10 : Byte)) rest)
  have hsplit : (lit "GET " ++ rest).splitOn 10 = (lit "GET " ++ w) :: ws := by
    have hget : lit "GET " = [71, 69, 84, 32] := by decide
    simp [List.splitOn, hget, List.splitOnP_cons_eq_if_modifyHead, hw]
  have hne : lit "GET " ++ w ≠ [] := List.append_ne_nil_of_left_ne_nil (by decide) _
  have hread : (lit "GET ").foldl RequestLine.read {} = ⟨1, lit "GET", [], []⟩ := by decide
  rw [headerWords, hsplit, List.filter_cons_of_pos (by rw [decide_eq_true_eq]; exact hne), List.headD_cons,
    List.foldl_append, hread]
  exact RequestLine.read_method Nat.one_pos

/-- On a GET request parsing leaves the content alone. -/
theorem parseHeaders_content {req r : Request} {headerStr : Bytes}
    (hget : headerStr = [] ∨ ∃ rest, headerStr = lit "GET " ++ rest)
    (h : Request.parseHeaders prizm bio req headerStr = .ok r) : r.content = req.content := by
  rcases hget with rfl | ⟨rest, rfl⟩
  · obtain ⟨q, hq, -, -, hc⟩ := parseHeaders_nil prizm bio req
    rw [hq] at h
    obtain rfl := Except.ok.inj h
    exact hc
  · obtain ⟨s, hs, h⟩ := bind_eq_ok.mp h
    obtain ⟨q, hq, h⟩ := bind_eq_ok.mp h
    obtain ⟨hm, -, -, -, hc⟩ := fillRequest_ok hq
    rw [method_of_get] at hm
    have hsame : (splitQuery prizm q).method = lit "GET" ∧ (splitQuery prizm q).content = q.content := by
      unfold splitQuery
      split
      · exact ⟨hm, rfl⟩
      · exact ⟨hm, rfl⟩
    have hpost : ¬ ((splitQuery prizm q).method = lit "POST" ∧ (splitQuery prizm q).content ≠ []) := by
      rw [hsame.1]
      exact fun hp => absurd hp.1 (by decide)
    rw [readContent, if_neg hpost] at h
    obtain rfl := Except.ok.inj h
    rw [hsame.2, hc]
    exact congrArg Prod.fst (foldlM_headerLine_rest hs)

/-- The first piece of a text that starts with GET does so too. -/
theorem tokens_of_get {rest h c : Bytes} (ht : Occurrence.tokens crlf2 (lit "GET " ++ rest) = [h, c]) :
    ∃ t, h = lit "GET " ++ t := by
  have hget : lit "GET " = [71, 69, 84, 32] := by decide
  have hfind : Occurrence.find crlf2 (lit "GET " ++ rest) = (Occurrence.find crlf2 rest).map (· + 4) := by
    have hno : ∀ (x : Byte) (t : Bytes), x ≠ 13 → ¬ crlf2 <+: x :: t :=
      fun x t hx hpre => hx (List.cons_prefix_cons.mp hpre).1.symm
    simp only [hget, List.cons_append, List.nil_append]
    rw [Occurrence.find_cons (hno _ _ (by decide)), Occurrence.find_cons (hno _ _ (by decide)),
      Occurrence.find_cons (hno _ _ (by decide)), Occurrence.find_cons (hno _ _ (by decide))]
    simp [Option.map_map, Function.comp_def]
  cases hr : Occurrence.find crlf2 rest with
  | none =>
    have hnone : ¬ crlf2 <:+: lit "GET " ++ rest := by
      rw [← Occurrence.find_eq_none_iff, hfind, hr]
      rfl
    rw [Occurrence.tokens, Occurrence.split_of_notMem hnone] at ht
    have hle := List.length_filter_le (fun p : Bytes => decide (p ≠ [])) [lit "GET " ++ rest]
    rw [ht] at hle
    simp at hle
  | some m =>
    have hsome : Occurrence.find crlf2 (lit "GET " ++ rest) = some (m + 4) := by rw [hfind, hr]; rfl
    have htake : (lit "GET " ++ rest).take (m + 4) = lit "GET " ++ rest.take m := by simp [hget]
    have hne : lit "GET " ++ rest.take m ≠ [] := List.append_ne_nil_of_left_ne_nil (by decide) _
    rw [Occurrence.tokens, Occurrence.split_of_find (by decide) hsome, htake,
      List.filter_cons_of_pos (by rw [decide_eq_true_eq]; exact hne)] at ht
    exact ⟨_, (List.cons.inj ht).1.symm⟩

/-- The content of a GET is nothing or the second of two pieces. -/
theorem eval_content {client : Client} {rest : Bytes} (hrec : cstr client.received = lit "GET " ++ rest)
    {r : Request} (h : Request.eval prizm bio client = .ok r) :
    r.content = [] ∨ ∃ head, Occurrence.tokens crlf2 (lit "GET " ++ rest) = [head, r.content] := by
  unfold Request.eval at h
  rw [client.cstr_request, hrec] at h
  dsimp only at h
  split at h
  · split at h
    · rename_i head content htok
      obtain hget := tokens_of_get htok
      rw [parseHeaders_content (.inr hget) h]
      exact .inr ⟨head, htok⟩
    · exact .inl (parseHeaders_content (.inl rfl) h)
  · exact .inl (parseHeaders_content (.inr ⟨rest, rfl⟩) h)

/-- The received request has the sent content. -/
def ContentRoundTrip (prizm : Prizm) (bio : Base64Filter) (buffer : StackBuffer) (hostname port path : Bytes)
    (buf : MessageBuffer) : Prop :=
  ∃ (client : Client) (r : Request), sendRequest bio buffer hostname port path buf = .ok client.received ∧
    Request.eval prizm bio client = .ok r ∧ r.content = buf.sent

/-- The body of a binary message is its URL-safe encoding. -/
theorem formatPlain_encodeUrl (hb : bio.Standard) (s : Bytes) :
    formatPlain (cstr (encodeUrl bio s)) = .ok (encodeUrl bio s) := by
  have hzero : (0 : Byte) ∉ encodeUrl bio s := fun h => (mem_encodeUrl hb h).1 rfl
  rw [cstr_eq_self_iff.mpr hzero]
  exact formatPlain_of_notMem fun h => (mem_encodeUrl hb h).2.2.2 rfl

/-- What a binary message leaves in the receive buffer, up to its first NUL. -/
theorem sendRequest_bin (hb : bio.Standard) {buffer : StackBuffer} {hostname port path : Bytes}
    {buf : MessageBuffer} (hbin : buf.type = lit "bin") {bytes : Bytes}
    (h : sendRequest bio buffer hostname port path buf = .ok bytes) :
    ∃ head, requestHead hostname port path buf = .ok head ∧ cstr bytes = head ++ encodeUrl bio buf.sent := by
  obtain ⟨-, head, body, hh, hbody, -, rfl⟩ := sendRequest_ok_iff.mp h
  rw [if_pos hbin] at hbody ⊢
  have hcstr := (cstr_sent hh hbody (buffer.bytes.drop ((head ++ body).length + 1))).2
  rw [formatPlain_encodeUrl hb] at hbody
  obtain rfl := Except.ok.inj hbody
  exact ⟨head, hh, hcstr⟩

/-- The content that arrives is longer than the one sent: it is still encoded. -/
theorem content_encoded (hb : bio.Standard) {hostname port path : Bytes} {buf : MessageBuffer} {head : Bytes}
    (hh : requestHead hostname port path buf = .ok head) (hne : buf.sent ≠ []) {client : Client}
    (hrec : cstr client.received = head ++ encodeUrl bio buf.sent) {r : Request}
    (hr : Request.eval prizm bio client = .ok r) : r.content ≠ buf.sent := by
  obtain ⟨word, -, hh⟩ := bind_eq_ok.mp hh
  obtain rfl := Except.ok.inj hh
  have hbody : encodeUrl bio buf.sent ≠ [] := fun h => hne ((encodeUrl_eq_nil_iff hb).mp h)
  simp only [List.append_assoc] at hrec
  intro heq
  rcases eval_content hrec hr with h | ⟨first, htok⟩
  · exact hne (heq ▸ h)
  · have hlf : crlf2.getLast (by decide) ∉ encodeUrl bio buf.sent := by
      intro h
      exact (mem_encodeUrl hb h).2.1 (by decide)
    have hsplit := Occurrence.tokens_append_suffix (by decide) hbody hlf
      (lit "GET " ++ (cstr path ++ (lit " " ++ (word ++ (crlf ++ ((fixedHeaders hostname port buf).flatMap headerText ++
        (buf.headers.entries.flatMap headerText ++ crlf)))))))
    obtain ⟨init, x, hx, hsuf⟩ := hsplit
    simp only [List.append_assoc] at hx
    rw [hx] at htok
    have hlast : x = r.content := by
      have := congrArg List.getLast? htok
      simpa using this
    have h1 := hsuf.length_le
    have h2 := length_encodeUrl hb buf.sent
    have h3 := List.length_pos_iff.mpr hne
    rw [hlast, heq] at h1
    omega

/-- An empty binary message is read back with its headers. -/
theorem empty_content (hp : prizm.Documented) (hb : bio.Standard) {buffer : StackBuffer}
    {hostname port path : Bytes} {buf : MessageBuffer} (hm : WireMessage hostname port path buf)
    (hbin : buf.type = lit "bin") (hnil : buf.sent = []) {client : Client}
    (hsend : sendRequest bio buffer hostname port path buf = .ok client.received) :
    ((∃ r, Request.eval prizm bio client = .ok r) ↔ ReadableHeaders buf.headers) ∧
      ∀ r, Request.eval prizm bio client = .ok r → r.content = [] := by
  obtain ⟨head, hh, hrec⟩ := sendRequest_bin hb hbin hsend
  rw [(encodeUrl_eq_nil_iff hb).mpr hnil] at hrec
  obtain ⟨word, hw, hrw, hwp, -⟩ := hm.word
  rw [hm.requestHead_eq hw] at hh
  obtain rfl := Except.ok.inj hh
  obtain ⟨hpp, hprw, hpq⟩ := hm.path_plain
  obtain ⟨hiff, hread⟩ := (eval_written bio hp client hm.fields hprw hpp hpq hrw hwp hrec).1 [] (.inl ⟨rfl, rfl⟩)
  rw [← numbersReadable_iff hostname port (by simp [hnil])]
  exact ⟨hiff, fun r hr => (hread r hr).content_eq⟩

/-- A binary message never arrives with its content, unless that content is empty: whatever
its headers are, a non-empty one is received as base64 text or not at all. -/
theorem binary_round_trip_iff (hp : prizm.Documented) (hb : bio.Standard) (buffer : StackBuffer)
    (hostname port path : Bytes) (buf : MessageBuffer) (hbin : buf.type = lit "bin") :
    (buf.sent ≠ [] → ¬ ContentRoundTrip prizm bio buffer hostname port path buf) ∧
    (WireMessage hostname port path buf → Fits hostname port path buf (encodeUrl bio buf.sent) →
      (ContentRoundTrip prizm bio buffer hostname port path buf ↔
        buf.sent = [] ∧ ReadableHeaders buf.headers)) := by
  have hfail : buf.sent ≠ [] → ¬ ContentRoundTrip prizm bio buffer hostname port path buf := by
    rintro hne ⟨client, r, hsend, hr, heq⟩
    obtain ⟨head, hh, hrec⟩ := sendRequest_bin hb hbin hsend
    exact content_encoded hb hh hne hrec hr heq
  refine ⟨hfail, fun hm hfit => ⟨?_, ?_⟩⟩
  · intro htrip
    have hnil : buf.sent = [] := by
      by_contra hne
      exact hfail hne htrip
    obtain ⟨client, r, hsend, hr, -⟩ := htrip
    exact ⟨hnil, (empty_content hp hb hm hbin hnil hsend).1.mp ⟨r, hr⟩⟩
  · rintro ⟨hnil, hnum⟩
    obtain ⟨head, hh, hlt⟩ := hfit.length_lt hm
    rw [(encodeUrl_eq_nil_iff hb).mpr hnil, List.length_nil, Nat.add_zero] at hlt
    have hfits : (head ++ 0 :: buffer.bytes.drop (head.length + 1)).length ≤ maxRequestSize := by
      simp only [List.length_append, List.length_cons, List.length_drop, buffer.size, maxRequestSize]
      omega
    let client : Client := ⟨head ++ 0 :: buffer.bytes.drop (head.length + 1), hfits, []⟩
    have hsend : sendRequest bio buffer hostname port path buf = .ok client.received := by
      rw [sendRequest_ok_iff]
      refine ⟨inInt_nat.mpr (by simp [hnil]), head, [], hh, ?_, by simpa using hlt, ?_⟩
      · rw [if_pos hbin, formatPlain_encodeUrl hb, (encodeUrl_eq_nil_iff hb).mpr hnil]
      · rw [if_pos hbin, List.append_nil]
    obtain ⟨hiff, hread⟩ := empty_content hp hb hm hbin hnil hsend
    obtain ⟨r, hr⟩ := hiff.mpr hnum
    exact ⟨client, r, hsend, hr, (hread r hr).trans hnil.symm⟩

theorem binary_round_trip_empty :
    ContentRoundTrip Prizm.reference Base64Filter.reference StackBuffer.zeroed (lit "localhost") (lit "8080")
      (lit "/sum") (jobMessage (lit "bin") []) := by
  refine ((binary_round_trip_iff Prizm.reference_documented Base64Filter.reference_standard StackBuffer.zeroed _ _ _ _
    (by decide)).2 (jobMessage_wire _ _) ?_).mpr ⟨rfl, jobMessage_readable _ _⟩
  intro head hh
  obtain rfl := Except.ok.inj hh
  decide +kernel

/-- One byte is enough. -/
theorem binary_round_trip_one_byte :
    ¬ ContentRoundTrip Prizm.reference Base64Filter.reference StackBuffer.zeroed (lit "localhost") (lit "8080")
      (lit "/sum") (jobMessage (lit "bin") (lit "A")) := by
  rintro ⟨client, r, hsend, hr, heq⟩
  obtain ⟨head, hh, hrec⟩ := sendRequest_bin Base64Filter.reference_standard (by decide) hsend
  exact content_encoded Base64Filter.reference_standard hh (by decide) hrec hr heq

end Jericho.Server
