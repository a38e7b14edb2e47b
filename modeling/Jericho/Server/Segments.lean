import Jericho.Server.Readable

/-! How a request arrives: `Request::poll_request` reads until it sees the blank line, so where the
segments are cut decides how much of the body it gets. -/
namespace Jericho.Server
open StdText Util Message Crypt

/-- A client that sent nothing yet. -/
def Client.fresh (address : Bytes) : Client := ⟨[], Nat.zero_le _, address⟩

/-- One `SSL_read` into the rest of the buffer. -/
def Client.read (client : Client) (segment : Bytes) : Client where
  received := client.received ++ segment.take (maxRequestSize - client.received.length)
  fits := by
    have := client.fits
    rw [List.length_append, List.length_take]
    omega
  address := client.address

/-- `strstr` on the buffer finds the blank line. -/
def Client.hasBlankLine (client : Client) : Prop := crlf2 <:+: cstr client.request

instance (client : Client) : Decidable client.hasBlankLine :=
  decidable_of_iff ((Occurrence.find crlf2 (cstr client.request)).isSome) (by
    rw [Client.hasBlankLine, Option.isSome_iff_ne_none, ne_eq, Occurrence.find_eq_none_iff, not_not])

/-- `Request::poll_request` on what the successive reads return; after the last one nothing comes. -/
def pollRequest (client : Client) : List Bytes → Client
  | [] => client
  | segment :: segments =>
    let client := client.read segment
    if client.hasBlankLine then client else pollRequest client segments

/-- A way of cutting a text into non-empty reads. -/
structure Cut (r : Bytes) (segments : List Bytes) : Prop where
  nonempty : ∀ segment ∈ segments, segment ≠ []
  joined : segments.flatten = r

/-- A request: a header section with a method, the blank line after it, a body. -/
structure Complete (head body : Bytes) : Prop where
  fits : (head ++ crlf2 ++ body).length ≤ maxRequestSize
  first : ¬ crlf2 <:+: head ++ crlf2.dropLast
  method : (requestLine head).method ≠ []

/-- What the server reads out of a request. -/
def viewOf (req : Request) : Bytes × Bytes × StrMap × StrMap × Bytes :=
  (req.method, req.path, req.headers, req.args, req.content)

variable (prizm : Prizm) (bio : Base64Filter)

/-- However a text is cut, the same request is read out of it. -/
def CutsAlike (address r : Bytes) : Prop :=
  ∀ segments segments', Cut r segments → Cut r segments' →
    (Request.eval prizm bio (pollRequest (.fresh address) segments)).map viewOf =
      (Request.eval prizm bio (pollRequest (.fresh address) segments')).map viewOf

/-- The received part of a complete request, from the blank line on. -/
structure Arrives (head body : Bytes) (address : Bytes) (client : Client) (b : Bytes) : Prop where
  received : client.received = head ++ crlf2 ++ b
  address_eq : client.address = address
  cut : b <+: body

theorem zero_notMem_crlf2 : (0 : Byte) ∉ crlf2 := by decide

theorem Client.hasBlankLine_iff (client : Client) : client.hasBlankLine ↔ crlf2 <:+: cstr client.received := by
  unfold Client.hasBlankLine
  rw [client.cstr_request]

theorem Client.eq_of_fields {c c' : Client} (hreceived : c.received = c'.received) (haddress : c.address = c'.address) :
    c = c' := by
  cases c
  cases c'
  obtain rfl : _ = _ := hreceived
  obtain rfl : _ = _ := haddress
  rfl

theorem cstr_prefix_cstr {s t : Bytes} (h : s <+: t) : cstr s <+: cstr t := by
  obtain ⟨u, rfl⟩ := h
  by_cases hz : (0 : Byte) ∈ s
  · rw [cstr_append_of_mem hz]
  · rw [cstr_append hz, cstr_eq_self_iff.mpr hz]
    exact List.prefix_append _ _

/-- In a prefix of the request the blank line is seen once it is there, unless a NUL comes before. -/
theorem hasBlankLine_iff_of_isPrefix {head body : Bytes} (h : Complete head body) (hz : (0 : Byte) ∉ head)
    {client : Client} (hpre : client.received <+: head ++ crlf2 ++ body) :
    client.hasBlankLine ↔ head ++ crlf2 <+: client.received := by
  rw [client.hasBlankLine_iff]
  constructor
  · intro hin
    by_contra hno
    have hlen : client.received.length ≤ (head ++ crlf2.dropLast).length := by
      by_contra hlong
      have hhead : head ++ crlf2 <+: head ++ crlf2 ++ body := List.prefix_append _ _
      refine hno (List.prefix_of_prefix_length_le hhead hpre ?_)
      simp only [List.length_append, List.length_dropLast, crlf2, crlf, List.length_cons, List.length_nil] at hlong ⊢
      omega
    have hshort : client.received <+: head ++ crlf2.dropLast := by
      refine List.prefix_of_prefix_length_le hpre ?_ hlen
      rw [List.append_assoc]
      exact (List.prefix_append_right_inj head).mpr ((List.dropLast_prefix crlf2).trans (List.prefix_append _ _))
    exact h.first (hin.trans ((cstr_isPrefix _).trans hshort).isInfix)
  · rintro ⟨b, hb⟩
    have hzero : (0 : Byte) ∉ head ++ crlf2 := by
      rw [List.mem_append]
      exact not_or.mpr ⟨hz, zero_notMem_crlf2⟩
    rw [← hb, cstr_append hzero]
    exact (List.infix_append head crlf2 (cstr b))

theorem read_received {client : Client} {segment rest : Bytes}
    (hfits : (client.received ++ (segment ++ rest)).length ≤ maxRequestSize) :
    (client.read segment).received = client.received ++ segment := by
  rw [List.length_append, List.length_append] at hfits
  have htake : segment.take (maxRequestSize - client.received.length) = segment :=
    List.take_of_length_le (by omega)
  exact congrArg (client.received ++ ·) htake

/-- With a segment read, the others are still to come. -/
theorem read_next {head body : Bytes} (h : Complete head body) {client : Client} {segment : Bytes}
    {segments : List Bytes} (hjoin : client.received ++ (segment :: segments).flatten = head ++ crlf2 ++ body) :
    (client.read segment).received ++ segments.flatten = head ++ crlf2 ++ body := by
  rw [List.flatten_cons] at hjoin
  rw [read_received (hjoin ▸ h.fits), List.append_assoc]
  exact hjoin

/-- What the loop stops with: the header section, the blank line and some of the body. -/
theorem pollRequest_arrives {head body address : Bytes} (h : Complete head body) (hz : (0 : Byte) ∉ head)
    {client : Client} {segments : List Bytes} (haddress : client.address = address)
    (hjoin : client.received ++ segments.flatten = head ++ crlf2 ++ body) (hunseen : ¬ client.hasBlankLine) :
    ∃ b, Arrives head body address (pollRequest client segments) b := by
  induction segments generalizing client with
  | nil =>
    rw [List.flatten_nil, List.append_nil] at hjoin
    have hall : client.received <+: head ++ crlf2 ++ body := hjoin ▸ List.prefix_refl _
    exact absurd ((hasBlankLine_iff_of_isPrefix h hz hall).mpr (hjoin ▸ List.prefix_append _ _)) hunseen
  | cons segment segments ih =>
    replace hjoin := read_next h hjoin
    have hpre : (client.read segment).received <+: head ++ crlf2 ++ body := ⟨_, hjoin⟩
    unfold pollRequest
    dsimp only
    split_ifs with hseen
    · obtain ⟨b, hb⟩ := (hasBlankLine_iff_of_isPrefix h hz hpre).mp hseen
      refine ⟨b, hb.symm, haddress, ?_⟩
      rw [← hb] at hpre
      exact (List.prefix_append_right_inj _).mp hpre
    · exact ih haddress hjoin hseen

/-- Any part of the body can be what the loop stops with. -/
theorem exists_cut {head body b : Bytes} (h : Complete head body) (hz : (0 : Byte) ∉ head) (address : Bytes)
    (hb : b <+: body) :
    ∃ segments, Cut (head ++ crlf2 ++ body) segments ∧
      Arrives head body address (pollRequest (.fresh address) segments) b := by
  obtain ⟨rest, rfl⟩ := hb
  have hne : head ++ crlf2 ++ b ≠ [] := by simp [crlf2, crlf]
  have hread : ((Client.fresh address).read (head ++ crlf2 ++ b)).received = head ++ crlf2 ++ b := by
    refine @read_received (.fresh address) _ rest ?_
    simpa [Client.fresh] using h.fits
  have hseen : ((Client.fresh address).read (head ++ crlf2 ++ b)).hasBlankLine := by
    refine (hasBlankLine_iff_of_isPrefix h hz ?_).mpr ?_
    · rw [hread, ← List.append_assoc]
      exact List.prefix_append _ _
    · rw [hread]
      exact List.prefix_append _ _
  have hstop : ∀ segments, pollRequest (.fresh address) ((head ++ crlf2 ++ b) :: segments) =
      (Client.fresh address).read (head ++ crlf2 ++ b) := by
    intro segments
    unfold pollRequest
    exact if_pos hseen
  by_cases hrest : rest = []
  · refine ⟨[head ++ crlf2 ++ b], ⟨by simpa using hne, by simp [hrest]⟩, ?_⟩
    rw [hstop]
    exact ⟨hread, rfl, List.prefix_append _ _⟩
  · refine ⟨[head ++ crlf2 ++ b, rest], ⟨by simp [hrest, crlf2, crlf], by simp⟩, ?_⟩
    rw [hstop]
    exact ⟨hread, rfl, List.prefix_append _ _⟩

/-- With a NUL in the header section everything is read. -/
theorem pollRequest_all {head body : Bytes} (h : Complete head body) (hz : (0 : Byte) ∈ head) {client : Client}
    {segments : List Bytes} (hjoin : client.received ++ segments.flatten = head ++ crlf2 ++ body) :
    (pollRequest client segments).received = head ++ crlf2 ++ body ∧
      (pollRequest client segments).address = client.address := by
  induction segments generalizing client with
  | nil =>
    rw [List.flatten_nil, List.append_nil] at hjoin
    exact ⟨hjoin, rfl⟩
  | cons segment segments ih =>
    replace hjoin := read_next h hjoin
    have hpre : (client.read segment).received <+: head ++ crlf2 ++ body := ⟨_, hjoin⟩
    have hunseen : ¬ (client.read segment).hasBlankLine := by
      rw [Client.hasBlankLine_iff]
      intro hin
      have hcut := cstr_prefix_cstr hpre
      rw [List.append_assoc, cstr_append_of_mem hz] at hcut
      have hhead : crlf2 <:+: head := hin.trans (hcut.trans (cstr_isPrefix head)).isInfix
      exact h.first (hhead.trans (List.prefix_append _ _).isInfix)
    unfold pollRequest
    dsimp only
    rw [if_neg hunseen]
    exact ih hjoin

/-- A request with another connection and content, the rest as it was. -/
def Request.rebase (req : Request) (client : Client) (valid : Bool) (content : Bytes) : Request :=
  { req with client := client, valid := valid, content := content }

def HeaderScan.rebase (s : HeaderScan) (client : Client) (valid : Bool) (content : Bytes) : HeaderScan :=
  { s with req := s.req.rebase client valid content }

section Rebase
variable (client : Client) (valid : Bool) (content : Bytes)

theorem headerField_rebase (s : HeaderScan) (key val : Bytes) :
    headerField (s.rebase client valid content) key val =
      (headerField s key val).map (·.rebase client valid content) := by
  have hsize : headerSize (s.rebase client valid content).req key val = headerSize s.req key val := rfl
  unfold headerField
  rw [hsize]
  cases headerSize s.req key val with
  | error e => rfl
  | ok size =>
    have hmeta : headerMeta (s.rebase client valid content).req key val =
        (headerMeta s.req key val).rebase client valid content := by
      unfold headerMeta HeaderScan.rebase Request.rebase
      dsimp only
      split_ifs <;> rfl
    refine congrArg Except.ok ?_
    rw [hmeta]
    rfl

theorem scanFields_rebase (s : HeaderScan) (fs : List Field) :
    scanFields (s.rebase client valid content) fs = (scanFields s fs).map (·.rebase client valid content) := by
  induction fs generalizing s with
  | nil => rfl
  | cons f fs ih =>
    unfold scanFields
    rw [List.foldlM_cons, List.foldlM_cons, headerField_rebase]
    cases headerField s f.1 f.2 with
    | error e => rfl
    | ok t => exact ih t

theorem fillRequest_rebase (s : HeaderScan) (l : RequestLine) :
    fillRequest (s.rebase client valid content) l = (fillRequest s l).map (·.rebase client valid content) := by
  unfold fillRequest HeaderScan.rebase
  dsimp only
  split_ifs
  · rfl
  · cases Callback.ofMap s.callbackMap with
    | error e => rfl
    | ok callback => rfl

theorem splitQuery_rebase (req : Request) :
    splitQuery prizm (req.rebase client valid content) = (splitQuery prizm req).rebase client valid content := by
  unfold splitQuery Request.rebase
  dsimp only
  split <;> rfl

end Rebase

/-- The request of some headers and a request line, before its content is looked at. -/
def parsed (client : Client) (fs : List Field) (l : RequestLine) : Exec Request := do
  let s ← scanFields ⟨{ client := client }, ∅, ∅⟩ fs
  let req ← fillRequest s l
  return splitQuery prizm req

/-- The connection and the content come in last. -/
theorem eval_parsed (client₀ client : Client) {fs : List Field} {l : RequestLine}
    (hfs : headerFields prizm (evalSplit (cstr client.received)).1 = fs)
    (hl : requestLine (evalSplit (cstr client.received)).1 = l) :
    Request.eval prizm bio client = (parsed prizm client₀ fs l >>= fun req => readContent prizm bio
      (req.rebase client ((Occurrence.find crlf2 (cstr client.received)).getD npos ≠ npos)
        (evalSplit (cstr client.received)).2)) := by
  have hstart : ({ req := evalRequest client } : HeaderScan) = HeaderScan.rebase { req := { client := client₀ } } client
      ((Occurrence.find crlf2 (cstr client.received)).getD npos ≠ npos) (evalSplit (cstr client.received)).2 := by
    unfold evalRequest HeaderScan.rebase Request.rebase
    rw [client.cstr_request]
  rw [eval_eq, parseHeaders_eq, hstart, scanFields_rebase, client.cstr_request, hfs, hl]
  unfold parsed
  cases scanFields { req := { client := client₀ } } fs with
  | error e => rfl
  | ok s =>
    dsimp only [Except.map, bind, Except.bind]
    rw [fillRequest_rebase]
    cases fillRequest s l with
    | error e => rfl
    | ok req =>
      dsimp only [Except.map, pure, Except.pure]
      rw [splitQuery_rebase]

theorem parsed_isOk_iff (client : Client) (fs : List Field) (l : RequestLine) :
    (∃ req, parsed prizm client fs l = .ok req) ↔ NumbersReadable fs := by
  unfold parsed
  simp only [bind_eq_ok]
  constructor
  · rintro ⟨req, s, hs, filled, hfilled, -⟩
    exact ⟨(scanFields_isOk_iff _ _).mp ⟨s, hs⟩, (fillRequest_numbers hs rfl l).mp ⟨filled, hfilled⟩⟩
  · rintro ⟨hsize, hcallback⟩
    obtain ⟨s, hs⟩ := (scanFields_isOk_iff ⟨{ client := client }, ∅, ∅⟩ fs).mpr hsize
    obtain ⟨filled, hfilled⟩ := (fillRequest_numbers hs rfl l).mpr hcallback
    exact ⟨_, s, hs, filled, hfilled, rfl⟩

/-- The fields the content is read by. -/
theorem parsed_spec {client : Client} {fs : List Field} {l : RequestLine} {req : Request}
    (h : parsed prizm client fs l = .ok req) :
    req.method = l.method ∧ (req.type = .octet ↔ octetField ∈ fs) ∧ (req.encoding = .base64 ↔ base64Field ∈ fs) ∧
      req.size = declaredSize fs := by
  obtain ⟨s, hs, h⟩ := bind_eq_ok.mp h
  obtain ⟨filled, hfilled, h⟩ := bind_eq_ok.mp h
  obtain rfl := Except.ok.inj h
  have hbody := (splitQuery_keeps prizm filled).1.trans (fillRequest_body hfilled)
  simp only [Request.bodyFields, Prod.mk.injEq] at hbody
  obtain ⟨hm, -, ht, he, hn, -⟩ := hbody
  obtain ⟨htype, hencoding⟩ := scanFields_meta hs
  refine ⟨hm, ?_, ?_, ?_⟩
  · rw [ht, htype]
    simp
  · rw [he, hencoding]
    simp
  · rw [hn, scanFields_declaredSize hs rfl]

theorem readContent_of_nil (req : Request) (client : Client) (valid : Bool) :
    (readContent prizm bio (req.rebase client valid [])).map viewOf =
      .ok (req.method, req.path, req.headers, req.args, []) := by
  have hskip : readContent prizm bio (req.rebase client valid []) = .ok (req.rebase client valid []) :=
    if_neg fun hpost => hpost.2 rfl
  rw [hskip]
  rfl

/-- Content is taken over, except that of an octet stream. -/
theorem readContent_of_ne_nil (req : Request) (client : Client) (valid : Bool) {content : Bytes} (hne : content ≠ []) :
    (readContent prizm bio (req.rebase client valid content)).map viewOf =
        .ok (req.method, req.path, req.headers, req.args, []) ↔
      req.method = lit "POST" ∧ req.type = .octet ∧ octetContent bio (req.rebase client valid content) = .ok [] := by
  have hkeep : ∀ req' : Request, req'.content = content →
      ¬ (Except.ok req' : Exec Request).map viewOf = .ok (req.method, req.path, req.headers, req.args, []) := by
    intro req' hcontent heq
    have hnil : req'.content = [] := congrArg (·.2.2.2.2) (Except.ok.inj heq)
    exact hne (hcontent.symm.trans hnil)
  by_cases hpost : req.method = lit "POST"
  swap
  · have hskip : readContent prizm bio (req.rebase client valid content) = .ok (req.rebase client valid content) :=
      if_neg fun h => hpost h.1
    rw [hskip]
    exact iff_of_false (hkeep _ rfl) fun h => hpost h.1
  have hsend : readContent prizm bio (req.rebase client valid content) = _ := if_pos ⟨hpost, hne⟩
  have htype : (req.rebase client valid content).type = req.type := rfl
  rw [hsend, htype]
  cases req.type with
  | octet =>
    dsimp only
    cases octetContent bio (req.rebase client valid content) with
    | error e =>
      refine iff_of_false (fun h => ?_) fun h => ?_
      · cases h
      · cases h.2.2
    | ok text =>
      constructor
      · intro heq
        have hnil : text = [] := congrArg (·.2.2.2.2) (Except.ok.inj heq)
        exact ⟨hpost, rfl, congrArg Except.ok hnil⟩
      · rintro ⟨-, -, heq⟩
        obtain rfl := Except.ok.inj heq
        rfl
  | json | plain =>
    refine iff_of_false ?_ fun h => ?_
    · dsimp only
      split_ifs <;> exact hkeep _ rfl
    · cases h.2.1

theorem octetContent_of_find (req : Request) {client : Client} (valid : Bool) (content : Bytes) {p : Nat}
    (hfind : Occurrence.find crlf2 (cstr client.request) = some p) :
    octetContent bio (req.rebase client valid content) = match req.size with
      | none => .error .undefined
      | some n =>
        if maxRequestSize + 1 < p + 4 + sizeNum n.toNat then .error .undefined
        else match req.encoding with
          | .none => .ok []
          | .base64 => decodeUrl bio (bodyBytes client p n) := by
  unfold octetContent Request.rebase
  dsimp only
  rw [hfind]
  rfl

theorem parsed_of_nil (client : Client) :
    ∃ req, parsed prizm client [] {} = .ok req ∧ (req.method, req.path, req.headers, req.args) = ([], [], ∅, ∅) := by
  have hfill : fillRequest ⟨{ client := client }, ∅, ∅⟩ {} =
      .ok { client := client, method := [], path := [], protocol := [], headers := ∅ } := rfl
  refine ⟨{ client := client, method := [], path := [], protocol := [], headers := ∅ }, ?_, rfl⟩
  exact bind_eq_ok.mpr ⟨_, rfl, bind_eq_ok.mpr ⟨_, hfill, rfl⟩⟩

section BlankLine
variable {prizm}

/-- The CR that the blank line leaves on the last header does not matter. -/
theorem lineField_concat (hp : prizm.Documented) (word : Bytes) :
    lineField prizm (word ++ [13]) = lineField prizm word := by
  have hsep : lit ": " = [58, 32] := by decide
  unfold lineField
  cases hfind : Occurrence.find (lit ": ") word with
  | none =>
    rw [Occurrence.find_eq_none_iff, hsep] at hfind
    have hnone : Occurrence.find (lit ": ") (word ++ [13]) = none := by
      rw [Occurrence.find_eq_none_iff, hsep]
      intro hin
      rcases List.infix_concat_iff.mp hin with ⟨a, ha⟩ | hin
      · have hlast := congrArg List.getLast? ha
        simp at hlast
      · exact hfind hin
    rw [hnone]
    rfl
  | some sep =>
    have hle := Occurrence.find_le hfind
    have hlen : (lit ": ").length = 2 := by decide
    rw [Occurrence.find_append_of_find hfind]
    have hcut : sep + 2 ≤ word.length := hlen ▸ hle
    have htake : (word ++ [13]).take sep = word.take sep := List.take_append_of_le_length (by omega)
    have hdrop : (word ++ [13]).drop (sep + 2) = word.drop (sep + 2) ++ [13] := List.drop_append_of_le_length hcut
    rw [Option.map_some, Option.map_some, htake, hdrop, hp.erase_eq, hp.erase_eq, List.filter_append]
    simp

/-- The words of a header section, and those of the section with the blank line after it. -/
theorem headerWords_blankLine (head : Bytes) :
    ∃ words last, headerWords head = words ++ (if last = [] then [] else [last]) ∧
      headerWords (head ++ crlf2) = words ++ [last ++ [13], [13]] := by
  induction hn : head.length using Nat.strong_induction_on generalizing head with
  | _ n ih =>
    subst hn
    by_cases h10 : (10 : Byte) ∈ head
    · obtain ⟨line, rest, rfl, hline⟩ := List.eq_append_cons_of_mem h10
      obtain ⟨words, last, hhead, hblank⟩ := ih rest.length (by simp; omega) rest rfl
      refine ⟨(if line = [] then [] else [line]) ++ words, last, ?_, ?_⟩
      · rw [headerWords_append hline, hhead, List.append_assoc]
      · rw [List.append_assoc, List.cons_append, headerWords_append hline, hblank, List.append_assoc]
    · refine ⟨[], head, ?_, ?_⟩
      · by_cases hnil : head = []
        · rw [hnil]
          rfl
        · rw [headerWords_last h10 hnil, if_neg hnil]
          rfl
      · have hcr : (10 : Byte) ∉ ([] : Bytes) := List.not_mem_nil
        have hend : headerWords ([] ++ crlf ++ []) = [[13]] := headerWords_cons hcr []
        rw [crlf2, ← List.append_assoc, headerWords_cons h10]
        exact congrArg (List.cons _) hend

/-- The blank line changes neither the request line nor the headers. -/
theorem blankLine_parsed (hp : prizm.Documented) (head : Bytes) :
    requestLine (head ++ crlf2) = requestLine head ∧ headerFields prizm (head ++ crlf2) = headerFields prizm head := by
  obtain ⟨words, last, hhead, hblank⟩ := headerWords_blankLine head
  have hcr : lineField prizm [13] = none := by
    have hsep : lit ": " = [58, 32] := by decide
    unfold lineField
    rw [hsep]
    rfl
  have hread : ∀ word, (word ++ [13]).foldl RequestLine.read {} = word.foldl RequestLine.read {} := by
    intro word
    rw [List.foldl_append]
    rfl
  unfold requestLine headerFields
  rw [hhead, hblank]
  cases words with
  | nil =>
    by_cases hlast : last = []
    · subst hlast
      refine ⟨rfl, ?_⟩
      rw [if_pos rfl]
      simp [hcr]
    · rw [if_neg hlast]
      refine ⟨hread last, ?_⟩
      simp [hcr]
  | cons word words =>
    refine ⟨rfl, ?_⟩
    rw [List.cons_append, List.cons_append, List.tail_cons, List.tail_cons, List.filterMap_append,
      List.filterMap_append]
    refine congrArg _ ?_
    by_cases hlast : last = []
    · rw [if_pos hlast, hlast]
      simp [hcr]
    · rw [if_neg hlast]
      simp [hcr, lineField_concat hp, List.filterMap_cons]

end BlankLine

theorem Complete.head_ne_nil {head body : Bytes} (h : Complete head body) : head ≠ [] := by
  rintro rfl
  exact h.method rfl

/-- How `eval` cuts a received request: one piece of body is its content, several lose the headers. -/
theorem Complete.evalSplit {head body : Bytes} (h : Complete head body) {c : Bytes}
    (hfits : (head ++ crlf2 ++ c).length ≤ maxRequestSize) :
    evalSplit (head ++ crlf2 ++ c) =
      if c = [] then (head ++ crlf2, [])
      else match Occurrence.tokens crlf2 c with
        | [content] => (head, content)
        | _ => ([], []) := by
  have hfind : Occurrence.find crlf2 (head ++ crlf2 ++ c) = some head.length :=
    Occurrence.find_append (by decide) _ _ h.first
  have htokens : Occurrence.tokens crlf2 (head ++ crlf2 ++ c) = head :: Occurrence.tokens crlf2 c :=
    Occurrence.tokens_append (by decide) h.head_ne_nil _ h.first
  have hmax : maxRequestSize = 490000 := rfl
  have hlen : (head ++ crlf2 ++ c).length = head.length + 4 + c.length := by
    simp [crlf2, crlf]
    omega
  have hpos : (head.length + 4 + c.length + 2^64 - 4) % 2^64 = head.length + c.length := by omega
  unfold Server.evalSplit
  rw [hfind, htokens, hlen, hpos, Option.getD_some]
  by_cases hc : c = []
  · rw [if_neg (by simp [hc]), if_pos hc, hc, List.append_nil]
  · have hdiff : head.length ≠ head.length + c.length := by
      have := List.length_pos_iff.mpr hc
      omega
    rw [if_pos hdiff, if_neg hc]
    rcases Occurrence.tokens crlf2 c with _ | ⟨content, _ | ⟨next, rest⟩⟩ <;> rfl

/-- An octet-stream body that reads as nothing. -/
def EmptyBody (head b : Bytes) : Prop :=
  ∃ n, declaredSize (headerFields prizm head) = some n ∧ head.length + 4 + sizeNum n.toNat ≤ maxRequestSize + 1 ∧
    (base64Field ∈ headerFields prizm head → ∀ client : Client, client.received = head ++ crlf2 ++ b →
      decodeUrl bio (bodyBytes client head.length n) = .ok [])

/-- A part of the body that changes nothing: it has one piece, and either the headers cannot be
read anyway or it is an octet stream that reads as nothing. -/
structure Harmless (head b : Bytes) : Prop where
  single : ∃ content, Occurrence.tokens crlf2 (cstr b) = [content]
  ignored : NumbersReadable (headerFields prizm head) →
    (requestLine head).method = lit "POST" ∧ octetField ∈ headerFields prizm head ∧ EmptyBody prizm bio head b

/-- What is read before any of the body came. -/
def headOutcome (address head : Bytes) : Exec (Bytes × Bytes × StrMap × StrMap × Bytes) :=
  (parsed prizm (.fresh address) (headerFields prizm head) (requestLine head)).map fun req =>
    (req.method, req.path, req.headers, req.args, [])

section Outcome
variable {prizm} {head body address : Bytes} {client : Client} {b : Bytes}

theorem Arrives.cstr_received (ha : Arrives head body address client b) (hz : (0 : Byte) ∉ head) :
    cstr client.received = head ++ crlf2 ++ cstr b := by
  have hzero : (0 : Byte) ∉ head ++ crlf2 := by
    rw [List.mem_append]
    exact not_or.mpr ⟨hz, zero_notMem_crlf2⟩
  rw [ha.received, cstr_append hzero]

theorem Arrives.evalSplit (h : Complete head body) (ha : Arrives head body address client b) (hz : (0 : Byte) ∉ head) :
    Server.evalSplit (cstr client.received) =
      if cstr b = [] then (head ++ crlf2, [])
      else match Occurrence.tokens crlf2 (cstr b) with
        | [content] => (head, content)
        | _ => ([], []) := by
  have hcstr := ha.cstr_received hz
  rw [hcstr]
  exact h.evalSplit (hcstr ▸ (cstr_length_le _).trans client.fits)

theorem outcome_of_nil (hp : prizm.Documented) (h : Complete head body) (ha : Arrives head body address client b)
    (hz : (0 : Byte) ∉ head) (hb : cstr b = []) :
    (Request.eval prizm bio client).map viewOf = headOutcome prizm address head := by
  have hsplit := ha.evalSplit h hz
  rw [if_pos hb] at hsplit
  obtain ⟨hline, hfields⟩ := blankLine_parsed hp head
  have hfs : headerFields prizm (Server.evalSplit (cstr client.received)).1 = headerFields prizm head := by
    rw [hsplit]
    exact hfields
  have hl : requestLine (Server.evalSplit (cstr client.received)).1 = requestLine head := by
    rw [hsplit]
    exact hline
  rw [eval_parsed prizm bio (.fresh address) client hfs hl, hsplit]
  unfold headOutcome
  cases parsed prizm (.fresh address) (headerFields prizm head) (requestLine head) with
  | error e => rfl
  | ok req => exact readContent_of_nil prizm bio req client _

/-- Several pieces: the request line is lost. -/
theorem outcome_of_pieces (h : Complete head body) (ha : Arrives head body address client b)
    (hz : (0 : Byte) ∉ head) (hb : cstr b ≠ []) (hmany : ¬ ∃ content, Occurrence.tokens crlf2 (cstr b) = [content]) :
    (Request.eval prizm bio client).map viewOf ≠ headOutcome prizm address head := by
  have hsplit : Server.evalSplit (cstr client.received) = ([], []) := by
    rw [ha.evalSplit h hz, if_neg hb]
    split
    · exact absurd ⟨_, ‹_›⟩ hmany
    · rfl
  have hnone : (Request.eval prizm bio client).map viewOf = .ok ([], [], ∅, ∅, []) := by
    obtain ⟨req, hreq, hview⟩ := parsed_of_nil prizm (.fresh address)
    have hfs : headerFields prizm (Server.evalSplit (cstr client.received)).1 = [] := by rw [hsplit]; rfl
    have hl : requestLine (Server.evalSplit (cstr client.received)).1 = {} := by rw [hsplit]; rfl
    rw [eval_parsed prizm bio (.fresh address) client hfs hl, hsplit, hreq]
    simp only [Prod.mk.injEq] at hview
    obtain ⟨hm, hpath, hh, hargs⟩ := hview
    refine (readContent_of_nil prizm bio req client _).trans ?_
    rw [hm, hpath, hh, hargs]
  rw [hnone]
  unfold headOutcome
  cases hparsed : parsed prizm (.fresh address) (headerFields prizm head) (requestLine head) with
  | error e => exact fun heq => nomatch heq
  | ok req =>
    intro heq
    have hmethod := (parsed_spec prizm hparsed).1
    have hnil : [] = req.method := congrArg Prod.fst (Except.ok.inj heq)
    exact h.method (hmethod.symm.trans hnil.symm)

/-- One piece: it is the content, unless it is an octet stream that reads as nothing. -/
theorem outcome_of_piece (h : Complete head body) (ha : Arrives head body address client b) (hz : (0 : Byte) ∉ head)
    (hb : cstr b ≠ []) {content : Bytes} (hone : Occurrence.tokens crlf2 (cstr b) = [content]) :
    (Request.eval prizm bio client).map viewOf = headOutcome prizm address head ↔
      (NumbersReadable (headerFields prizm head) →
        (requestLine head).method = lit "POST" ∧ octetField ∈ headerFields prizm head ∧
          EmptyBody prizm bio head b) := by
  have hsplit : Server.evalSplit (cstr client.received) = (head, content) := by
    rw [ha.evalSplit h hz, if_neg hb, hone]
  have hcontent : content ≠ [] := by
    have hmem : content ∈ Occurrence.tokens crlf2 (cstr b) := by rw [hone]; exact List.mem_singleton_self _
    simpa using (List.mem_filter.mp hmem).2
  have hfs : headerFields prizm (Server.evalSplit (cstr client.received)).1 = headerFields prizm head := by rw [hsplit]
  have hl : requestLine (Server.evalSplit (cstr client.received)).1 = requestLine head := by rw [hsplit]
  have hfind : Occurrence.find crlf2 (cstr client.request) = some head.length := by
    rw [client.cstr_request, ha.cstr_received hz]
    exact Occurrence.find_append (by decide) _ _ h.first
  rw [eval_parsed prizm bio (.fresh address) client hfs hl, hsplit]
  unfold headOutcome
  cases hparsed : parsed prizm (.fresh address) (headerFields prizm head) (requestLine head) with
  | error e =>
    refine iff_of_true rfl fun hread => ?_
    obtain ⟨req, hreq⟩ := (parsed_isOk_iff prizm (.fresh address) _ (requestLine head)).mpr hread
    exact nomatch hreq.symm.trans hparsed
  | ok req =>
    have hread := (parsed_isOk_iff prizm (.fresh address) _ (requestLine head)).mp ⟨req, hparsed⟩
    obtain ⟨hmethod, htype, hencoding, hsize⟩ := parsed_spec prizm hparsed
    rw [imp_iff_right hread, ← hmethod, ← htype]
    refine (readContent_of_ne_nil prizm bio req client _ hcontent).trans ?_
    rw [octetContent_of_find bio req _ _ hfind, hsize]
    refine and_congr_right fun _ => and_congr_right fun _ => ?_
    unfold EmptyBody
    rw [← hencoding]
    cases declaredSize (headerFields prizm head) with
    | none => simp
    | some n =>
      dsimp only
      by_cases hfits : maxRequestSize + 1 < head.length + 4 + sizeNum n.toNat
      · rw [if_pos hfits]
        exact iff_of_false (fun heq => nomatch heq) fun ⟨m, hm, hle, _⟩ =>
          absurd (Option.some.inj hm ▸ hle) (Nat.not_le.mpr hfits)
      · rw [if_neg hfits]
        have hsame : ∀ client' : Client, client'.received = head ++ crlf2 ++ b → client'.request = client.request := by
          intro client' hreceived
          unfold Client.request
          rw [hreceived, ha.received]
        have hle : head.length + 4 + sizeNum n.toNat ≤ maxRequestSize + 1 := Nat.not_lt.mp hfits
        cases req.encoding with
        | none => exact iff_of_true rfl ⟨n, rfl, hle, fun h => nomatch h⟩
        | base64 =>
          constructor
          · intro heq
            refine ⟨n, rfl, hle, fun _ client' hreceived => ?_⟩
            unfold bodyBytes
            rw [hsame client' hreceived]
            exact heq
          · rintro ⟨m, hm, -, hdecode⟩
            obtain rfl := Option.some.inj hm
            exact hdecode rfl client ha.received

theorem outcome_iff (hp : prizm.Documented) (h : Complete head body) (ha : Arrives head body address client b)
    (hz : (0 : Byte) ∉ head) :
    (Request.eval prizm bio client).map viewOf = headOutcome prizm address head ↔
      (cstr b ≠ [] → Harmless prizm bio head b) := by
  by_cases hb : cstr b = []
  · exact iff_of_true (outcome_of_nil bio hp h ha hz hb) fun hne => absurd hb hne
  · rw [imp_iff_right hb]
    by_cases hone : ∃ content, Occurrence.tokens crlf2 (cstr b) = [content]
    · obtain ⟨content, hcontent⟩ := hone
      rw [outcome_of_piece bio h ha hz hb hcontent]
      exact ⟨fun hignored => ⟨⟨content, hcontent⟩, hignored⟩, Harmless.ignored⟩
    · exact iff_of_false (outcome_of_pieces bio h ha hz hb hone) fun hharmless => hone hharmless.single

end Outcome

/-- Segmentation. A request is read alike however it is cut exactly when a NUL in its header section
keeps the loop reading, or no part of its body changes anything: the loop stops at the first read
that shows it the blank line. -/
theorem cuts_alike_iff (hp : prizm.Documented) (address : Bytes) {head body : Bytes} (h : Complete head body) :
    CutsAlike prizm bio address (head ++ crlf2 ++ body) ↔
      (0 : Byte) ∈ head ∨ ∀ b, b <+: body → cstr b ≠ [] → Harmless prizm bio head b := by
  by_cases hz : (0 : Byte) ∈ head
  · refine iff_of_true ?_ (.inl hz)
    intro segments segments' hcut hcut'
    have hall : ∀ {segments}, Cut (head ++ crlf2 ++ body) segments →
        (pollRequest (.fresh address) segments).received = head ++ crlf2 ++ body ∧
          (pollRequest (.fresh address) segments).address = address := by
      intro segments hcut
      exact pollRequest_all h hz hcut.joined
    have hsame : pollRequest (.fresh address) segments = pollRequest (.fresh address) segments' :=
      Client.eq_of_fields ((hall hcut).1.trans (hall hcut').1.symm) ((hall hcut).2.trans (hall hcut').2.symm)
    rw [hsame]
  · rw [or_iff_right hz]
    have hunseen : ¬ (Client.fresh address).hasBlankLine := by
      rw [Client.hasBlankLine_iff]
      exact fun hin => absurd hin.length_le (by simp [Client.fresh, cstr, crlf2, crlf])
    constructor
    · intro halike b hb
      obtain ⟨segments, hcut, ha⟩ := exists_cut h hz address hb
      obtain ⟨segments', hcut', ha'⟩ := exists_cut h hz address List.nil_prefix
      have hempty := (outcome_iff bio hp h ha' hz).mpr fun hne => absurd rfl hne
      rw [← outcome_iff bio hp h ha hz]
      exact (halike segments segments' hcut hcut').trans hempty
    · intro hharmless segments segments' hcut hcut'
      have hall : ∀ {segments}, Cut (head ++ crlf2 ++ body) segments →
          ∃ b, Arrives head body address (pollRequest (.fresh address) segments) b :=
        fun hcut => pollRequest_arrives h hz rfl hcut.joined hunseen
      obtain ⟨b, ha⟩ := hall hcut
      obtain ⟨b', ha'⟩ := hall hcut'
      rw [(outcome_iff bio hp h ha hz).mpr (hharmless b ha.cut),
        (outcome_iff bio hp h ha' hz).mpr (hharmless b' ha'.cut)]

theorem complete_get : Complete (lit "GET / HTTP/1.1") [] :=
  ⟨by decide, (Occurrence.find_eq_none_iff).mp (by decide), by decide⟩

theorem cuts_alike_get :
    CutsAlike Prizm.reference Base64Filter.reference [] (lit "GET / HTTP/1.1" ++ crlf2 ++ []) := by
  refine (cuts_alike_iff Prizm.reference Base64Filter.reference Prizm.reference_documented [] complete_get).mpr
    (.inr fun b hb hne => ?_)
  exact absurd (by rw [List.prefix_nil.mp hb]; rfl) hne

/-- A request line and a body that comes later. -/
theorem complete_post : Complete (lit "POST /a HTTP/1.1") (lit "x=1") :=
  ⟨by decide, (Occurrence.find_eq_none_iff).mp (by decide), by decide⟩

/-- In one read the content is there, in two it is not. -/
theorem cuts_differ_post :
    ¬ CutsAlike Prizm.reference Base64Filter.reference [] (lit "POST /a HTTP/1.1" ++ crlf2 ++ lit "x=1") := by
  intro halike
  have hz : (0 : Byte) ∉ lit "POST /a HTTP/1.1" := by decide
  obtain ⟨segments, hcut, ha⟩ := exists_cut complete_post hz [] (List.prefix_refl (lit "x=1"))
  obtain ⟨segments', hcut', ha'⟩ := exists_cut complete_post hz [] (List.nil_prefix (l := lit "x=1"))
  have hempty := (outcome_iff Base64Filter.reference Prizm.reference_documented complete_post ha' hz).mpr
    fun hne => absurd rfl hne
  have hharmless := (outcome_iff Base64Filter.reference Prizm.reference_documented complete_post ha hz).mp
    ((halike segments segments' hcut hcut').trans hempty) (by decide)
  have hno : headerFields Prizm.reference (lit "POST /a HTTP/1.1") = [] := by decide
  have hread : NumbersReadable (headerFields Prizm.reference (lit "POST /a HTTP/1.1")) := by
    rw [hno]
    exact ⟨fun f hf => absurd hf List.not_mem_nil, fun ⟨f, hf, _⟩ => absurd hf List.not_mem_nil⟩
  have hoctet := (hharmless.ignored hread).2.1
  rw [hno] at hoctet
  exact absurd hoctet List.not_mem_nil

end Jericho.Server
