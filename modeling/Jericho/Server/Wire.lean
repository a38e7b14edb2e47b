import Jericho.Server.Fetch

/-! What `send_request` writes, read back by `Request::eval`. The header text is a list of
lines; the reader sees the same lines with or without the final blank one. -/
namespace Jericho.Server
open StdText Util Message Crypt

/-- Free of CR, LF and NUL. -/
def Plain (s : Bytes) : Prop := ∀ c ∈ s, c ≠ 13 ∧ c ≠ 10 ∧ c ≠ 0

instance (s : Bytes) : Decidable (Plain s) := List.decidableBAll _ s

theorem Plain.append {s t : Bytes} (hs : Plain s) (ht : Plain t) : Plain (s ++ t) := by
  intro c hc
  rcases List.mem_append.mp hc with h | h
  · exact hs c h
  · exact ht c h

theorem Plain.cstr {s : Bytes} (h : Plain s) : StdText.cstr s = s :=
  cstr_eq_self_iff.mpr fun hz => (h 0 hz).2.2 rfl

theorem Plain.notMem_cr {s : Bytes} (h : Plain s) : (13 : Byte) ∉ s := fun hm => (h _ hm).1 rfl
theorem Plain.notMem_lf {s : Bytes} (h : Plain s) : (10 : Byte) ∉ s := fun hm => (h _ hm).2.1 rfl

theorem plain_decimal (n : Nat) : Plain (decimal n) := by
  intro c hc
  have hd := isdigit_of_mem_decimal hc
  refine ⟨?_, ?_, ?_⟩ <;> rintro rfl <;> revert hd <;> decide

/-- A header whose key and value survive on a line. -/
structure PlainField (f : Field) : Prop where
  key : Plain f.1
  value : Plain f.2
  noSeparator : ¬ lit ": " <:+: f.1

def fieldLine (f : Field) : Bytes := f.1 ++ lit ": " ++ f.2

theorem PlainField.line {f : Field} (h : PlainField f) : Plain (fieldLine f) :=
  (h.key.append (by decide)).append h.value

theorem PlainField.headerText {f : Field} (h : PlainField f) : headerText f = fieldLine f ++ crlf := by
  rw [Server.headerText, h.key.cstr, h.value.cstr, fieldLine]

/-- A pattern starts with its first character. -/
private theorem infix_of_append {c : Byte} {pat a t : Bytes} (hc : c ∉ a) (h : c :: pat <:+: a ++ t) :
    c :: pat <:+: t := by
  induction a with
  | nil => exact h
  | cons x a ih =>
    obtain ⟨hx, ha⟩ : c ≠ x ∧ c ∉ a := by simpa using hc
    rw [List.cons_append, List.infix_cons_iff] at h
    rcases h with h | h
    · exact absurd (List.cons_prefix_cons.mp h).1 hx
    · exact ih ha h

/-- Lines between which the blank line cannot be found. -/
theorem crlf2_notInfix {lines : List Bytes} {last : Bytes}
    (hlines : ∀ l ∈ lines, Plain l ∧ l ≠ []) (hlast : Plain last ∧ last ≠ []) :
    ¬ crlf2 <:+: lines.flatMap (· ++ crlf) ++ last ++ crlf2.dropLast := by
  induction lines with
  | nil =>
    intro h
    have h := infix_of_append hlast.1.notMem_cr (by simpa [crlf2, crlf] using h)
    simpa [crlf2, crlf] using h.length_le
  | cons l lines ih =>
    intro h
    have ih := ih (fun k hk => hlines k (by simp [hk]))
    rw [List.flatMap_cons, List.append_assoc, List.append_assoc, List.append_assoc] at h
    have h := infix_of_append (hlines l (by simp)).1.notMem_cr (by simpa [crlf2, crlf] using h)
    have hhead : ∃ x rest, lines.flatMap (· ++ crlf) ++ last ++ crlf2.dropLast = x :: rest ∧ x ≠ 13 := by
      cases lines with
      | nil =>
        obtain ⟨x, rest, rfl⟩ := List.exists_cons_of_ne_nil hlast.2
        exact ⟨x, rest ++ crlf2.dropLast, by simp, (hlast.1 x (by simp)).1⟩
      | cons k lines =>
        obtain ⟨hk, hne⟩ := hlines k (by simp)
        obtain ⟨x, rest, rfl⟩ := List.exists_cons_of_ne_nil hne
        exact ⟨x, _, by simp only [List.flatMap_cons, List.cons_append]; rfl, (hk x (by simp)).1⟩
    obtain ⟨x, rest, hx, hne⟩ := hhead
    have hx' : lines.flatMap (· ++ crlf) ++ (last ++ [13, 10, 13]) = x :: rest := by
      simpa [crlf2, crlf] using hx
    rw [show lines.flatMap (fun l => l ++ [13, 10]) ++ (last ++ [13, 10, 13]) = x :: rest from hx'] at h
    rw [hx] at ih
    rw [List.infix_cons_iff, List.infix_cons_iff] at h
    rcases h with h | h | h
    · simp only [List.cons_prefix_cons] at h
      exact hne h.2.2.1.symm
    · simp at h
    · exact ih h

variable {prizm : Prizm} {bio : Base64Filter}

/-- A line as the reader sees it: with or without the CR of its line end. -/
def LineOf (word line : Bytes) : Prop := word = line ∨ word = line ++ [13]

/-- The separator is found where the line was joined. -/
theorem find_separator {key : Bytes} (h : ¬ lit ": " <:+: key) (rest : Bytes) :
    Occurrence.find (lit ": ") (key ++ lit ": " ++ rest) = some key.length := by
  apply Occurrence.find_append (by decide)
  have hsep : lit ": " = [58, 32] := by decide
  rw [hsep]
  intro hin
  rcases List.infix_concat_iff.mp hin with ⟨a, ha⟩ | hin
  · have := congrArg List.getLast? ha
    simp at this
  · exact h (hsep ▸ hin)

theorem headerLine_field (hp : prizm.Documented) (s : HeaderScan) {f : Field} (hf : PlainField f)
    {word : Bytes} (hw : LineOf word (fieldLine f)) :
    headerLine prizm s word = headerField s f.1 f.2 := by
  obtain ⟨t, ht, rfl⟩ : ∃ t, (t = [] ∨ t = [13]) ∧ word = f.1 ++ lit ": " ++ (f.2 ++ t) := by
    rcases hw with rfl | rfl
    · exact ⟨[], .inl rfl, by simp [fieldLine]⟩
    · exact ⟨[13], .inr rfl, by simp [fieldLine]⟩
  have herase : (f.2 ++ t).filter (· ≠ 13) = f.2 := by
    rw [List.filter_append]
    have h1 : f.2.filter (· ≠ 13) = f.2 := by
      rw [List.filter_eq_self]
      intro c hc
      simpa using (hf.value c hc).1
    rcases ht with rfl | rfl
    · simpa using h1
    · simpa using h1
  unfold headerLine
  rw [find_separator hf.noSeparator]
  have htake : (f.1 ++ lit ": " ++ (f.2 ++ t)).take f.1.length = f.1 := by simp
  have hdrop : (f.1 ++ lit ": " ++ (f.2 ++ t)).drop (f.1.length + 2) = f.2 ++ t := by
    rw [List.append_assoc, List.drop_append]
    simp [lit]
  dsimp only
  rw [htake, hdrop, hp.erase_eq, herase]

theorem foldlM_headerLine (hp : prizm.Documented) {words : List Bytes} {fs : List Field}
    (hw : List.Forall₂ (fun w f => LineOf w (fieldLine f)) words fs) (hf : ∀ f ∈ fs, PlainField f)
    (s : HeaderScan) : words.foldlM (headerLine prizm) s = scanFields s fs := by
  induction hw generalizing s with
  | nil => rfl
  | cons h _ ih =>
    rw [List.foldlM_cons, headerLine_field hp s (hf _ (by simp)) h]
    simp only [ih (fun g hg => hf g (by simp [hg]))]
    rfl

theorem headerWords_append {line : Bytes} (h : (10 : Byte) ∉ line) (rest : Bytes) :
    headerWords (line ++ 10 :: rest) = (if line = [] then [] else [line]) ++ headerWords rest := by
  unfold headerWords
  rw [List.splitOn_append_cons_self_of_not_mem h, List.filter_cons]
  by_cases hnil : line = []
  · simp [hnil]
  · simp [hnil]

theorem headerWords_cons {line : Bytes} (h : (10 : Byte) ∉ line) (rest : Bytes) :
    headerWords (line ++ crlf ++ rest) = (line ++ [13]) :: headerWords rest := by
  have hlf : (10 : Byte) ∉ line ++ [13] := by simp [h]
  have htext : line ++ crlf ++ rest = (line ++ [13]) ++ 10 :: rest := by simp [crlf]
  rw [htext, headerWords_append hlf, if_neg (by simp)]
  rfl

theorem headerWords_last {line : Bytes} (h : (10 : Byte) ∉ line) (hne : line ≠ []) :
    headerWords line = [line] := by
  have hsplit : line.splitOn 10 = [line] :=
    List.splitOnP_eq_singleton (fun c hc => by simpa using fun h10 : c = 10 => h (h10 ▸ hc))
  simp [headerWords, hsplit, hne]

/-- The words of written lines, the last of them without its line end. -/
theorem headerWords_lines {lines : List Bytes} {last : Bytes}
    (hlines : ∀ l ∈ lines, Plain l) (hlast : Plain last) (hne : last ≠ []) :
    List.Forall₂ LineOf (headerWords (lines.flatMap (· ++ crlf) ++ last)) (lines ++ [last]) := by
  induction lines with
  | nil =>
    rw [List.flatMap_nil, List.nil_append, headerWords_last hlast.notMem_lf hne]
    exact .cons (.inl rfl) .nil
  | cons l lines ih =>
    rw [List.flatMap_cons, List.append_assoc, headerWords_cons (hlines l (by simp)).notMem_lf]
    exact .cons (.inr rfl) (ih (fun k hk => hlines k (by simp [hk])))

/-- The words of written lines and the blank line after them. -/
theorem headerWords_blank {lines : List Bytes} (hlines : ∀ l ∈ lines, Plain l) :
    ∃ words, headerWords (lines.flatMap (· ++ crlf) ++ crlf) = words ++ [[13]] ∧
      List.Forall₂ LineOf words lines := by
  induction lines with
  | nil => exact ⟨[], by decide, .nil⟩
  | cons l lines ih =>
    obtain ⟨words, hwords, hall⟩ := ih (fun k hk => hlines k (by simp [hk]))
    refine ⟨(l ++ [13]) :: words, ?_, .cons (.inr rfl) hall⟩
    rw [List.flatMap_cons, List.append_assoc, headerWords_cons (hlines l (by simp)).notMem_lf, hwords]
    rfl

/-- A word of the request line: it passes every test of the character loop. -/
def RequestWord (s : Bytes) : Prop := ∀ c ∈ s, c ≠ 32 ∧ c ≠ 9 ∧ c ≠ 13

instance (s : Bytes) : Decidable (RequestWord s) := List.decidableBAll _ s

/-- The method is complete at the first blank. -/
theorem RequestLine.read_method {s : Bytes} {l : RequestLine} (h : 0 < l.sepGate) :
    (s.foldl RequestLine.read l).method = l.method := by
  induction s generalizing l with
  | nil => rfl
  | cons c s ih =>
    have hstep : (l.read c).method = l.method ∧ 0 < (l.read c).sepGate := by
      unfold RequestLine.read
      split_ifs with h32 h9 h13 h0
      · exact ⟨rfl, Nat.succ_pos _⟩
      · exact ⟨rfl, h⟩
      · exact ⟨rfl, h⟩
      · exact absurd h0 h.ne'
      · exact ⟨rfl, h⟩
      · exact ⟨rfl, h⟩
      · exact ⟨rfl, h⟩
    rw [List.foldl_cons, ih hstep.2, hstep.1]

/-- Characters of a word go to the field the gate selects. -/
theorem RequestLine.read_word {s : Bytes} (h : RequestWord s) (m p q : Bytes) :
    s.foldl RequestLine.read ⟨0, m, p, q⟩ = ⟨0, m ++ s, p, q⟩ ∧
    s.foldl RequestLine.read ⟨1, m, p, q⟩ = ⟨1, m, p ++ s, q⟩ ∧
    s.foldl RequestLine.read ⟨2, m, p, q⟩ = ⟨2, m, p, q ++ s⟩ := by
  induction s generalizing m p q with
  | nil => simp
  | cons c s ih =>
    obtain ⟨hc, hs⟩ := List.forall_mem_cons.mp h
    have ih0 := (ih hs (m ++ [c]) p q).1
    have ih1 := (ih hs m (p ++ [c]) q).2.1
    have ih2 := (ih hs m p (q ++ [c])).2.2
    simp only [List.foldl_cons, RequestLine.read, hc.1, hc.2.1, hc.2.2, if_false, if_true,
      OfNat.ofNat_ne_zero, one_ne_zero, OfNat.ofNat_ne_one]
    refine ⟨?_, ?_, ?_⟩
    · rw [ih0, List.append_assoc]
      rfl
    · rw [ih1, List.append_assoc]
      rfl
    · rw [ih2, List.append_assoc]
      rfl

def requestLineText (path word : Bytes) : Bytes := lit "GET " ++ path ++ lit " " ++ word

theorem read_requestLine {path word : Bytes} (hpath : RequestWord path) (hword : RequestWord word)
    {line : Bytes} (hl : LineOf line (requestLineText path word)) :
    line.foldl RequestLine.read {} = ⟨2, lit "GET", path, word⟩ := by
  have hmain : (requestLineText path word).foldl RequestLine.read {} = ⟨2, lit "GET", path, word⟩ := by
    have hget : (lit "GET ").foldl RequestLine.read {} = ⟨1, lit "GET", [], []⟩ := by decide
    unfold requestLineText
    rw [List.foldl_append, List.foldl_append, List.foldl_append, hget, (RequestLine.read_word hpath _ _ _).2.1]
    have hgap : (lit " ").foldl RequestLine.read ⟨1, lit "GET", [] ++ path, []⟩ = ⟨2, lit "GET", path, []⟩ := rfl
    rw [hgap, (RequestLine.read_word hword _ _ _).2.2, List.nil_append]
  rcases hl with rfl | rfl
  · exact hmain
  · rw [List.foldl_append, hmain]
    rfl

/-- The headers that have to be numbers for the reader to return. -/
structure NumbersReadable (fs : List Field) : Prop where
  size : ∀ f ∈ fs, f.1 = lit "Content-Size" → ∃ n, readSize f.2 = .ok n
  callback : (∃ f ∈ fs, isCallbackKey f.1) →
    ∀ k ∈ callbackNumbers, ∃ n, stoi (StrMap.get (StrMap.assign ∅ fs) k) = .ok n

/-- The callback headers are found in the map of all headers. -/
theorem get_callbackMap (fs : List Field) {k : Bytes} (hk : isCallbackKey k) :
    StrMap.get (StrMap.assign ∅ (fs.filter (isCallbackKey ·.1))) k = StrMap.get (StrMap.assign ∅ fs) k := by
  have hlookup : ∀ es : List Field, (es.filter (isCallbackKey ·.1)).dlookup k = es.dlookup k := by
    intro es
    induction es with
    | nil => rfl
    | cons e es ih =>
      by_cases he : k = e.1
      · obtain ⟨a, b⟩ := e
        obtain rfl : k = a := he
        rw [List.filter_cons_of_pos (by simpa using hk), List.dlookup_cons_eq, List.dlookup_cons_eq]
      · rw [List.dlookup_cons_ne _ _ he, List.filter_cons]
        split
        · rw [List.dlookup_cons_ne _ _ he, ih]
        · exact ih
  unfold StrMap.get
  rw [StrMap.lookup_assign, StrMap.lookup_assign, ← List.filter_reverse, hlookup]

theorem assign_eq_empty_iff (fs : List Field) : StrMap.assign ∅ fs = ∅ ↔ fs = [] := by
  constructor
  · intro h
    cases fs using List.reverseRecOn with
    | nil => rfl
    | append_singleton fs f =>
      obtain ⟨a, b⟩ := f
      have hl := StrMap.lookup_assign ∅ (fs ++ [⟨a, b⟩]) a
      rw [h, List.reverse_append] at hl
      simp [List.dlookup_cons_eq] at hl
  · rintro rfl
    rfl

theorem fillRequest_isOk_iff (s : HeaderScan) (l : RequestLine) :
    (∃ r, fillRequest s l = .ok r) ↔
      (s.callbackMap ≠ ∅ → ∀ k ∈ callbackNumbers, ∃ n, stoi (s.callbackMap.get k) = .ok n) := by
  unfold fillRequest
  rw [← Callback.ofMap_isOk_iff]
  by_cases h : s.callbackMap = ∅
  · simp [h]
  · simp [h, map_eq_ok]

/-- The stored fields, whether or not there is a callback. -/
theorem fillRequest_eq_ok {s : HeaderScan} {l : RequestLine} {r : Request} (h : fillRequest s l = .ok r) :
    ∃ callback, r = { s.req with
      method := l.method, path := l.path, protocol := l.protocol, headers := s.args2, callback := callback } := by
  unfold fillRequest at h
  dsimp only at h
  split at h
  · obtain rfl := Except.ok.inj h
    exact ⟨s.req.callback, rfl⟩
  · obtain ⟨cb, -, rfl⟩ := map_eq_ok.mp h
    exact ⟨some cb, rfl⟩

theorem fillRequest_ok {s : HeaderScan} {l : RequestLine} {r : Request} (h : fillRequest s l = .ok r) :
    r.method = l.method ∧ r.path = l.path ∧ r.protocol = l.protocol ∧ r.headers = s.args2 ∧
      r.content = s.req.content := by
  obtain ⟨callback, rfl⟩ := fillRequest_eq_ok h
  exact ⟨rfl, rfl, rfl, rfl, rfl⟩

theorem fillRequest_numbers {fs : List Field} {s s' : HeaderScan} (h : scanFields s fs = .ok s')
    (hs : s.callbackMap = ∅) (l : RequestLine) :
    (∃ req, fillRequest s' l = .ok req) ↔ ((∃ f ∈ fs, isCallbackKey f.1) →
      ∀ k ∈ callbackNumbers, ∃ n, stoi (StrMap.get (StrMap.assign ∅ fs) k) = .ok n) := by
  have hkeys : ∀ k ∈ callbackNumbers, isCallbackKey k := by decide
  rw [fillRequest_isOk_iff, (scanFields_ok h).2.1, hs, ne_eq, assign_eq_empty_iff, List.filter_eq_nil_iff]
  simp only [not_forall, not_not, exists_prop]
  constructor
  · intro hread hsome k hk
    rw [← get_callbackMap fs (hkeys k hk)]
    exact hread hsome k hk
  · intro hread hsome k hk
    rw [get_callbackMap fs (hkeys k hk)]
    exact hread hsome k hk

/-- Header words that were written are scanned as their fields; a blank one behind them is none. -/
theorem foldlM_headerWords (hp : prizm.Documented) {words : List Bytes} {fs : List Field}
    (hw : List.Forall₂ (fun w f => LineOf w (fieldLine f)) words fs) (hf : ∀ f ∈ fs, PlainField f) (s : HeaderScan) :
    words.foldlM (headerLine prizm) s = scanFields s fs ∧
      (words ++ [[13]]).foldlM (headerLine prizm) s = scanFields s fs := by
  have hscan := foldlM_headerLine hp hw hf s
  refine ⟨hscan, ?_⟩
  have hblank : ∀ s : HeaderScan, [[(13 : Byte)]].foldlM (headerLine prizm) s = .ok s := fun s => rfl
  rw [List.foldlM_append, hscan]
  simp only [hblank]
  cases scanFields s fs with
  | error e => rfl
  | ok s => rfl

variable (bio) in
/-- After the headers of a GET without a query nothing happens. -/
theorem readContent_get {req : Request} (hmethod : req.method = lit "GET") (hquery : (63 : Byte) ∉ req.path) :
    readContent prizm bio (splitQuery prizm req) = .ok req := by
  have hnone : Occurrence.find [63] req.path = none := by
    rw [Occurrence.find_eq_none_iff]
    intro h
    exact hquery (h.subset (List.mem_singleton_self _))
  have hget : ¬ req.method = lit "POST" := by
    rw [hmethod]
    decide
  simp [splitQuery, hnone, readContent, hget]

/-- What the reader makes of a request line and header lines. -/
structure ReadBack (path word content : Bytes) (fs : List Field) (r : Request) : Prop where
  path_eq : r.path = path
  protocol_eq : r.protocol = word
  content_eq : r.content = content
  lookup_eq : ∀ k, r.headers.lookup k = fs.reverse.dlookup k

variable (bio) in
/-- Header lines that were written are read, in order, into the request; the call returns
exactly when the numeric headers are numbers. -/
theorem parseHeaders_lines (hp : prizm.Documented) (req : Request) {headerStr : Bytes} {words : List Bytes}
    {path word : Bytes} {fs : List Field}
    (hwords : headerWords headerStr = words ∨ headerWords headerStr = words ++ [[13]])
    (hall : List.Forall₂ LineOf words (requestLineText path word :: fs.map fieldLine))
    (hf : ∀ f ∈ fs, PlainField f) (hpath : RequestWord path) (hquery : (63 : Byte) ∉ path)
    (hword : RequestWord word) :
    ((∃ r, Request.parseHeaders prizm bio req headerStr = .ok r) ↔ NumbersReadable fs) ∧
    ∀ r, Request.parseHeaders prizm bio req headerStr = .ok r → ReadBack path word req.content fs r := by
  obtain ⟨line, rest, hline, hrest, rfl⟩ := List.forall₂_cons_right_iff.mp hall
  have hfields : List.Forall₂ (fun w f => LineOf w (fieldLine f)) rest fs := List.forall₂_map_right_iff.mp hrest
  obtain ⟨hplain, hblank⟩ := foldlM_headerWords hp hfields hf ⟨req, ∅, ∅⟩
  have hscan : (headerWords headerStr).tail.foldlM (headerLine prizm) ⟨req, ∅, ∅⟩ =
      scanFields ⟨req, ∅, ∅⟩ fs := by
    rcases hwords with h | h
    · rw [h]
      exact hplain
    · rw [h]
      exact hblank
  have hhead : ((headerWords headerStr).headD []).foldl RequestLine.read {} = ⟨2, lit "GET", path, word⟩ := by
    rw [← read_requestLine hpath hword hline]
    rcases hwords with h | h <;> rw [h] <;> rfl
  have hparse : ∀ r, Request.parseHeaders prizm bio req headerStr = .ok r ↔
      ∃ s, scanFields ⟨req, ∅, ∅⟩ fs = .ok s ∧ fillRequest s ⟨2, lit "GET", path, word⟩ = .ok r := by
    intro r
    unfold Request.parseHeaders
    dsimp only
    rw [hscan, hhead]
    simp only [bind_eq_ok]
    constructor
    · rintro ⟨s, hs, r', hr', h⟩
      obtain ⟨hm, hrp, -⟩ := fillRequest_ok hr'
      rw [readContent_get bio hm (hrp ▸ hquery)] at h
      obtain rfl := Except.ok.inj h
      exact ⟨s, hs, hr'⟩
    · rintro ⟨s, hs, hr⟩
      obtain ⟨hm, hrp, -⟩ := fillRequest_ok hr
      exact ⟨s, hs, r, hr, readContent_get bio hm (hrp ▸ hquery)⟩
  refine ⟨?_, ?_⟩
  · constructor
    · rintro ⟨r, hr⟩
      obtain ⟨s, hs, hr⟩ := (hparse r).mp hr
      exact ⟨(scanFields_isOk_iff _ _).mp ⟨s, hs⟩, (fillRequest_numbers hs rfl _).mp ⟨r, hr⟩⟩
    · rintro ⟨hsize, hcb⟩
      obtain ⟨s, hs⟩ := (scanFields_isOk_iff ⟨req, ∅, ∅⟩ fs).mpr hsize
      obtain ⟨r, hr⟩ := (fillRequest_numbers hs rfl _).mpr hcb
      exact ⟨r, (hparse r).mpr ⟨s, hs, hr⟩⟩
  · intro r hr
    obtain ⟨s, hs, hr⟩ := (hparse r).mp hr
    obtain ⟨-, hrp, hrw, hrh, hrc⟩ := fillRequest_ok hr
    obtain ⟨hargs, -, hrest⟩ := scanFields_ok hs
    refine ⟨hrp, hrw, ?_, ?_⟩
    · rw [hrc]
      exact congrArg Prod.fst hrest
    · intro k
      rw [hrh, hargs, StrMap.lookup_assign]
      simp

end Jericho.Server
