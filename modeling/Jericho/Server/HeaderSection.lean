import Jericho.Server.Readable
import Jericho.Server.RoundTrip

/-! The header section of a message: what `send_request` writes up to the blank line, and the
headers that `parseHeaders` finds in it. -/
namespace Jericho.Server
open StdText Util Message Crypt

/-- A header as it is written: cut at its NULs. -/
def cutField (f : Field) : Field := ⟨cstr f.1, cstr f.2⟩

/-- A header as it is read: the line is split at its first separator, which a key may hold itself,
and the value loses its carriage returns. -/
def readField (f : Field) : Field :=
  match Occurrence.find (lit ": ") f.1 with
  | some sep => ⟨f.1.take sep, (f.1.drop (sep + 2) ++ lit ": " ++ f.2).filter (· ≠ 13)⟩
  | none => ⟨f.1, f.2.filter (· ≠ 13)⟩

def sectionText (lines : List Bytes) : Bytes := lines.flatMap (· ++ crlf) ++ crlf

theorem readField_of_noSeparator {f : Field} (h : ¬ lit ": " <:+: f.1) :
    readField f = ⟨f.1, f.2.filter (· ≠ 13)⟩ := by
  unfold readField
  rw [Occurrence.find_eq_none_iff.mpr h]

theorem PlainField.cutField {f : Field} (h : PlainField f) : cutField f = f := by
  unfold Server.cutField
  rw [h.key.cstr, h.value.cstr]

theorem PlainField.readField {f : Field} (h : PlainField f) : readField f = f := by
  rw [readField_of_noSeparator h.noSeparator, List.filter_eq_self.mpr]
  intro c hc
  simpa using (h.value c hc).1

theorem requestHead_ok {hostname port path head : Bytes} {buf : MessageBuffer}
    (h : requestHead hostname port path buf = .ok head) :
    ∃ word, protocolWord buf.protocol = .ok word ∧
      head = sectionText (requestLineText (cstr path) word ::
        ((fixedHeaders hostname port buf ++ buf.headers.entries).map cutField).map fieldLine) := by
  obtain ⟨word, hword, h⟩ := bind_eq_ok.mp h
  refine ⟨word, hword, (Except.ok.inj h).symm.trans ?_⟩
  have hlines : ∀ fs : List Field, fs.flatMap headerText = ((fs.map cutField).map fieldLine).flatMap (· ++ crlf) := by
    intro fs
    rw [List.map_map, List.flatMap_map]
    rfl
  unfold sectionText requestLineText
  rw [hlines, hlines, List.flatMap_cons, List.map_append, List.map_append, List.flatMap_append]
  simp only [List.append_assoc]

theorem headerWords_section {lines : List Bytes} (h : ∀ l ∈ lines, (10 : Byte) ∉ l) :
    headerWords (sectionText lines) = lines.map (· ++ [13]) ++ [[13]] := by
  induction lines with
  | nil => decide
  | cons l lines ih =>
    obtain ⟨hl, hlines⟩ := List.forall_mem_cons.mp h
    have htext : sectionText (l :: lines) = l ++ crlf ++ sectionText lines := by
      unfold sectionText
      rw [List.flatMap_cons, List.append_assoc]
    rw [htext, headerWords_cons hl, ih hlines]
    rfl

variable {prizm : Prizm} {bio : Base64Filter}

/-- A written line is read as a header. -/
theorem lineField_line (hp : prizm.Documented) (f : Field) :
    lineField prizm (fieldLine f ++ [13]) = some (readField f) := by
  have hcr : ∀ s : Bytes, (s ++ [13]).filter (· ≠ 13) = s.filter (· ≠ 13) := by
    intro s
    rw [List.filter_append]
    exact List.append_nil _
  unfold lineField readField fieldLine
  cases hfind : Occurrence.find (lit ": ") f.1 with
  | some sep =>
    have hle : sep + 2 ≤ f.1.length := Occurrence.find_le hfind
    rw [List.append_assoc, List.append_assoc, Occurrence.find_append_of_find hfind, Option.map_some]
    dsimp only
    rw [List.take_append_of_le_length (by omega), List.drop_append_of_le_length hle, hp.erase_eq,
      ← List.append_assoc, ← List.append_assoc, hcr]
  | none =>
    have hnone : ¬ lit ": " <:+: f.1 := Occurrence.find_eq_none_iff.mp hfind
    rw [List.append_assoc, find_separator hnone, Option.map_some]
    dsimp only
    have hdrop : (f.1 ++ lit ": " ++ (f.2 ++ [13])).drop (f.1.length + 2) = f.2 ++ [13] := by
      rw [List.drop_append]
      simp [lit]
    rw [hdrop, hp.erase_eq, hcr, List.append_assoc, List.take_left]

theorem headerFields_section (hp : prizm.Documented) {line : Bytes} (hline : (10 : Byte) ∉ line) {fs : List Field}
    (hfs : ∀ f ∈ fs, (10 : Byte) ∉ fieldLine f) :
    headerFields prizm (sectionText (line :: fs.map fieldLine)) = fs.map readField := by
  have hblank : lineField prizm [13] = none := rfl
  unfold headerFields
  rw [headerWords_section (List.forall_mem_cons.mpr ⟨hline, List.forall_mem_map.mpr hfs⟩), List.map_cons,
    List.cons_append, List.tail_cons, List.filterMap_append, List.filterMap_cons_none hblank, List.filterMap_nil,
    List.append_nil, List.map_map, List.filterMap_map]
  have hread : lineField prizm ∘ (· ++ [13]) ∘ fieldLine = some ∘ readField := by
    funext f
    exact lineField_line hp f
  rw [hread, ← List.filterMap_map, List.filterMap_some]

theorem requestLine_section {line : Bytes} (hline : (10 : Byte) ∉ line) {lines : List Bytes}
    (hlines : ∀ l ∈ lines, (10 : Byte) ∉ l) :
    requestLine (sectionText (line :: lines)) = (line ++ [13]).foldl RequestLine.read {} := by
  unfold requestLine
  rw [headerWords_section (List.forall_mem_cons.mpr ⟨hline, hlines⟩)]
  rfl

theorem requestLineText_method (path word rest : Bytes) :
    ((requestLineText path word ++ rest).foldl RequestLine.read {}).method = lit "GET" := by
  have hget : (lit "GET ").foldl RequestLine.read {} = ⟨1, lit "GET", [], []⟩ := by decide
  unfold requestLineText
  rw [List.append_assoc, List.append_assoc, List.append_assoc, List.foldl_append, hget]
  exact RequestLine.read_method Nat.one_pos

/-- `prizm::erase` on a host or a port. -/
def noCr (s : Bytes) : Bytes := s.filter (· ≠ 13)

theorem cstr_noCr (s : Bytes) : cstr (noCr s) = noCr (cstr s) := by
  induction s with
  | nil => rfl
  | cons c s ih =>
    unfold cstr noCr at ih ⊢
    by_cases hcr : c = 13
    · have hc : c ≠ 0 := by
        rw [hcr]
        decide
      rw [List.filter_cons_of_neg (by simpa using hcr), List.takeWhile_cons_of_pos (by simpa using hc),
        List.filter_cons_of_neg (by simpa using hcr), ih]
    · rw [List.filter_cons_of_pos (by simpa using hcr)]
      by_cases hc : c = 0
      · rw [List.takeWhile_cons_of_neg (by simpa using hc), List.takeWhile_cons_of_neg (by simpa using hc)]
        rfl
      · rw [List.takeWhile_cons_of_pos (by simpa using hc), List.takeWhile_cons_of_pos (by simpa using hc),
          List.filter_cons_of_pos (by simpa using hcr), ih]

theorem fixedHeaders_cons (hostname port : Bytes) (buf : MessageBuffer) :
    fixedHeaders hostname port buf =
      ⟨lit "Host", cstr hostname ++ lit ":" ++ cstr port⟩ :: (fixedHeaders [] [] buf).tail := rfl

theorem fixedHeaders_tail_plain (buf : MessageBuffer) : ∀ f ∈ (fixedHeaders [] [] buf).tail, PlainField f :=
  fun f hf => fixedHeaders_plain (by decide) (by decide) buf f (List.mem_of_mem_tail hf)

theorem map_readField_plain {fs : List Field} (h : ∀ f ∈ fs, PlainField f) : fs.map (readField ∘ cutField) = fs := by
  refine (List.map_congr_left fun f hf => ?_).trans (List.map_id _)
  exact (congrArg readField (h f hf).cutField).trans (h f hf).readField

theorem map_readField_fixed (hostname port : Bytes) (buf : MessageBuffer) :
    (fixedHeaders hostname port buf).map (readField ∘ cutField) = fixedHeaders (noCr hostname) (noCr port) buf := by
  have hz : (0 : Byte) ∉ cstr hostname ++ lit ":" ++ cstr port := by
    simp only [List.mem_append, not_or]
    exact ⟨⟨zero_notMem_cstr _, by decide⟩, zero_notMem_cstr _⟩
  have hcut : cutField ⟨lit "Host", cstr hostname ++ lit ":" ++ cstr port⟩ =
      ⟨lit "Host", cstr hostname ++ lit ":" ++ cstr port⟩ := by
    unfold cutField
    rw [cstr_eq_self_iff.mpr hz, cstr_eq_self_iff.mpr (by decide : (0 : Byte) ∉ lit "Host")]
  rw [fixedHeaders_cons, fixedHeaders_cons (noCr hostname), List.map_cons,
    map_readField_plain (fixedHeaders_tail_plain buf), Function.comp_apply, hcut,
    readField_of_noSeparator (by decide : ¬ lit ": " <:+: lit "Host"), cstr_noCr, cstr_noCr, List.filter_append,
    List.filter_append]
  rfl

/-- The headers of a section `send_request` wrote: the fixed ones and the message's own. -/
theorem headerFields_sent (hp : prizm.Documented) {hostname port path text : Bytes} {buf : MessageBuffer}
    (hhost : (10 : Byte) ∉ hostname) (hport : (10 : Byte) ∉ port) (hpath : (10 : Byte) ∉ path)
    (hown : ∀ f ∈ buf.headers.entries, (10 : Byte) ∉ f.1 ∧ (10 : Byte) ∉ f.2)
    (h : headerSection hostname port path buf = .ok text) :
    headerFields prizm text =
        fixedHeaders (noCr hostname) (noCr port) buf ++ buf.headers.entries.map (readField ∘ cutField) ∧
      (requestLine text).method = lit "GET" ∧ buf.sent.length < 2^31 := by
  obtain ⟨hsize, hhead, -⟩ := headerSection_eq_ok.mp h
  obtain ⟨word, hword, rfl⟩ := requestHead_ok hhead
  have hcstr : ∀ {s : Bytes}, (10 : Byte) ∉ s → (10 : Byte) ∉ cstr s :=
    fun hs hmem => hs (List.takeWhile_subset _ hmem)
  have hwordline : (10 : Byte) ∉ word := by
    unfold protocolWord at hword
    split_ifs at hword
    · rw [← Except.ok.inj hword]
      decide
    · rw [← Except.ok.inj hword]
      decide
  have hline : (10 : Byte) ∉ requestLineText (cstr path) word := by
    unfold requestLineText
    simp only [List.mem_append, not_or]
    exact ⟨⟨⟨by decide, hcstr hpath⟩, by decide⟩, hwordline⟩
  have hhostText : (10 : Byte) ∉ cstr hostname ++ lit ":" ++ cstr port := by
    simp only [List.mem_append, not_or]
    exact ⟨⟨hcstr hhost, by decide⟩, hcstr hport⟩
  have hfield : ∀ f : Field, (10 : Byte) ∉ f.1 → (10 : Byte) ∉ f.2 → (10 : Byte) ∉ fieldLine (cutField f) := by
    intro f h1 h2
    unfold fieldLine cutField
    simp only [List.mem_append, not_or]
    exact ⟨⟨hcstr h1, by decide⟩, hcstr h2⟩
  have htail := fixedHeaders_tail_plain buf
  have hfields : ∀ f ∈ (fixedHeaders hostname port buf ++ buf.headers.entries).map cutField,
      (10 : Byte) ∉ fieldLine f := by
    rw [List.forall_mem_map, List.forall_mem_append, fixedHeaders_cons, List.forall_mem_cons]
    exact ⟨⟨hfield _ (by decide : (10 : Byte) ∉ lit "Host") hhostText,
      fun f hf => hfield f (htail f hf).key.notMem_lf (htail f hf).value.notMem_lf⟩,
      fun f hf => hfield f (hown f hf).1 (hown f hf).2⟩
  refine ⟨?_, ?_, by have := hsize.2; omega⟩
  · rw [headerFields_section hp hline hfields, List.map_map, List.map_append, map_readField_fixed]
  · rw [requestLine_section hline (List.forall_mem_map.mpr hfields)]
    exact requestLineText_method _ _ _

/-- A section without a bad number is parsed. -/
theorem parseHeaders_get (req : Request) {text : Bytes} (hget : (requestLine text).method = lit "GET")
    (hnumbers : NumbersReadable (headerFields prizm text)) :
    ∃ r, Request.parseHeaders prizm bio req text = .ok r := by
  rw [parseHeaders_eq]
  simp only [bind_eq_ok]
  obtain ⟨s, hs⟩ := (scanFields_isOk_iff ⟨req, ∅, ∅⟩ _).mpr hnumbers.size
  obtain ⟨filled, hfilled⟩ := (fillRequest_numbers hs rfl (requestLine text)).mpr hnumbers.callback
  have hmethod : (splitQuery prizm filled).method = lit "GET" := by
    have hbody := (splitQuery_keeps prizm filled).1.trans (fillRequest_body hfilled)
    exact (congrArg Prod.fst hbody).trans hget
  have hpost : (splitQuery prizm filled).method ≠ lit "POST" := by
    rw [hmethod]
    decide
  obtain ⟨r, hr⟩ := (readContent_isOk_iff prizm bio _).mpr fun h => absurd h hpost
  exact ⟨r, s, hs, filled, hfilled, hr⟩

theorem headerField_host {s s' : HeaderScan} {key val : Bytes} (h : headerField s key val = .ok s') :
    s'.req.host = if key = lit "Host" then val else s.req.host := by
  obtain ⟨size, -, rfl⟩ := map_eq_ok.mp h
  unfold headerMeta
  dsimp only
  split_ifs <;> rfl

/-- The last host counts. -/
theorem scanFields_host {fs : List Field} {s s' : HeaderScan} (h : scanFields s fs = .ok s') :
    s'.req.host = (fs.reverse.dlookup (lit "Host")).getD s.req.host := by
  induction fs using List.reverseRecOn generalizing s' with
  | nil =>
    obtain rfl := Except.ok.inj h
    rfl
  | append_singleton fs f ih =>
    obtain ⟨t, ht, ht'⟩ := scanFields_concat h
    obtain ⟨key, val⟩ := f
    rw [headerField_host ht', List.reverse_append, List.reverse_singleton, List.singleton_append]
    by_cases hkey : lit "Host" = key
    · subst hkey
      rw [List.dlookup_cons_eq, if_pos rfl, Option.getD_some]
    · rw [List.dlookup_cons_ne _ _ hkey, if_neg (Ne.symm hkey)]
      exact ih ht

theorem splitQuery_host (req : Request) : (splitQuery prizm req).host = req.host := by
  unfold splitQuery
  split <;> rfl

theorem fillRequest_host {s : HeaderScan} {l : RequestLine} {req : Request} (h : fillRequest s l = .ok req) :
    req.host = s.req.host := by
  obtain ⟨callback, rfl⟩ := fillRequest_eq_ok h
  rfl

theorem readContent_host {req req' : Request} (h : readContent prizm bio req = .ok req') : req'.host = req.host := by
  obtain ⟨args, content, rfl⟩ := readContent_eq_ok prizm bio h
  rfl

theorem parseHeaders_host {req r : Request} {text : Bytes} (h : Request.parseHeaders prizm bio req text = .ok r) :
    r.host = ((headerFields prizm text).reverse.dlookup (lit "Host")).getD req.host := by
  rw [parseHeaders_eq] at h
  simp only [bind_eq_ok] at h
  obtain ⟨s, hs, filled, hfilled, hr⟩ := h
  rw [readContent_host hr, splitQuery_host, fillRequest_host hfilled, scanFields_host hs]

/-- A key that is read: the whole written key, or its part before a separator. -/
theorem readField_key_iff {k : Bytes} (hk : ¬ lit ": " <:+: k) (f : Field) :
    (readField f).1 = k ↔ f.1 = k ∨ k ++ lit ": " <+: f.1 := by
  unfold readField
  cases hfind : Occurrence.find (lit ": ") f.1 with
  | none =>
    have hno : ¬ k ++ lit ": " <+: f.1 := by
      intro hpre
      exact Occurrence.find_eq_none_iff.mp hfind ((List.suffix_append k _).isInfix.trans hpre.isInfix)
    exact ⟨.inl, fun h => h.resolve_right hno⟩
  | some sep =>
    have hsplit := Occurrence.find_split hfind
    constructor
    · intro htake
      have htake : f.1.take sep = k := htake
      refine .inr ⟨f.1.drop (sep + (lit ": ").length), ?_⟩
      rw [← htake]
      exact hsplit.symm
    · rintro (heq | ⟨rest, hrest⟩)
      · refine absurd ?_ hk
        rw [← heq, hsplit]
        exact ⟨_, _, rfl⟩
      · rw [← hrest, find_separator hk] at hfind
        obtain rfl := Option.some.inj hfind
        change f.1.take k.length = k
        rw [← hrest, List.append_assoc, List.take_left]

/-- A key that holds the separator leaves it in the value. -/
theorem readField_value {f : Field} (h : (readField f).1 ≠ f.1) :
    (58 : Byte) ∈ (readField f).2 ∧ (32 : Byte) ∈ (readField f).2 := by
  unfold readField at h ⊢
  cases hfind : Occurrence.find (lit ": ") f.1 with
  | none =>
    rw [hfind] at h
    exact absurd rfl h
  | some sep =>
    have hmem : ∀ c ∈ lit ": ", c ≠ 13 → c ∈ (f.1.drop (sep + 2) ++ lit ": " ++ f.2).filter (· ≠ 13) := by
      intro c hc hne
      exact List.mem_filter.mpr ⟨List.mem_append_left _ (List.mem_append_right _ hc), decide_eq_true hne⟩
    exact ⟨hmem 58 (by decide) (by decide), hmem 32 (by decide) (by decide)⟩

theorem prefix_readField_key (f : Field) : (readField f).1 <+: f.1 := by
  unfold readField
  cases Occurrence.find (lit ": ") f.1 with
  | none => exact List.prefix_rfl
  | some sep => exact List.take_prefix _ _

end Jericho.Server
