import Jericho.Library.QueryText
import Jericho.Server.Readable

/-! What `parseHeaders` makes of a request line and header lines. -/
namespace Jericho.Server
open StdText Util Message Crypt

/-- A word without white space. -/
def Unspaced (s : Bytes) : Prop := ∀ c ∈ s, isspace c = false

instance (s : Bytes) : Decidable (Unspaced s) := List.decidableBAll _ s

/-- A header that fits on one line and is no callback's. -/
structure HeaderLine (f : Field) : Prop where
  noSeparator : ¬ lit ": " <:+: f.1
  noCallback : ¬ lit "Callback-" <:+: f.1
  key : ∀ c ∈ f.1, c ≠ 13 ∧ c ≠ 10
  value : ∀ c ∈ f.2, c ≠ 13 ∧ c ≠ 10
  size : f.1 = lit "Content-Size" →
    (f.2 ≠ [] ∧ (∀ c ∈ f.2, isdigit c = true) ∧ digitsValue f.2 < 2 ^ 31) ∨ ∃ c ∈ f.2, isdigit c = false

def firstLine (method target protocol : Bytes) : Bytes := method ++ lit " " ++ target ++ lit " " ++ protocol

/-- Lines with a line end between them. -/
def joinLines (eol : Bytes) (lines : List Bytes) : Bytes := eol.intercalate lines

/-- The target up to its query. -/
def targetPath (target : Bytes) : Bytes := target.takeWhile (· ≠ 63)

/-- The pairs of the query. -/
def targetArgs (target : Bytes) : List Field := QueryText.pairs 38 61 (target.dropWhile (· ≠ 63)).tail

/-- The words of joined lines are the lines, up to the CR of their ends. -/
theorem headerWords_join {eol : Bytes} (heol : eol = crlf ∨ eol = [10]) {lines : List Bytes} (hne : lines ≠ [])
    (h : ∀ l ∈ lines, l ≠ [] ∧ (10 : Byte) ∉ l) :
    List.Forall₂ LineOf (headerWords (joinLines eol lines)) lines := by
  induction lines with
  | nil => exact absurd rfl hne
  | cons l lines ih =>
    obtain ⟨⟨hsome, hlf⟩, hlines⟩ := List.forall_mem_cons.mp h
    cases lines with
    | nil =>
      have hone : joinLines eol [l] = l := List.append_nil _
      rw [hone, headerWords_last hlf hsome]
      exact .cons (.inl rfl) .nil
    | cons l' lines' =>
      have hjoin : joinLines eol (l :: l' :: lines') = l ++ (eol ++ joinLines eol (l' :: lines')) := by
        unfold joinLines
        rw [List.intercalate_cons_cons, List.append_assoc]
      have hmore := ih (List.cons_ne_nil _ _) hlines
      rw [hjoin]
      rcases heol with rfl | rfl
      · rw [← List.append_assoc, headerWords_cons hlf]
        exact .cons (.inr rfl) hmore
      · rw [List.singleton_append, headerWords_append hlf, if_neg hsome]
        exact .cons (.inl rfl) hmore

variable {prizm : Prizm} {bio : Base64Filter}

/-- A header line is read as its header. -/
theorem lineField_of_line (hp : prizm.Documented) {f : Field} (hf : HeaderLine f) {word : Bytes}
    (hw : LineOf word (fieldLine f)) : lineField prizm word = some f := by
  obtain ⟨t, ht, rfl⟩ : ∃ t, (t = [] ∨ t = [13]) ∧ word = f.1 ++ lit ": " ++ (f.2 ++ t) := by
    rcases hw with rfl | rfl
    · exact ⟨[], .inl rfl, by rw [List.append_nil]; rfl⟩
    · exact ⟨[13], .inr rfl, by rw [fieldLine]; simp only [List.append_assoc]⟩
  have herase : (f.2 ++ t).filter (· ≠ 13) = f.2 := by
    have hvalue : f.2.filter (· ≠ 13) = f.2 := List.filter_eq_self.mpr fun c hc => by simpa using (hf.value c hc).1
    rw [List.filter_append, hvalue]
    rcases ht with rfl | rfl <;> exact List.append_nil _
  have hdrop : (f.1 ++ lit ": " ++ (f.2 ++ t)).drop (f.1.length + 2) = f.2 ++ t :=
    List.drop_left' List.length_append
  rw [lineField, find_separator hf.noSeparator, Option.map_some, hdrop, hp.erase_eq, herase, List.append_assoc,
    List.take_left]

theorem isspace_blank : isspace 32 = true ∧ isspace 9 = true ∧ isspace 13 = true ∧ isspace 10 = true := by decide

theorem Unspaced.requestWord {s : Bytes} (h : Unspaced s) : RequestWord s := by
  intro c hc
  have hspace := h c hc
  refine ⟨?_, ?_, ?_⟩ <;> rintro rfl
  · exact Bool.false_ne_true (hspace.symm.trans isspace_blank.1)
  · exact Bool.false_ne_true (hspace.symm.trans isspace_blank.2.1)
  · exact Bool.false_ne_true (hspace.symm.trans isspace_blank.2.2.1)

theorem Unspaced.notMem_lf {s : Bytes} (h : Unspaced s) : (10 : Byte) ∉ s := fun hc =>
  Bool.false_ne_true ((h 10 hc).symm.trans isspace_blank.2.2.2)

variable {method target protocol : Bytes}

theorem firstLine_spec (hmethod : Unspaced method) (htarget : Unspaced target) (hprotocol : Unspaced protocol) :
    firstLine method target protocol ≠ [] ∧ (10 : Byte) ∉ firstLine method target protocol := by
  have hblank : (10 : Byte) ∉ lit " " := by decide
  unfold firstLine
  refine ⟨fun hnil => ?_, fun hmem => ?_⟩
  · rw [List.append_eq_nil_iff, List.append_eq_nil_iff] at hnil
    exact absurd hnil.1.2 (by decide)
  · simp only [List.mem_append] at hmem
    rcases hmem with (((hc | hc) | hc) | hc) | hc
    · exact hmethod.notMem_lf hc
    · exact hblank hc
    · exact htarget.notMem_lf hc
    · exact hblank hc
    · exact hprotocol.notMem_lf hc

/-- The three words go to their fields. -/
theorem read_firstLine (hmethod : Unspaced method) (htarget : Unspaced target) (hprotocol : Unspaced protocol)
    {line : Bytes} (hl : LineOf line (firstLine method target protocol)) :
    line.foldl RequestLine.read {} = ⟨2, method, target, protocol⟩ := by
  have hmain : (firstLine method target protocol).foldl RequestLine.read {} = ⟨2, method, target, protocol⟩ := by
    have hfirst := (RequestLine.read_word hmethod.requestWord [] [] []).1
    have hsecond := (RequestLine.read_word htarget.requestWord method [] []).2.1
    have hthird := (RequestLine.read_word hprotocol.requestWord method target []).2.2
    have hgap₁ : (lit " ").foldl RequestLine.read ⟨0, method, [], []⟩ = ⟨1, method, [], []⟩ := rfl
    have hgap₂ : (lit " ").foldl RequestLine.read ⟨1, method, target, []⟩ = ⟨2, method, target, []⟩ := rfl
    rw [List.nil_append] at hfirst hsecond hthird
    unfold firstLine
    rw [List.foldl_append, List.foldl_append, List.foldl_append, List.foldl_append, hfirst, hgap₁, hsecond, hgap₂,
      hthird]
  rcases hl with rfl | rfl
  · exact hmain
  · rw [List.foldl_append, hmain]
    rfl

theorem fieldLine_spec {f : Field} (hf : HeaderLine f) : fieldLine f ≠ [] ∧ (10 : Byte) ∉ fieldLine f := by
  unfold fieldLine
  refine ⟨fun hnil => ?_, fun hmem => ?_⟩
  · rw [List.append_eq_nil_iff, List.append_eq_nil_iff] at hnil
    exact absurd hnil.1.2 (by decide)
  · rw [List.mem_append, List.mem_append] at hmem
    rcases hmem with (hc | hc) | hc
    · exact (hf.key 10 hc).2 rfl
    · exact absurd hc (by decide)
    · exact (hf.value 10 hc).2 rfl

/-- A size that is a number of an `int`, or none at all, is read. -/
theorem HeaderLine.readSize_ok {f : Field} (hf : HeaderLine f) (hkey : f.1 = lit "Content-Size") :
    ∃ n, readSize f.2 = .ok n := by
  unfold readSize
  rcases hf.size hkey with ⟨hne, hdigits, hsmall⟩ | ⟨c, hc, hother⟩
  · rw [if_pos (List.all_eq_true.mpr hdigits)]
    exact ⟨_, stoi_of_digits hne hdigits ⟨by omega, by exact_mod_cast hsmall⟩⟩
  · rw [if_neg fun hall => ?_]
    · exact ⟨0, rfl⟩
    · exact Bool.false_ne_true (hother.symm.trans (List.all_eq_true.mp hall c hc))

theorem splitQuery_eq (hp : prizm.Documented) (req : Request) :
    splitQuery prizm req =
      { req with path := targetPath req.path, args := StrMap.assign req.args (targetArgs req.path) } := by
  have hargs : ∀ (args : StrMap) (text : Bytes),
      parseArgs prizm args text = StrMap.assign args (QueryText.pairs 38 61 text) := by
    intro args text
    rw [parseArgs, hp.tokenize_eq, QueryText.pairs_eq_nonempty]
    generalize (text.splitOn 38).filter (· ≠ []) = pieces
    induction pieces generalizing args with
    | nil => rfl
    | cons piece pieces ih =>
      have hpair := QueryText.pair_eq_find 61 piece
      rw [List.foldl_cons, ih]
      cases hfind : Occurrence.find [61] piece with
      | none =>
        rw [hfind] at hpair
        rw [List.filterMap_cons_none hpair]
      | some p =>
        rw [hfind] at hpair
        rw [List.filterMap_cons_some hpair]
        rfl
  unfold splitQuery targetPath targetArgs
  rw [QueryText.find_singleton]
  by_cases hquery : (63 : Byte) ∈ req.path
  · rw [if_pos hquery]
    dsimp only
    rw [QueryText.take_takeWhile_length, QueryText.drop_takeWhile_length, hargs]
  · have hall : ∀ c ∈ req.path, decide (c ≠ 63) = true := fun c hc => by simpa using fun h : c = 63 => hquery (h ▸ hc)
    have hnone : req.path.dropWhile (· ≠ 63) = [] := List.dropWhile_eq_nil_iff.mpr hall
    rw [if_neg hquery, List.takeWhile_eq_self_iff.mpr hall, hnone]
    rfl

theorem HeaderLine.notCallback {f : Field} (hf : HeaderLine f) : ¬ isCallbackKey f.1 = true := by
  have hnone := Occurrence.find_eq_none_iff.mpr hf.noCallback
  rw [isCallbackKey, hnone, Option.isSome_none, Bool.and_false]
  exact Bool.false_ne_true

theorem filterMap_lineField (hp : prizm.Documented) {fs : List Field} (hfs : ∀ f ∈ fs, HeaderLine f)
    {words : List Bytes}
    (hw : List.Forall₂ (fun word f => LineOf word (fieldLine f)) words fs) :
    words.filterMap (lineField prizm) = fs := by
  induction hw with
  | nil => rfl
  | cons hline _ ih =>
    obtain ⟨hf, hfs⟩ := List.forall_mem_cons.mp hfs
    rw [List.filterMap_cons_some (lineField_of_line hp hf hline), ih hfs]

/-- A request line and header lines are parsed into what they say. -/
theorem parseHeaders_section (hp : prizm.Documented) {req : Request} (hcontent : req.content = [])
    (hargs : req.args = ∅) (hmethod : Unspaced method) (htarget : Unspaced target) (hprotocol : Unspaced protocol)
    {fs : List Field} (hfs : ∀ f ∈ fs, HeaderLine f) {eol : Bytes} (heol : eol = crlf ∨ eol = [10]) :
    ∃ r, Request.parseHeaders prizm bio req
          (joinLines eol (firstLine method target protocol :: fs.map fieldLine)) = .ok r ∧
      r.method = method ∧ r.protocol = protocol ∧ r.path = targetPath target ∧
      (∀ key, r.args.lookup key = (targetArgs target).reverse.dlookup key) ∧
      ∀ key, r.headers.lookup key = fs.reverse.dlookup key := by
  have hlines : ∀ l ∈ firstLine method target protocol :: fs.map fieldLine, l ≠ [] ∧ (10 : Byte) ∉ l :=
    List.forall_mem_cons.mpr ⟨firstLine_spec hmethod htarget hprotocol,
      List.forall_mem_map.mpr fun f hf => fieldLine_spec (hfs f hf)⟩
  have hwords := headerWords_join heol (List.cons_ne_nil _ _) hlines
  generalize joinLines eol (firstLine method target protocol :: fs.map fieldLine) = text at hwords
  obtain ⟨line, rest, hline, hrest, hsplit⟩ := List.forall₂_cons_right_iff.mp hwords
  have hfirst : requestLine text = ⟨2, method, target, protocol⟩ := by
    rw [requestLine, hsplit]
    exact read_firstLine hmethod htarget hprotocol hline
  have hfields : headerFields prizm text = fs := by
    rw [headerFields, hsplit, List.tail_cons]
    exact filterMap_lineField hp hfs (List.forall₂_map_right_iff.mp hrest)
  obtain ⟨s, hs⟩ := (scanFields_isOk_iff ⟨req, ∅, ∅⟩ fs).mpr fun f hf hkey => (hfs f hf).readSize_ok hkey
  obtain ⟨hheaders, hcallback, hkept⟩ := scanFields_ok hs
  have hnone : s.callbackMap = ∅ := by
    rw [hcallback, assign_eq_empty_iff, List.filter_eq_nil_iff]
    exact fun f hf => (hfs f hf).notCallback
  have hbody : s.req.content = [] := (congrArg Prod.fst hkept).trans hcontent
  have hempty : s.req.args = ∅ := (congrArg (fun rest => rest.2.2.2.1) hkept).trans hargs
  rw [parseHeaders_eq, hfields, hs, hfirst]
  refine ⟨splitQuery prizm { s.req with method := method, path := target, protocol := protocol, headers := s.args2 },
    ?_, ?_, ?_, ?_, fun key => ?_, fun key => ?_⟩
  · dsimp only [bind, Except.bind]
    rw [fillRequest, if_pos hnone]
    dsimp only
    rw [readContent, splitQuery_eq hp, if_neg fun hpost => hpost.2 hbody]
  all_goals rw [splitQuery_eq hp]
  · dsimp only
    rw [hempty, StrMap.lookup_assign]
    exact Option.or_none
  · dsimp only
    rw [hheaders, StrMap.lookup_assign]
    exact Option.or_none

theorem Plain.oneLine {s : Bytes} (h : Plain s) : ∀ c ∈ s, c ≠ 13 ∧ c ≠ 10 := fun c hc => ⟨(h c hc).1, (h c hc).2.1⟩

/-- Two headers of one name, and a size. -/
def repeatedHeaders : List Field :=
  [⟨lit "Accept", lit "a"⟩, ⟨lit "Content-Size", lit "12"⟩, ⟨lit "Accept", lit "b: c"⟩]

theorem headerLine_of_repeated : ∀ f ∈ repeatedHeaders, HeaderLine f := by
  intro f hf
  rcases List.mem_cons.mp hf with rfl | hf
  · exact ⟨by decide, by decide, Plain.oneLine (by decide), Plain.oneLine (by decide), by decide⟩
  · rcases List.mem_pair.mp hf with rfl | rfl
    · have hdigits : ∀ c ∈ lit "12", isdigit c = true := List.all_eq_true.mp rfl
      exact ⟨by decide, by decide, Plain.oneLine (by decide), Plain.oneLine (by decide),
        fun _ => .inl ⟨List.cons_ne_nil _ _, hdigits, by decide⟩⟩
    · exact ⟨by decide, by decide, Plain.oneLine (by decide), Plain.oneLine (by decide), by decide⟩

theorem parseHeaders_section_query :
    ∃ r, Request.parseHeaders Prizm.reference Base64Filter.reference { client := ⟨[], by decide, []⟩ }
          (joinLines crlf (firstLine (lit "POST") (lit "/a?x=1&y&x=2") (lit "JOB") :: repeatedHeaders.map fieldLine)) =
        .ok r ∧
      r.method = lit "POST" ∧ r.protocol = lit "JOB" ∧ r.path = lit "/a" ∧ r.args.lookup (lit "x") = some (lit "2") ∧
      r.headers.lookup (lit "Accept") = some (lit "b: c") := by
  obtain ⟨r, hparse, hmethod, hprotocol, hpath, hargs, hheaders⟩ :=
    @parseHeaders_section Prizm.reference Base64Filter.reference (lit "POST") (lit "/a?x=1&y&x=2") (lit "JOB")
      Prizm.reference_documented { client := ⟨[], by decide, []⟩ } rfl rfl (by decide) (by decide) (by decide)
      repeatedHeaders headerLine_of_repeated crlf (.inl rfl)
  exact ⟨r, hparse, hmethod, hprotocol, hpath.trans (by decide), (hargs _).trans (by decide),
    (hheaders _).trans (by decide)⟩

end Jericho.Server
