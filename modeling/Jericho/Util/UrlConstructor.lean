import Jericho.Util.UrlArgs

/-! The URL constructor with the lengths it counts in an `int` and the searches it does not check. -/
namespace Jericho.Util
open StdText

/-- What the constructor cuts a text into. -/
structure UrlPieces where
  protocol : Bytes
  hostname : Bytes
  path : Bytes := []
  args : Bytes := []
  /-- The result of a search that found nothing was counted with. -/
  nullUsed : Bool := false
  deriving DecidableEq

/-- The first part of the constructor. The cursor `p` is what is left of the text. -/
def Url.pieces (str : Bytes) : Exec UrlPieces :=
  let len := asInt str.length
  match Occurrence.find (lit "://") str with
  | none => .error .undefined -- `std::string s(p)` with a null `p`
  | some n =>
    let protocol := str.take n
    let len := asInt (len - (protocol.length + 3 : Nat))
    let p := str.drop (n + 3)
    match Occurrence.find (lit "/") p with
    | none => do
      let hostname ← sized p len
      return { protocol := protocol, hostname := hostname, nullUsed := true } -- `p += (p2 - p)`
    | some n2 =>
      let hostname := p.take n2
      let len := asInt (len - hostname.length)
      let p := p.drop n2
      match Occurrence.find (lit "?") p with
      | none => do
        let path ← sized p len
        return { protocol := protocol, hostname := hostname, path := path }
      | some n3 => do
        let path := p.take n3
        let args ← sized (p.drop (n3 + 1)) (asInt (len - (path.length + 1 : Nat)))
        return { protocol := protocol, hostname := hostname, path := path, args := args }

/-- The URL of the pieces, without the arguments. -/
def Url.ofPieces (url : Bytes) (x : UrlPieces) : Exec Url :=
  let u : Url := { protocol := x.protocol, hostname := x.hostname, path := x.path, url := url }
  ((u.parseProtocol x.protocol).parseHostname x.hostname).map Url.parsePath

/-- An empty list of arguments is not parsed. -/
def Url.withArgs (u : Url) (args : Bytes) : Exec Url := if args = [] then .ok u else u.parseArgs args

/-- The constructor. It returns whether a null search result was used on the way. -/
def Url.construct (url : Bytes) : Exec (Url × Bool) := do
  let x ← Url.pieces (cstr url)
  let u ← Url.ofPieces url x
  let u ← u.withArgs x.args
  return (u, x.nullUsed)

/-- The URL of a text, whether or not a null was used: on a text without a path the constructor moves its cursor by the
null, and does not read it from then on. -/
def Url.parse (url : Bytes) : Exec Url := (Url.construct url).map Prod.fst

/-- The parts of a text as the searches find them. -/
structure UrlCut (str protocol authority tail : Bytes) : Prop where
  text : str = protocol ++ lit "://" ++ (authority ++ tail)
  first : Occurrence.find (lit "://") str = some protocol.length
  authority : (47 : Byte) ∉ authority
  tail : tail = [] ∨ ∃ more, tail = 47 :: more

theorem exists_urlCut {str : Bytes} (h : lit "://" <:+: str) :
    ∃ protocol authority tail, UrlCut str protocol authority tail := by
  cases hfind : Occurrence.find (lit "://") str with
  | none => exact absurd h (Occurrence.find_eq_none_iff.mp hfind)
  | some n =>
    have hsplit := Occurrence.find_split hfind
    have hle := Occurrence.find_le hfind
    generalize hrest : str.drop (n + (lit "://").length) = rest at hsplit
    refine ⟨str.take n, rest.takeWhile (· ≠ 47), rest.dropWhile (· ≠ 47), ?_, ?_, ?_, ?_⟩
    · rw [List.takeWhile_append_dropWhile]
      exact hsplit
    · rw [hfind, List.length_take, min_eq_left (by omega)]
    · intro hmem
      simpa using List.mem_takeWhile_imp hmem
    · cases hdrop : rest.dropWhile (· ≠ 47) with
      | nil => exact .inl rfl
      | cons c more =>
        have hne : rest.dropWhile (· ≠ 47) ≠ [] := by
          rw [hdrop]
          exact List.cons_ne_nil c more
        have hhead := List.head_dropWhile_not (fun c : Byte => decide (c ≠ 47)) hne
        simp only [hdrop, List.head_cons] at hhead
        obtain rfl : c = 47 := by simpa using hhead
        exact .inr ⟨more, rfl⟩

/-- A string with the length of what is left of the text. -/
theorem sized_rest {p s : Bytes} :
    sized p (asInt p.length) = .ok s ↔ p.length % 2 ^ 32 < 2 ^ 31 ∧ s = p.take (p.length % 2 ^ 32) := by
  obtain ⟨hneg, hpos⟩ := asInt_nat p.length
  unfold sized
  by_cases hsmall : p.length % 2 ^ 32 < 2 ^ 31
  · have hle := Nat.mod_le p.length (2 ^ 32)
    rw [hpos hsmall, if_neg (by omega), if_pos (by omega), Int.toNat_natCast, List.take_append_of_le_length hle]
    exact ⟨fun h => ⟨hsmall, (Except.ok.inj h).symm⟩, fun h => congrArg Except.ok h.2.symm⟩
  · rw [if_pos (hneg.mpr (by omega))]
    refine iff_of_false (fun h => ?_) fun h => hsmall h.1
    cases h

/-- As much of a text as is counted by an `int`. -/
def counted (p : Bytes) : Bytes := p.take (p.length % 2 ^ 32)

/-- What follows the first question mark. -/
def queryText (tail : Bytes) : Bytes := (tail.dropWhile (· ≠ 63)).tail

/-- The last part of a text, the one that is counted. -/
def lastPart (authority tail : Bytes) : Bytes :=
  if tail = [] then authority else if 63 ∈ tail then queryText tail else tail

/-- The pieces of a text whose last part is `part`, as far as it is counted. -/
def piecesWith (protocol authority tail part : Bytes) : UrlPieces :=
  if tail = [] then { protocol := protocol, hostname := part, nullUsed := true }
  else if 63 ∈ tail then
    { protocol := protocol, hostname := authority, path := tail.takeWhile (· ≠ 63), args := part }
  else { protocol := protocol, hostname := authority, path := part }

variable {str protocol authority tail : Bytes}

theorem UrlCut.around (h : UrlCut str protocol authority tail) :
    str.take protocol.length = protocol ∧ str.drop (protocol.length + 3) = authority ++ tail := by
  have hlit : protocol.length + 3 = (protocol ++ lit "://").length := by
    rw [List.length_append]
    rfl
  rw [h.text, hlit, List.drop_left, List.append_assoc, List.take_left]
  exact ⟨rfl, rfl⟩

theorem pieces_cut (h : UrlCut str protocol authority tail) :
    Url.pieces str = (sized (lastPart authority tail) (asInt (lastPart authority tail).length)).map
      (piecesWith protocol authority tail) := by
  obtain ⟨htake, hdrop⟩ := h.around
  obtain ⟨htext, hfirst, hauthority, htail⟩ := h
  have hlength : str.length = protocol.length + 3 + (authority.length + tail.length) := by
    rw [htext, List.length_append, List.length_append, List.length_append]
    rfl
  have hcount : asInt (asInt str.length - (protocol.length + 3 : Nat)) =
      asInt (authority.length + tail.length : Nat) := by
    rw [asInt_sub]
    congr 1
    omega
  unfold Url.pieces
  dsimp only
  rw [hfirst]
  dsimp only
  rw [htake, hdrop, hcount]
  rcases htail with rfl | ⟨more, rfl⟩
  · have hslash : Occurrence.find (lit "/") authority = none := find_of_notMem hauthority
    rw [List.append_nil, hslash]
    exact bind_return _ _
  have hslash : Occurrence.find (lit "/") (authority ++ 47 :: more) = some authority.length := by
    have hfound := find_first hauthority [] more
    rwa [List.append_assoc] at hfound
  have hrest : asInt (asInt (authority.length + (47 :: more).length : Nat) - authority.length) =
      asInt (47 :: more).length := by
    rw [asInt_sub]
    refine congrArg asInt ?_
    rw [Nat.cast_add]
    exact add_sub_cancel_left _ _
  rw [hslash]
  dsimp only
  rw [List.take_left, List.drop_left, hrest]
  have hmark : Occurrence.find (lit "?") (47 :: more) =
      if 63 ∈ 47 :: more then some ((47 :: more).takeWhile (· ≠ 63)).length else none :=
    QueryText.find_singleton 63 _
  have hlast : lastPart authority (47 :: more) = if 63 ∈ 47 :: more then queryText (47 :: more) else 47 :: more :=
    if_neg (List.cons_ne_nil _ _)
  have hwith : piecesWith protocol authority (47 :: more) = fun part => if 63 ∈ 47 :: more then
      { protocol := protocol, hostname := authority, path := (47 :: more).takeWhile (· ≠ 63), args := part }
      else { protocol := protocol, hostname := authority, path := part } := by
    funext part
    exact if_neg (List.cons_ne_nil _ _)
  rw [hmark, hlast, hwith]
  generalize (47 : Byte) :: more = tail
  by_cases hquery : (63 : Byte) ∈ tail
  · simp only [if_pos hquery]
    have hpath : tail.length = (tail.takeWhile (· ≠ 63)).length + 1 + (queryText tail).length := by
      have hcut := congrArg List.length (QueryText.eq_cut 63 hquery)
      rw [List.length_append, List.length_cons] at hcut
      unfold queryText
      omega
    have hargs : asInt (asInt tail.length - ((tail.takeWhile (· ≠ 63)).length + 1 : Nat)) =
        asInt (queryText tail).length := by
      rw [asInt_sub]
      refine congrArg asInt ?_
      omega
    rw [QueryText.take_takeWhile_length, QueryText.drop_takeWhile_length, hargs]
    exact bind_return _ _
  · simp only [if_neg hquery]
    exact bind_return _ _

theorem pieces_eq_ok (h : UrlCut str protocol authority tail) {x : UrlPieces} :
    Url.pieces str = .ok x ↔ (lastPart authority tail).length % 2 ^ 32 < 2 ^ 31 ∧
      x = piecesWith protocol authority tail (counted (lastPart authority tail)) := by
  rw [pieces_cut h, map_eq_ok]
  constructor
  · rintro ⟨part, hpart, rfl⟩
    obtain ⟨hsmall, rfl⟩ := sized_rest.mp hpart
    exact ⟨hsmall, rfl⟩
  · rintro ⟨hsmall, rfl⟩
    exact ⟨_, sized_rest.mpr ⟨hsmall, rfl⟩, rfl⟩

theorem infix_of_pieces {x : UrlPieces} (h : Url.pieces str = .ok x) : lit "://" <:+: str := by
  by_contra hno
  unfold Url.pieces at h
  dsimp only at h
  rw [Occurrence.find_eq_none_iff.mpr hno] at h
  cases h

/-- The last part has a length that is not negative as an `int`, and the arguments are read as far as they
are counted. -/
structure Counts (authority tail : Bytes) : Prop where
  length : (lastPart authority tail).length % 2 ^ 32 < 2 ^ 31
  args : 63 ∈ tail → counted (queryText tail) = [] ∨ QueryReturns (counted (queryText tail))

theorem piecesWith_args (protocol authority tail part : Bytes) :
    (piecesWith protocol authority tail part).args = if 63 ∈ tail then part else [] := by
  unfold piecesWith
  split_ifs with htail hquery hquery
  · rw [htail] at hquery
    cases hquery
  · rfl
  · rfl
  · rfl

theorem lastPart_query (authority : Bytes) (h : (63 : Byte) ∈ tail) : lastPart authority tail = queryText tail := by
  unfold lastPart
  rw [if_neg (List.ne_nil_of_mem h), if_pos h]

/-- The pieces of a text that are counted in an `int`. -/
def countedPieces (protocol authority tail : Bytes) : UrlPieces :=
  piecesWith protocol authority tail (counted (lastPart authority tail))

theorem zero_notMem_args {url : Bytes} (h : UrlCut (cstr url) protocol authority tail) :
    (0 : Byte) ∉ (countedPieces protocol authority tail).args := by
  unfold countedPieces
  rw [piecesWith_args]
  split_ifs with hquery
  · rw [lastPart_query authority hquery]
    intro hmem
    have htail : (0 : Byte) ∈ tail := List.dropWhile_subset _ (List.mem_of_mem_tail (List.mem_of_mem_take hmem))
    have htext : (0 : Byte) ∈ cstr url := by
      rw [h.text]
      exact List.mem_append_right _ (List.mem_append_right _ htail)
    exact zero_notMem_cstr url htext
  · exact List.not_mem_nil

theorem counts_iff (protocol : Bytes) : Counts authority tail ↔ (lastPart authority tail).length % 2 ^ 32 < 2 ^ 31 ∧
    ((countedPieces protocol authority tail).args = [] ∨
      QueryReturns (countedPieces protocol authority tail).args) := by
  unfold countedPieces
  rw [piecesWith_args]
  constructor
  · rintro ⟨hlength, hquery⟩
    refine ⟨hlength, ?_⟩
    split_ifs with hmark
    · rw [lastPart_query authority hmark]
      exact hquery hmark
    · exact .inl rfl
  · rintro ⟨hlength, hquery⟩
    refine ⟨hlength, fun hmark => ?_⟩
    rwa [if_pos hmark, lastPart_query authority hmark] at hquery

theorem withArgs_same {u v : Url} {args : Bytes} (h : u.withArgs args = .ok v) :
    ∃ pairs, v = { u with args := pairs } := by
  unfold Url.withArgs at h
  split_ifs at h
  · exact ⟨u.args, (Except.ok.inj h).symm⟩
  · obtain ⟨pairs, -, h⟩ := bind_eq_ok.mp h
    exact ⟨_, (Except.ok.inj h).symm⟩

theorem exists_withArgs (u : Url) {args : Bytes} (hzero : (0 : Byte) ∉ args) :
    (∃ v, u.withArgs args = .ok v) ↔ args = [] ∨ QueryReturns args := by
  unfold Url.withArgs
  split_ifs with hnone
  · exact iff_of_true ⟨u, rfl⟩ (.inl hnone)
  · constructor
    · rintro ⟨v, hv⟩
      exact .inr ((parseArgs_eq_ok hzero).mp hv).1
    · rintro (h | h)
      · exact absurd h hnone
      · exact ⟨_, (parseArgs_eq_ok hzero).mpr ⟨h, rfl⟩⟩

/-- What is put into the URL before its arguments does not depend on them. -/
theorem exists_construct {url : Bytes} (h : UrlCut (cstr url) protocol authority tail) {P : Url → Bool → Prop}
    (hP : ∀ u args used, P { u with args := args } used ↔ P u used) :
    (∃ u used, Url.construct url = .ok (u, used) ∧ P u used) ↔ Counts authority tail ∧
      ∃ u, Url.ofPieces url (countedPieces protocol authority tail) = .ok u ∧
        P u (countedPieces protocol authority tail).nullUsed := by
  have hpieces : ∀ {x}, Url.pieces (cstr url) = .ok x ↔ (lastPart authority tail).length % 2 ^ 32 < 2 ^ 31 ∧
      x = countedPieces protocol authority tail := pieces_eq_ok h
  have hzero := zero_notMem_args h
  rw [counts_iff protocol]
  generalize countedPieces protocol authority tail = x at hpieces hzero ⊢
  constructor
  · rintro ⟨u, used, hu, hp⟩
    obtain ⟨y, hy, hu⟩ := bind_eq_ok.mp hu
    obtain ⟨hsmall, rfl⟩ := hpieces.mp hy
    obtain ⟨w, hw, hu⟩ := bind_eq_ok.mp hu
    obtain ⟨v, hv, hu⟩ := bind_eq_ok.mp hu
    obtain ⟨rfl, rfl⟩ := Prod.mk.inj (Except.ok.inj hu)
    have hreturns := (exists_withArgs w hzero).mp ⟨_, hv⟩
    obtain ⟨args, rfl⟩ := withArgs_same hv
    exact ⟨⟨hsmall, hreturns⟩, w, hw, (hP _ _ _).mp hp⟩
  · rintro ⟨⟨hsmall, hquery⟩, w, hw, hp⟩
    obtain ⟨v, hv⟩ := (exists_withArgs w hzero).mpr hquery
    have hconstruct : Url.construct url = .ok (v, x.nullUsed) :=
      bind_eq_ok.mpr ⟨x, hpieces.mpr ⟨hsmall, rfl⟩, bind_eq_ok.mpr ⟨w, hw, bind_eq_ok.mpr ⟨v, hv, rfl⟩⟩⟩
    obtain ⟨args, rfl⟩ := withArgs_same hv
    exact ⟨_, x.nullUsed, hconstruct, (hP _ _ _).mpr hp⟩

theorem ofPieces_returns (url : Bytes) (x : UrlPieces) : (∃ u, Url.ofPieces url x = .ok u) ↔ FewLabels x.hostname := by
  unfold Url.ofPieces
  dsimp only
  rw [← Url.parseHostname_returns]
  constructor
  · rintro ⟨u, hu⟩
    obtain ⟨v, hv, -⟩ := map_eq_ok.mp hu
    exact ⟨v, hv⟩
  · rintro ⟨v, hv⟩
    exact ⟨_, map_eq_ok.mpr ⟨v, hv, rfl⟩⟩

theorem ofPieces_keeps {url : Bytes} {x : UrlPieces} {u : Url} (h : Url.ofPieces url x = .ok u) :
    u.url = url ∧ u.valid = false ∧ (u.ip = true ↔ (58 : Byte) ∈ x.hostname) := by
  obtain ⟨v, hv, rfl⟩ := map_eq_ok.mp h
  obtain ⟨hread, hip⟩ := Url.parseHostname_keeps hv
  have hprotocol : ∀ (w : Url) (protocol : Bytes), (w.parseProtocol protocol).url = w.url ∧
      (w.parseProtocol protocol).ip = w.ip := by
    intro w protocol
    unfold Url.parseProtocol
    split <;> exact ⟨rfl, rfl⟩
  have hpath : v.parsePath.url = v.url ∧ (v.valid = false → v.parsePath.valid = false) ∧ v.parsePath.ip = v.ip := by
    unfold Url.parsePath
    split_ifs
    · exact ⟨rfl, id, rfl⟩
    · exact ⟨rfl, fun _ => rfl, rfl⟩
    · exact ⟨rfl, id, rfl⟩
  refine ⟨hpath.1.trans (hread.url.trans (hprotocol _ _).1), hpath.2.1 hread.valid, ?_⟩
  rw [hpath.2.2, hip, (hprotocol _ _).2]
  simp

theorem construct_eq_ok {url : Bytes} {u : Url} {used : Bool} (h : Url.construct url = .ok (u, used)) :
    ∃ x v args, Url.pieces (cstr url) = .ok x ∧ Url.ofPieces url x = .ok v ∧ u = { v with args := args } ∧
      used = x.nullUsed := by
  obtain ⟨x, hx, h⟩ := bind_eq_ok.mp h
  obtain ⟨v, hv, h⟩ := bind_eq_ok.mp h
  obtain ⟨w, hw, h⟩ := bind_eq_ok.mp h
  obtain ⟨rfl, rfl⟩ := Prod.mk.inj (Except.ok.inj h)
  obtain ⟨args, rfl⟩ := withArgs_same hw
  exact ⟨x, v, args, hx, hv, rfl, rfl⟩

/-- Whatever is in the text, the URL is not valid in the end. -/
theorem construct_valid {url : Bytes} {u : Url} {used : Bool} (h : Url.construct url = .ok (u, used)) :
    u.valid = false := by
  obtain ⟨x, v, args, -, hv, rfl, -⟩ := construct_eq_ok h
  exact (ofPieces_keeps hv).2.1

/-- A parsed URL keeps its text. -/
theorem Url.parse_url {url : Bytes} {u : Url} (h : Url.parse url = .ok u) : u.url = url := by
  obtain ⟨⟨u, used⟩, hu, rfl⟩ := map_eq_ok.mp h
  obtain ⟨x, v, args, -, hv, rfl, -⟩ := construct_eq_ok hu
  exact (ofPieces_keeps hv).1

theorem counted_short {p : Bytes} (h : p.length < 2 ^ 31) : counted p = p := by
  unfold counted
  rw [Nat.mod_eq_of_lt (h.trans (by decide)), List.take_length]

theorem counted_eq_iff {p : Bytes} (h : p.length % 2 ^ 32 < 2 ^ 31) : counted p = p ↔ p.length < 2 ^ 31 := by
  unfold counted
  rw [List.take_eq_self_iff]
  omega

theorem infix_of_parse {url : Bytes} {u : Url} (h : Url.parse url = .ok u) : lit "://" <:+: cstr url := by
  obtain ⟨⟨u, used⟩, hu, rfl⟩ := map_eq_ok.mp h
  obtain ⟨x, -, -, hx, -⟩ := construct_eq_ok hu
  exact infix_of_pieces hx

/-- A URL that was put together from a protocol, an address and a path is read as that unless a NUL cuts it or its path
is too long to be counted. -/
theorem Url.parse_address {protocol host port path : Bytes} (hprotocol : (0 : Byte) ∉ protocol)
    (hcolon : (58 : Byte) ∉ protocol) (hplus : (43 : Byte) ∉ protocol) (hhost : ∀ c ∈ host, c ≠ 0 ∧ c ≠ 58 ∧ c ≠ 47)
    (hport : ∀ c ∈ port, c ≠ 0 ∧ c ≠ 47) (hquery : (63 : Byte) ∉ path) :
    (∃ u, Url.parse (protocol ++ lit "://" ++ (host ++ lit ":" ++ port) ++ 47 :: path) = .ok u ∧ u.ip = true ∧
        u.host = host ∧ u.port = port ∧ u.path = 47 :: path ∧ u.protocol = protocol) ↔
      (0 : Byte) ∉ path ∧ (47 :: path).length < 2 ^ 31 := by
  generalize hurl : protocol ++ lit "://" ++ (host ++ lit ":" ++ port) ++ 47 :: path = url
  have hauthority : ∀ c ∈ host ++ lit ":" ++ port, c ≠ 0 ∧ c ≠ 47 := by
    rw [List.forall_mem_append, List.forall_mem_append]
    have hcolon : ∀ c ∈ lit ":", c ≠ 0 ∧ c ≠ 47 := List.forall_mem_singleton.mpr ⟨by decide, by decide⟩
    exact ⟨⟨fun c hc => ⟨(hhost c hc).1, (hhost c hc).2.2⟩, hcolon⟩, hport⟩
  have hpath : cstr (47 :: path) = 47 :: cstr path := List.takeWhile_cons_of_pos (by decide)
  have hmark : (63 : Byte) ∉ cstr (47 :: path) := by
    rw [hpath]
    exact List.not_mem_cons_of_ne_of_not_mem (by decide) fun h => hquery (List.takeWhile_subset _ h)
  have hcut : UrlCut (cstr url) protocol (host ++ lit ":" ++ port) (cstr (47 :: path)) := by
    have hz : (0 : Byte) ∉ protocol ++ lit "://" ++ (host ++ lit ":" ++ port) := by
      rw [List.mem_append, List.mem_append]
      rintro ((h | h) | h)
      · exact hprotocol h
      · revert h
        decide
      · exact (hauthority 0 h).1 rfl
    rw [← hurl, cstr_append hz, List.append_assoc]
    exact ⟨rfl, find_first hcolon [47, 47] _, fun h => (hauthority 47 h).2 rfl, .inr ⟨_, hpath⟩⟩
  have hlast : lastPart (host ++ lit ":" ++ port) (cstr (47 :: path)) = cstr (47 :: path) := by
    unfold lastPart
    rw [if_neg hmark, hpath, if_neg (List.cons_ne_nil _ _)]
  have hpieces : countedPieces protocol (host ++ lit ":" ++ port) (cstr (47 :: path)) =
      { protocol := protocol, hostname := host ++ lit ":" ++ port, path := counted (cstr (47 :: path)) } := by
    unfold countedPieces piecesWith
    rw [hlast, if_neg hmark, hpath, if_neg (List.cons_ne_nil _ _)]
  have hread := Url.parseHostname_address (fun h => (hhost 58 h).2.1 rfl) port
    { protocol := protocol, hostname := host ++ lit ":" ++ port, path := counted (cstr (47 :: path)), url := url }
  have hparse : (∃ u, Url.parse url = .ok u ∧ u.ip = true ∧ u.host = host ∧ u.port = port ∧ u.path = 47 :: path ∧
      u.protocol = protocol) ↔ ∃ u used, Url.construct url = .ok (u, used) ∧ (u.ip = true ∧ u.host = host ∧
        u.port = port ∧ u.path = 47 :: path ∧ u.protocol = protocol) := by
    constructor
    · rintro ⟨u, hu, hall⟩
      obtain ⟨⟨v, used⟩, hv, rfl⟩ := map_eq_ok.mp hu
      exact ⟨v, used, hv, hall⟩
    · rintro ⟨u, used, hu, hall⟩
      exact ⟨u, map_eq_ok.mpr ⟨_, hu, rfl⟩, hall⟩
  rw [hparse, exists_construct hcut (P := fun u _ => u.ip = true ∧ u.host = host ∧ u.port = port ∧
    u.path = 47 :: path ∧ u.protocol = protocol) fun _ _ _ => Iff.rfl, hpieces]
  unfold Url.ofPieces
  dsimp only
  rw [Url.parseProtocol_plain hplus, hread]
  constructor
  · rintro ⟨hcounts, u, hu, -, -, -, hp, -⟩
    have hcount := hcounts.length
    rw [hlast] at hcount
    obtain rfl := Except.ok.inj hu
    have hwhole : counted (cstr (47 :: path)) = 47 :: path := by
      by_cases hnil : counted (cstr (47 :: path)) = []
      · have hroot : (47 :: path : Bytes) = lit "/" := by
          rw [← hp]
          unfold Url.parsePath
          rw [if_pos hnil]
        rw [hroot]
        decide
      · exact (Url.parsePath_keeps hnil).2.2.2.1.symm.trans hp
    have hzero : cstr (47 :: path) = 47 :: path := by
      have hle : (counted (cstr (47 :: path))).length ≤ (cstr (47 :: path)).length := (List.take_prefix _ _).length_le
      rw [hwhole] at hle
      exact (cstr_isPrefix _).eq_of_length_le hle
    rw [hzero] at hwhole hcount
    exact ⟨fun h => cstr_eq_self_iff.mp hzero (List.mem_cons_of_mem _ h), (counted_eq_iff hcount).mp hwhole⟩
  · rintro ⟨hzero, hshort⟩
    have hself : cstr (47 :: path) = 47 :: path := by rw [hpath, cstr_eq_self_iff.mpr hzero]
    rw [hself] at hlast hmark ⊢
    have hcount : (47 :: path).length % 2 ^ 32 < 2 ^ 31 := (Nat.mod_le _ _).trans_lt hshort
    have hwhole : counted (47 :: path) = 47 :: path := (counted_eq_iff hcount).mpr hshort
    have hcounts : Counts (host ++ lit ":" ++ port) (47 :: path) := by
      refine ⟨?_, fun h => absurd h hmark⟩
      rw [hlast]
      exact hcount
    refine ⟨hcounts, _, rfl, ?_⟩
    rw [hwhole]
    exact Url.parsePath_keeps (List.cons_ne_nil 47 path)

/-- What a name of a host looks like behind a protocol. -/
inductive Authority (protocol : Bytes) : Bytes → Prop
  | address (host port : Bytes) : Authority protocol (host ++ lit ":" ++ port)
  | domain (name ext : Bytes) : Authority protocol (name ++ lit "." ++ ext)
  | jtp (name : Bytes) (h : protocol = lit "jtp" ∨ ∃ type, (43 : Byte) ∉ type ∧ protocol = type ++ lit "+jtp") :
      Authority protocol name

/-- The form `protocol://authority[path][?args]` of a URL. -/
structure UrlForm (s protocol authority path args : Bytes) : Prop where
  text : s = protocol ++ lit "://" ++ (authority ++ (path ++ args))
  first : Occurrence.find (lit "://") s = some protocol.length
  authority : Authority protocol authority ∧ (47 : Byte) ∉ authority ∧ (63 : Byte) ∉ authority
  path : (path = [] ∨ ∃ more, path = 47 :: more) ∧ (63 : Byte) ∉ path ∧ ¬ lit ".." <:+: path
  args : args = [] ∨ ∃ more, args = 63 :: more

def WellFormed (s : Bytes) : Prop := ∃ protocol authority path args, UrlForm s protocol authority path args

/-- The constructor returns, has used no null, and its verdict is that of the form. -/
def VerdictMeant (s : Bytes) : Prop :=
  ∃ u, Url.construct s = .ok (u, false) ∧ (u.valid = true ↔ WellFormed s)

/-- The texts that the constructor gets through without a null: they have a path, their last part counts, and so do the
labels of their host name. -/
def GetsThrough (s : Bytes) : Prop :=
  ∃ protocol authority tail, UrlCut (cstr s) protocol authority tail ∧ tail ≠ [] ∧ Counts authority tail ∧
    FewLabels authority

theorem countedPieces_tail (protocol authority : Bytes) (h : tail ≠ []) :
    (countedPieces protocol authority tail).nullUsed = false ∧
      (countedPieces protocol authority tail).hostname = authority := by
  unfold countedPieces piecesWith
  rw [if_neg h]
  split_ifs <;> exact ⟨rfl, rfl⟩

/-- The verdict is right for the texts that the constructor gets through and that are not well formed. -/
theorem verdict_iff (s : Bytes) : VerdictMeant s ↔ GetsThrough s ∧ ¬ WellFormed s := by
  have hexists := fun {protocol authority tail} (h : UrlCut (cstr s) protocol authority tail) =>
    exists_construct h (P := fun u used => used = false ∧ (u.valid = true ↔ WellFormed s)) fun _ _ _ => Iff.rfl
  constructor
  · rintro ⟨u, hu, hverdict⟩
    have hform : ¬ WellFormed s := fun hform => by
      have hvalid := hverdict.mpr hform
      rw [construct_valid hu] at hvalid
      cases hvalid
    obtain ⟨x, -, -, hx, -⟩ := construct_eq_ok hu
    obtain ⟨protocol, authority, tail, hcut⟩ := exists_urlCut (infix_of_pieces hx)
    obtain ⟨hcounts, v, hv, hnull, -⟩ := (hexists hcut).mp ⟨u, false, hu, rfl, hverdict⟩
    have htail : tail ≠ [] := fun hnil => by
      unfold countedPieces piecesWith at hnull
      rw [if_pos hnil] at hnull
      cases hnull
    have hfew := (ofPieces_returns _ _).mp ⟨v, hv⟩
    rw [(countedPieces_tail protocol authority htail).2] at hfew
    exact ⟨⟨protocol, authority, tail, hcut, htail, hcounts, hfew⟩, hform⟩
  · rintro ⟨⟨protocol, authority, tail, hcut, htail, hcounts, hfew⟩, hform⟩
    obtain ⟨hnull, hname⟩ := countedPieces_tail protocol authority htail
    have hlabels : FewLabels (countedPieces protocol authority tail).hostname := by
      rw [hname]
      exact hfew
    obtain ⟨v, hv⟩ := (ofPieces_returns s (countedPieces protocol authority tail)).mpr hlabels
    have hverdict : v.valid = true ↔ WellFormed s := by
      rw [(ofPieces_keeps hv).2.1]
      exact iff_of_false Bool.false_ne_true hform
    obtain ⟨u, _, hu, rfl, hmeant⟩ := (hexists hcut).mpr ⟨hcounts, v, hv, hnull, hverdict⟩
    exact ⟨u, hu, hmeant⟩

/-- A text without `://` is not got through, and a URL with an address and a path is not called valid. -/
theorem verdict_wrong : ¬ VerdictMeant (lit "a") ∧ ¬ VerdictMeant (lit "http://a:1/x") := by
  constructor
  · rintro ⟨u, hu, -⟩
    obtain ⟨x, -, -, hx, -⟩ := construct_eq_ok hu
    have hno : ¬ lit "://" <:+: cstr (lit "a") := by decide
    exact hno (infix_of_pieces hx)
  · rintro ⟨u, hu, hverdict⟩
    have hform : WellFormed (lit "http://a:1/x") := by
      refine ⟨lit "http", lit "a:1", lit "/x", [], rfl, by decide, ⟨?_, by decide, by decide⟩, ?_, .inl rfl⟩
      · exact .address (lit "a") (lit "1")
      · exact ⟨.inr ⟨lit "x", rfl⟩, by decide, by decide⟩
    have hvalid := hverdict.mpr hform
    rw [construct_valid hu] at hvalid
    cases hvalid

end Jericho.Util
