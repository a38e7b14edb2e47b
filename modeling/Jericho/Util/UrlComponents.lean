import Jericho.Util.UrlConstructor

/-! A URL that was put together from its components, and which of them are read back. -/
namespace Jericho.Util
open StdText

/-- The components around the authority. Each is free of what separates it from the next. -/
structure UrlParts where
  type : Option Bytes
  protocol : Bytes
  path : Bytes
  query : Option Bytes
  type_free : ∀ c ∈ type.getD [], c ≠ 0 ∧ c ≠ 58 ∧ c ≠ 47 ∧ c ≠ 43
  protocol_free : ∀ c ∈ protocol, c ≠ 0 ∧ c ≠ 58 ∧ c ≠ 47 ∧ c ≠ 43
  path_slash : path = [] ∨ ∃ more, path = 47 :: more
  path_free : ∀ c ∈ path, c ≠ 0 ∧ c ≠ 63
  query_free : (0 : Byte) ∉ query.getD []

/-- The protocol with the type in front of it. -/
def UrlParts.scheme (t : UrlParts) : Bytes := t.type.elim [] (· ++ lit "+") ++ t.protocol

/-- The path and the query. There is no query without a path. -/
def UrlParts.target (t : UrlParts) : Bytes := if t.path = [] then [] else t.path ++ t.query.elim [] (63 :: ·)

def UrlParts.text (t : UrlParts) (authority : Bytes) : Bytes :=
  t.scheme ++ lit "://" ++ (authority ++ t.target)

/-- The URL of an address has the components it was put together from. `used` is free: a URL without a path is read by
way of a null `char *`, which the constructor counts from. -/
def AddressRead (t : UrlParts) (host port : Bytes) : Prop :=
  ∃ u used, Url.construct (t.text (host ++ lit ":" ++ port)) = .ok (u, used) ∧
    u.type = t.type.getD (lit "plain") ∧ u.protocol = t.protocol ∧ u.host = host ∧ u.port = port ∧ u.ip = true ∧
    u.path = if t.path = [] then lit "/" else t.path

/-- The URL of a domain name has its labels. -/
def DomainRead (t : UrlParts) (labels : List Bytes) : Prop :=
  ∃ u used, Url.construct (t.text (List.intercalate [46] labels)) = .ok (u, used) ∧
    u.subdomains ++ [u.hostname, u.ext] = labels

/-- The last part of the text has a length that an `int` counts as it is or that is not negative as one, and
the query, as far as it is counted, is read without a failure. -/
structure UrlParts.Readable (t : UrlParts) (authority : Bytes) : Prop where
  authority : t.path = [] → authority.length < 2 ^ 31
  path : t.path ≠ [] → t.query = none → t.path.length % 2 ^ 32 < 2 ^ 31
  query : t.path ≠ [] → ∀ query, t.query = some query →
    query.length % 2 ^ 32 < 2 ^ 31 ∧ (counted query = [] ∨ QueryReturns (counted query))

variable {t : UrlParts} {authority : Bytes}

theorem scheme_free (t : UrlParts) : (0 : Byte) ∉ t.scheme ∧ (58 : Byte) ∉ t.scheme := by
  unfold UrlParts.scheme
  rw [List.mem_append, List.mem_append]
  have htype : ∀ c ∈ t.type.elim [] (· ++ lit "+"), c ≠ 0 ∧ c ≠ 58 := by
    have hfree := t.type_free
    cases htype : t.type with
    | none => exact fun c hc => absurd hc List.not_mem_nil
    | some type =>
      rw [htype] at hfree
      intro c hc
      rcases List.mem_append.mp hc with hc | hc
      · exact ⟨(hfree c hc).1, (hfree c hc).2.1⟩
      · obtain rfl := List.mem_singleton.mp hc
        exact ⟨by decide, by decide⟩
  constructor
  · rintro (h | h)
    · exact (htype 0 h).1 rfl
    · exact (t.protocol_free 0 h).1 rfl
  · rintro (h | h)
    · exact (htype 58 h).2 rfl
    · exact (t.protocol_free 58 h).2.1 rfl

theorem zero_notMem_target (t : UrlParts) : (0 : Byte) ∉ t.target := by
  unfold UrlParts.target
  split_ifs
  · exact List.not_mem_nil
  · rw [List.mem_append]
    rintro (h | h)
    · exact (t.path_free 0 h).1 rfl
    · have hfree := t.query_free
      cases hquery : t.query with
      | none =>
        rw [hquery] at h
        exact absurd h List.not_mem_nil
      | some query =>
        rw [hquery] at h hfree
        exact hfree ((List.mem_cons.mp h).resolve_left (by decide))

/-- The text is cut into the parts that it was made of. -/
theorem text_cut (t : UrlParts) (hauthority : ∀ c ∈ authority, c ≠ 0 ∧ c ≠ 47) :
    UrlCut (cstr (t.text authority)) t.scheme authority t.target := by
  have hzero : (0 : Byte) ∉ t.text authority := by
    unfold UrlParts.text
    simp only [List.mem_append, not_or]
    exact ⟨⟨(scheme_free t).1, by decide⟩, fun h => (hauthority 0 h).1 rfl, zero_notMem_target t⟩
  rw [cstr_eq_self_iff.mpr hzero]
  refine ⟨rfl, find_first (scheme_free t).2 [47, 47] _, fun h => (hauthority 47 h).2 rfl, ?_⟩
  unfold UrlParts.target
  split_ifs with hpath
  · exact .inl rfl
  · obtain ⟨more, hmore⟩ := t.path_slash.resolve_left hpath
    rw [hmore]
    exact .inr ⟨_, rfl⟩

/-- The pieces of a text without a path, without a query, and with both. -/
inductive Pieces (t : UrlParts) (authority : Bytes) : Prop
  | bare (hpath : t.path = []) (hlast : lastPart authority t.target = authority) (hmark : (63 : Byte) ∉ t.target)
      (hpieces : countedPieces t.scheme authority t.target =
        { protocol := t.scheme, hostname := counted authority, nullUsed := true })
  | path (hpath : t.path ≠ []) (hquery : t.query = none) (hlast : lastPart authority t.target = t.path)
      (hmark : (63 : Byte) ∉ t.target)
      (hpieces : countedPieces t.scheme authority t.target =
        { protocol := t.scheme, hostname := authority, path := counted t.path })
  | query (hpath : t.path ≠ []) (query : Bytes) (hquery : t.query = some query)
      (hlast : lastPart authority t.target = query) (hmark : (63 : Byte) ∈ t.target)
      (htext : queryText t.target = query)
      (hpieces : countedPieces t.scheme authority t.target =
        { protocol := t.scheme, hostname := authority, path := t.path, args := counted query })

theorem pieces_target (t : UrlParts) (authority : Bytes) : Pieces t authority := by
  have hfree : (63 : Byte) ∉ t.path := fun h => (t.path_free 63 h).2 rfl
  by_cases hpath : t.path = []
  · have htarget : t.target = [] := if_pos hpath
    refine .bare hpath ?_ ?_ ?_
    · rw [htarget]
      rfl
    · rw [htarget]
      exact List.not_mem_nil
    · rw [htarget]
      rfl
  cases hquery : t.query with
  | none =>
    have htarget : t.target = t.path := by
      unfold UrlParts.target
      rw [if_neg hpath, hquery]
      exact List.append_nil t.path
    have hlast : lastPart authority t.path = t.path := by
      unfold lastPart
      rw [if_neg hpath, if_neg hfree]
    refine .path hpath hquery ?_ ?_ ?_
    · rw [htarget, hlast]
    · rw [htarget]
      exact hfree
    · unfold countedPieces piecesWith
      rw [htarget, hlast, if_neg hpath, if_neg hfree]
  | some query =>
    have htarget : t.target = t.path ++ 63 :: query := by
      unfold UrlParts.target
      rw [if_neg hpath, hquery]
      rfl
    have hmark : (63 : Byte) ∈ t.target := by
      rw [htarget]
      exact List.mem_append_right _ List.mem_cons_self
    obtain ⟨htake, hdrop⟩ := QueryText.cut_append 63 hfree query
    have htext : queryText t.target = query := by
      rw [htarget]
      exact hdrop
    refine .query hpath query hquery ((lastPart_query authority hmark).trans htext) hmark htext ?_
    unfold countedPieces piecesWith
    rw [lastPart_query authority hmark, htext, if_neg (List.ne_nil_of_mem hmark), if_pos hmark, htarget, htake]

/-- A text is readable if it counts and its authority is not cut off. -/
theorem readable_iff (t : UrlParts) (authority : Bytes) :
    t.Readable authority ↔ Counts authority t.target ∧
      (countedPieces t.scheme authority t.target).hostname = authority := by
  cases pieces_target t authority with
  | bare hpath hlast hmark hpieces =>
    rw [hpieces]
    constructor
    · rintro ⟨hauthority, -, -⟩
      have hshort := hauthority hpath
      refine ⟨⟨?_, fun h => absurd h hmark⟩, counted_short hshort⟩
      rw [hlast]
      exact (Nat.mod_le _ _).trans_lt hshort
    · rintro ⟨⟨hlength, -⟩, hhost⟩
      rw [hlast] at hlength
      refine ⟨fun _ => ?_, fun h => absurd hpath h, fun h => absurd hpath h⟩
      exact (counted_eq_iff hlength).mp hhost
  | path hpath hquery hlast hmark hpieces =>
    rw [hpieces]
    constructor
    · rintro ⟨-, hlength, -⟩
      refine ⟨⟨?_, fun h => absurd h hmark⟩, rfl⟩
      rw [hlast]
      exact hlength hpath hquery
    · rintro ⟨⟨hlength, -⟩, -⟩
      rw [hlast] at hlength
      refine ⟨fun h => absurd h hpath, fun _ _ => hlength, fun _ query h => ?_⟩
      rw [hquery] at h
      cases h
  | query hpath query hquery hlast hmark htext hpieces =>
    rw [hpieces]
    constructor
    · rintro ⟨-, -, hall⟩
      obtain ⟨hlength, hreads⟩ := hall hpath query hquery
      refine ⟨⟨?_, fun _ => ?_⟩, rfl⟩
      · rwa [hlast]
      · rwa [htext]
    · rintro ⟨⟨hlength, hreads⟩, -⟩
      refine ⟨fun h => absurd h hpath, fun _ h => ?_, fun _ other h => ?_⟩
      · rw [hquery] at h
        cases h
      · obtain rfl : query = other := Option.some.inj (hquery.symm.trans h)
        rw [hlast] at hlength
        have hreads := hreads hmark
        rw [htext] at hreads
        exact ⟨hlength, hreads⟩

/-- The URL that the host name is written into. -/
def schemeUrl (t : UrlParts) (url hostname path : Bytes) : Url :=
  { protocol := t.protocol, hostname := hostname, path := path, url := url, type := t.type.getD (lit "plain") }

theorem parseProtocol_scheme (t : UrlParts) (url hostname path : Bytes) :
    Url.parseProtocol { protocol := t.scheme, hostname := hostname, path := path, url := url } t.scheme =
      schemeUrl t url hostname path := by
  have hplus : (43 : Byte) ∉ t.protocol := fun h => (t.protocol_free 43 h).2.2.2 rfl
  have hfree := t.type_free
  unfold schemeUrl UrlParts.scheme
  generalize t.type = scheme at hfree ⊢
  cases scheme with
  | none => exact Url.parseProtocol_plain hplus _
  | some type =>
    have hfind : Occurrence.find (lit "+") (type ++ lit "+" ++ t.protocol) = some type.length :=
      find_first (fun h => (hfree 43 h).2.2.2 rfl) [] t.protocol
    have htake : (type ++ lit "+" ++ t.protocol).take type.length = type := by
      rw [List.append_assoc, List.take_left]
    have hdrop : (type ++ lit "+" ++ t.protocol).drop (type.length + 1) = t.protocol := by
      have hlength : type.length + 1 = (type ++ lit "+").length := by
        rw [List.length_append]
        rfl
      rw [hlength, List.drop_left]
    unfold Url.parseProtocol
    dsimp only [Option.elim, Option.getD]
    rw [hfind]
    dsimp only
    rw [htake, hdrop]

/-- The last step changes the path and the verdict only. -/
theorem Url.parsePath_same (u : Url) :
    ∃ valid, u.parsePath = { u with path := if u.path = [] then lit "/" else u.path, valid := valid } := by
  unfold Url.parsePath
  split_ifs
  · exact ⟨u.valid, rfl⟩
  · exact ⟨false, rfl⟩
  · exact ⟨u.valid, rfl⟩

/-- What the constructor has read before the arguments: the type, the protocol and the path, and of the host
name what `parseHostname` finds. -/
theorem ofPieces_eq_ok (t : UrlParts) (url : Bytes) {x : UrlPieces} (hx : x.protocol = t.scheme) {u : Url}
    (h : Url.ofPieces url x = .ok u) :
    ∃ v valid, (schemeUrl t url x.hostname x.path).parseHostname x.hostname = .ok v ∧
      u = { v with path := if x.path = [] then lit "/" else x.path, valid := valid } := by
  obtain ⟨v, hv, rfl⟩ := map_eq_ok.mp h
  rw [hx, parseProtocol_scheme] at hv
  obtain ⟨valid, hvalid⟩ := v.parsePath_same
  have hpath : v.path = x.path := (Url.parseHostname_keeps hv).1.path
  refine ⟨v, valid, hv, ?_⟩
  rw [hvalid, hpath]

/-- A host name with a colon is the host and the port that are read from it. -/
theorem eq_of_parseHostname_ip {u v : Url} {hostname : Bytes} (hu : u.ip = false)
    (h : u.parseHostname hostname = .ok v) (hip : v.ip = true) : hostname = v.host ++ lit ":" ++ v.port := by
  have hcolon : (58 : Byte) ∈ hostname := ((Url.parseHostname_keeps h).2.mp hip).resolve_left (by rw [hu]; decide)
  obtain ⟨p, hfind⟩ : ∃ p, Occurrence.find (lit ":") hostname = some p := find_of_mem hcolon
  have hsplit := Occurrence.find_split hfind
  unfold Url.parseHostname at h
  rw [hfind] at h
  obtain rfl := Except.ok.inj h
  exact hsplit

theorem parseDomain_labels {u v : Url} {hostname : Bytes} (hdot : (46 : Byte) ∈ hostname)
    (h : u.parseDomain hostname = .ok v) : v.subdomains ++ [v.hostname, v.ext] = hostname.splitOn 46 := by
  unfold Url.parseDomain at h
  cases hlabels : (hostname.splitOn 46).reverse with
  | nil => exact absurd (List.reverse_eq_nil_iff.mp hlabels) (List.splitOn_ne_nil 46 hostname)
  | cons ext more =>
    have hsplit : hostname.splitOn 46 = more.reverse ++ [ext] := by
      rw [← List.reverse_reverse (hostname.splitOn 46), hlabels, List.reverse_cons]
    rw [hlabels] at h
    cases more with
    | nil =>
      have hself : hostname = ext := QueryText.eq_of_splitOn 46 hsplit
      have hmem : ext ∈ hostname.splitOn 46 := by
        rw [hsplit]
        exact List.mem_singleton_self ext
      exact absurd (hself ▸ hdot) (notMem_of_mem_splitOn hmem)
    | cons name subdomains =>
      dsimp only at h
      split_ifs at h
      obtain rfl := Except.ok.inj h
      rw [hsplit, List.reverse_cons, List.append_assoc]
      rfl

/-- A host name without a colon is made of the labels that are read from it, or it has no dot and is left. -/
theorem parseHostname_labels {u v : Url} {hostname : Bytes} (h : u.parseHostname hostname = .ok v)
    (hcolon : (58 : Byte) ∉ hostname) (hu : u.subdomains = [] ∧ u.ext = [] ∧ u.hostname = hostname) :
    v.subdomains ++ [v.hostname, v.ext] = if 46 ∈ hostname then hostname.splitOn 46 else [hostname, []] := by
  have hfind : Occurrence.find (lit ":") hostname = none := find_of_notMem hcolon
  unfold Url.parseHostname at h
  rw [hfind] at h
  dsimp only at h
  split_ifs at h ⊢ with hdot
  · obtain ⟨w, hw, rfl⟩ := map_eq_ok.mp h
    have hlabels := parseDomain_labels hdot hw
    exact hlabels
  · obtain rfl := Except.ok.inj h
    obtain ⟨hsubs, hext, hname⟩ := hu
    rw [hsubs, hext, hname]
    rfl

theorem pieces_protocol (t : UrlParts) (authority : Bytes) :
    (countedPieces t.scheme authority t.target).protocol = t.scheme := by
  unfold countedPieces piecesWith
  split_ifs <;> rfl

/-- The path is the one of the text unless it is cut off. -/
theorem path_read_iff (h : Counts authority t.target) :
    ((if (countedPieces t.scheme authority t.target).path = [] then lit "/"
      else (countedPieces t.scheme authority t.target).path) = if t.path = [] then lit "/" else t.path) ↔
      (t.query = none → t.path.length < 2 ^ 32) := by
  cases pieces_target t authority with
  | bare hpath hlast hmark hpieces =>
    rw [hpieces, if_pos rfl, if_pos hpath, hpath]
    exact iff_of_true rfl fun _ => Nat.two_pow_pos 32
  | path hpath hquery hlast hmark hpieces =>
    have hlength := h.length
    rw [hlast] at hlength
    have hcounted := counted_eq_iff hlength
    rw [hpieces, if_neg hpath]
    dsimp only
    constructor
    · intro hread _
      split_ifs at hread with hnil
      · rw [← hread]
        decide
      · exact (hcounted.mp hread).trans (by decide)
    · intro hshort
      rw [Nat.mod_eq_of_lt (hshort hquery)] at hlength
      have hself := hcounted.mpr hlength
      rw [hself, if_neg hpath]
  | query hpath query hquery hlast hmark htext hpieces =>
    rw [hpieces]
    refine iff_of_true rfl fun hnone => ?_
    rw [hquery] at hnone
    cases hnone

theorem address_read_iff (t : UrlParts) {host port : Bytes} (hhost : ∀ c ∈ host, c ≠ 0 ∧ c ≠ 58 ∧ c ≠ 47)
    (hport : ∀ c ∈ port, c ≠ 0 ∧ c ≠ 58 ∧ c ≠ 47) : AddressRead t host port ↔
      t.Readable (host ++ lit ":" ++ port) ∧ (t.query = none → t.path.length < 2 ^ 32) := by
  have hauthority : ∀ c ∈ host ++ lit ":" ++ port, c ≠ 0 ∧ c ≠ 47 := by
    rw [List.forall_mem_append, List.forall_mem_append]
    have hcolon : ∀ c ∈ lit ":", c ≠ 0 ∧ c ≠ 47 := List.forall_mem_singleton.mpr ⟨by decide, by decide⟩
    exact ⟨⟨fun c hc => ⟨(hhost c hc).1, (hhost c hc).2.2⟩, hcolon⟩, fun c hc => ⟨(hport c hc).1, (hport c hc).2.2⟩⟩
  have hnocolon : (58 : Byte) ∉ host := fun h => (hhost 58 h).2.1 rfl
  unfold AddressRead
  rw [exists_construct (text_cut t hauthority) (P := fun u _ => u.type = t.type.getD (lit "plain") ∧
    u.protocol = t.protocol ∧ u.host = host ∧ u.port = port ∧ u.ip = true ∧
    u.path = if t.path = [] then lit "/" else t.path) fun _ _ _ => Iff.rfl, readable_iff, and_assoc]
  refine and_congr_right fun hcounts => ?_
  have hpath := path_read_iff hcounts
  have hprotocol := pieces_protocol t (host ++ lit ":" ++ port)
  generalize countedPieces t.scheme (host ++ lit ":" ++ port) t.target = x at hpath hprotocol ⊢
  constructor
  · rintro ⟨u, hu, -, -, hh, hp, hflag, hpathread⟩
    obtain ⟨v, valid, hv, rfl⟩ := ofPieces_eq_ok t _ hprotocol hu
    refine ⟨?_, hpath.mp hpathread⟩
    rw [eq_of_parseHostname_ip rfl hv hflag, hh, hp]
  · rintro ⟨hname, hshort⟩
    have haddress : FewLabels x.hostname := by
      rw [hname]
      exact .inl (List.mem_append_left _ (List.mem_append_right _ List.mem_cons_self))
    obtain ⟨u, hu⟩ := (ofPieces_returns (t.text (host ++ lit ":" ++ port)) x).mpr haddress
    refine ⟨u, hu, ?_⟩
    obtain ⟨v, valid, hv, rfl⟩ := ofPieces_eq_ok t _ hprotocol hu
    rw [hname, Url.parseHostname_address hnocolon] at hv
    obtain rfl := Except.ok.inj hv
    exact ⟨rfl, rfl, rfl, rfl, rfl, hpath.mpr hshort⟩

theorem mem_intercalate {α : Type*} {sep c : α} {pieces : List (List α)} (h : c ∈ List.intercalate [sep] pieces) :
    c = sep ∨ ∃ piece ∈ pieces, c ∈ piece := by
  induction pieces with
  | nil => cases h
  | cons piece rest ih =>
    cases rest with
    | nil =>
      rw [List.intercalate_singleton] at h
      exact .inr ⟨piece, List.mem_cons_self, h⟩
    | cons next rest =>
      rw [List.intercalate_cons_cons] at h
      rcases List.mem_append.mp h with h | h
      · rcases List.mem_append.mp h with h | h
        · exact .inr ⟨piece, List.mem_cons_self, h⟩
        · exact .inl (List.mem_singleton.mp h)
      · rcases ih h with h | ⟨other, hmem, h⟩
        · exact .inl h
        · exact .inr ⟨other, List.mem_cons_of_mem piece hmem, h⟩

theorem pieces_hostname (t : UrlParts) (authority : Bytes) :
    (countedPieces t.scheme authority t.target).hostname = authority ∨
      (countedPieces t.scheme authority t.target).hostname = counted authority := by
  cases pieces_target t authority with
  | bare hpath hlast hmark hpieces =>
    rw [hpieces]
    exact .inr rfl
  | path hpath hquery hlast hmark hpieces =>
    rw [hpieces]
    exact .inl rfl
  | query hpath query hquery hlast hmark htext hpieces =>
    rw [hpieces]
    exact .inl rfl

/-- A cut never takes the last byte alone. -/
theorem counted_ne_dropLast {p : Bytes} {c : Byte} : counted (p ++ [c]) ≠ p := by
  intro h
  have hlength := congrArg List.length h
  unfold counted at hlength
  rw [List.length_take, List.length_append, List.length_singleton] at hlength
  omega

theorem domain_read_iff (t : UrlParts) {labels : List Bytes} (hlength : 2 ≤ labels.length)
    (hlabels : ∀ label ∈ labels, ∀ c ∈ label, c ≠ 0 ∧ c ≠ 46 ∧ c ≠ 58 ∧ c ≠ 47) :
    DomainRead t labels ↔ t.Readable (List.intercalate [46] labels) ∧ labels.length < 2 ^ 31 + 2 := by
  have hauthority : ∀ c ∈ List.intercalate [46] labels, c ≠ 0 ∧ c ≠ 47 ∧ c ≠ 58 := by
    intro c hc
    rcases mem_intercalate hc with rfl | ⟨label, hmem, hc⟩
    · exact ⟨by decide, by decide, by decide⟩
    · obtain ⟨hzero, -, hcolon, hslash⟩ := hlabels label hmem c hc
      exact ⟨hzero, hslash, hcolon⟩
  have hsplit : (List.intercalate [46] labels).splitOn 46 = labels :=
    List.splitOn_intercalate 46 (fun label hmem h => (hlabels label hmem 46 h).2.1 rfl)
      (List.ne_nil_of_length_pos (Nat.zero_lt_of_lt hlength))
  have hdot : (46 : Byte) ∈ List.intercalate [46] labels := by
    obtain ⟨first, second, rest, rfl⟩ : ∃ first second rest, labels = first :: second :: rest := by
      cases labels with
      | nil => cases hlength
      | cons first more =>
        cases more with
        | nil => exact absurd hlength (by simp)
        | cons second rest => exact ⟨first, second, rest, rfl⟩
    rw [List.intercalate_cons_cons]
    exact List.mem_append_left _ (List.mem_append_right _ List.mem_cons_self)
  have hname := pieces_hostname t (List.intercalate [46] labels)
  unfold DomainRead
  rw [exists_construct (text_cut t fun c hc => ⟨(hauthority c hc).1, (hauthority c hc).2.1⟩)
    (P := fun u _ => u.subdomains ++ [u.hostname, u.ext] = labels) fun _ _ _ => Iff.rfl, readable_iff, and_assoc]
  refine and_congr_right fun _ => ?_
  have hprotocol := pieces_protocol t (List.intercalate [46] labels)
  have hreturns := ofPieces_returns (t.text (List.intercalate [46] labels))
    (countedPieces t.scheme (List.intercalate [46] labels) t.target)
  generalize countedPieces t.scheme (List.intercalate [46] labels) t.target = x at hname hprotocol hreturns ⊢
  have hcolon : (58 : Byte) ∉ x.hostname := by
    intro h
    rcases hname with hx | hx
    · exact (hauthority 58 (hx ▸ h)).2.2 rfl
    · exact (hauthority 58 (List.mem_of_mem_take (hx ▸ h))).2.2 rfl
  rw [FewLabels, or_iff_right hcolon] at hreturns
  constructor
  · rintro ⟨u, hu, h⟩
    have hfew := hreturns.mp ⟨u, hu⟩
    obtain ⟨v, valid, hv, rfl⟩ := ofPieces_eq_ok t _ hprotocol hu
    have hread := parseHostname_labels hv hcolon ⟨rfl, rfl, rfl⟩
    dsimp only at h
    rw [hread] at h
    have hwhole : x.hostname = List.intercalate [46] labels := by
      split_ifs at h with hmem
      · rw [← h, List.intercalate_splitOn]
      · refine hname.resolve_right fun hcut => ?_
        have hself : List.intercalate [46] labels = x.hostname ++ [46] := by
          rw [← h, List.intercalate_cons_cons, List.intercalate_singleton, List.append_nil]
        exact counted_ne_dropLast (hself ▸ hcut.symm)
    rw [hwhole, hsplit] at hfew
    exact ⟨hwhole, hfew⟩
  · rintro ⟨hwhole, hfew⟩
    rw [hwhole, hsplit] at hreturns
    obtain ⟨u, hu⟩ := hreturns.mpr hfew
    refine ⟨u, hu, ?_⟩
    obtain ⟨v, valid, hv, rfl⟩ := ofPieces_eq_ok t _ hprotocol hu
    have hread := parseHostname_labels hv hcolon ⟨rfl, rfl, rfl⟩
    rw [hwhole, if_pos hdot, hsplit] at hread
    exact hread

/-- Which components of a URL text are read back, for an address and for a domain name. -/
theorem components_read_iff (t : UrlParts) {host port : Bytes} {labels : List Bytes}
    (hhost : ∀ c ∈ host, c ≠ 0 ∧ c ≠ 58 ∧ c ≠ 47) (hport : ∀ c ∈ port, c ≠ 0 ∧ c ≠ 58 ∧ c ≠ 47)
    (hlength : 2 ≤ labels.length) (hlabels : ∀ label ∈ labels, ∀ c ∈ label, c ≠ 0 ∧ c ≠ 46 ∧ c ≠ 58 ∧ c ≠ 47) :
    (AddressRead t host port ↔
      t.Readable (host ++ lit ":" ++ port) ∧ (t.query = none → t.path.length < 2 ^ 32)) ∧
    (DomainRead t labels ↔ t.Readable (List.intercalate [46] labels) ∧ labels.length < 2 ^ 31 + 2) :=
  ⟨address_read_iff t hhost hport, domain_read_iff t hlength hlabels⟩

/-- The parts of `p://.../?query`. -/
def rootParts (query : Bytes) (hquery : (0 : Byte) ∉ query) : UrlParts where
  type := none
  protocol := lit "p"
  path := lit "/"
  query := some query
  type_free := fun _ hc => absurd hc List.not_mem_nil
  protocol_free := List.forall_mem_singleton.mpr ⟨by decide, by decide, by decide, by decide⟩
  path_slash := .inr ⟨[], rfl⟩
  path_free := List.forall_mem_singleton.mpr ⟨by decide, by decide⟩
  query_free := hquery

theorem components_read_flag : AddressRead (rootParts (lit "f") (by decide)) (lit "h") (lit "1") ∧
    DomainRead (rootParts (lit "f") (by decide)) [lit "a", lit "b"] := by
  have hsome : (rootParts (lit "f") (by decide)).query ≠ none := Option.some_ne_none _
  have hcounted : counted (lit "f") = lit "f" := rfl
  have hreadable : ∀ authority, (rootParts (lit "f") (by decide)).Readable authority := by
    refine fun authority => ⟨fun h => absurd h (List.cons_ne_nil _ _), fun _ h => absurd h hsome, fun _ query h => ?_⟩
    obtain rfl : lit "f" = query := Option.some.inj h
    rw [hcounted]
    exact ⟨by decide, .inr ⟨List.pairwise_singleton _ _, fun hsign => absurd hsign (by decide)⟩⟩
  have hletter : ∀ letter : Byte, letter = 97 ∨ letter = 98 → ∀ c ∈ [letter], c ≠ 0 ∧ c ≠ 46 ∧ c ≠ 58 ∧ c ≠ 47 := by
    rintro letter (rfl | rfl)
    · exact List.forall_mem_singleton.mpr ⟨by decide, by decide, by decide, by decide⟩
    · exact List.forall_mem_singleton.mpr ⟨by decide, by decide, by decide, by decide⟩
  obtain ⟨haddress, hdomain⟩ := @components_read_iff (rootParts (lit "f") (by decide)) (lit "h") (lit "1")
    [lit "a", lit "b"] (List.forall_mem_singleton.mpr ⟨by decide, by decide, by decide⟩)
    (List.forall_mem_singleton.mpr ⟨by decide, by decide, by decide⟩) (Nat.le_refl 2)
    (List.forall_mem_cons.mpr ⟨hletter 97 (.inl rfl), List.forall_mem_singleton.mpr (hletter 98 (.inr rfl))⟩)
  exact ⟨haddress.mpr ⟨hreadable _, fun h => absurd h hsome⟩, hdomain.mpr ⟨hreadable _, by decide⟩⟩

/-- A pair at the end of the query makes the constructor read past the text. -/
theorem components_lost : ¬ AddressRead (rootParts (lit "k=v") (by decide)) (lit "h") (lit "1") := by
  intro h
  obtain ⟨hreadable, -⟩ := (address_read_iff (rootParts (lit "k=v") (by decide))
    (List.forall_mem_singleton.mpr ⟨by decide, by decide, by decide⟩)
    (List.forall_mem_singleton.mpr ⟨by decide, by decide, by decide⟩)).mp h
  obtain ⟨-, hquery⟩ := hreadable.query (List.cons_ne_nil _ _) (lit "k=v") rfl
  have hcounted : counted (lit "k=v") = lit "k=v" := rfl
  rw [hcounted] at hquery
  have hroom := ((hquery.resolve_left (List.cons_ne_nil _ _)).count (by decide)).2
  revert hroom
  decide

end Jericho.Util
