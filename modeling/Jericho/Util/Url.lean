import Jericho.Util.Prizm

/-! The `URL` class: `type+protocol://host:port/path?args`, read with C-string searches. -/
namespace Jericho.Util
open StdText

structure Url where
  protocol : Bytes
  subdomains : List Bytes := []
  host : Bytes := []
  hostname : Bytes
  ext : Bytes := []
  path : Bytes
  port : Bytes := []
  url : Bytes
  type : Bytes := lit "plain"
  valid : Bool := true
  domain : Bool := false
  ip : Bool := false
  args : StrMap := ∅
  deriving DecidableEq

/-- `_parseProtocol` -/
def Url.parseProtocol (u : Url) (protocol : Bytes) : Url :=
  match Occurrence.find (lit "+") protocol with
  | some p => { u with type := protocol.take p, protocol := protocol.drop (p + 1) }
  | none => u

/-- The labels of a domain name: the last is the extension, the one before it the name. The loop over the others counts
in an `int`. -/
def Url.parseDomain (u : Url) (hostname : Bytes) : Exec Url :=
  match (hostname.splitOn 46).reverse with
  | ext :: name :: subdomains =>
    if inInt subdomains.length then
      .ok { u with ext := ext, hostname := name, subdomains := subdomains.reverse, domain := true }
    else .error .undefined
  | _ => .ok { u with domain := true }

/-- `_parseHostname`: whatever it finds, it ends with an invalid URL. -/
def Url.parseHostname (u : Url) (hostname : Bytes) : Exec Url :=
  match Occurrence.find (lit ":") hostname with
  | some p => .ok { u with host := hostname.take p, port := hostname.drop (p + 1), ip := true, valid := false }
  | none =>
    if 46 ∈ hostname then (u.parseDomain hostname).map fun u => { u with valid := false }
    else .ok { u with valid := false }

/-- `_parsePath`, and the path of a URL that has none. -/
def Url.parsePath (u : Url) : Url :=
  if u.path = [] then { u with path := lit "/" }
  else if 46 ∈ u.path then { u with valid := false } else u

theorem find_of_notMem {c : Byte} {s : Bytes} (h : c ∉ s) : Occurrence.find [c] s = none := by
  rw [Occurrence.find_eq_none_iff]
  intro hin
  exact h (hin.subset (List.mem_singleton_self c))

theorem find_of_mem {c : Byte} {s : Bytes} (h : c ∈ s) : ∃ p, Occurrence.find [c] s = some p := by
  refine Option.ne_none_iff_exists'.mp fun hnone => ?_
  rw [Occurrence.find_eq_none_iff] at hnone
  exact hnone ((List.singleton_infix_iff c s).mpr h)

/-- A pattern is found where its first character first stands. -/
theorem find_first {c : Byte} {a : Bytes} (h : c ∉ a) (pat b : Bytes) :
    Occurrence.find (c :: pat) (a ++ c :: pat ++ b) = some a.length := by
  induction a with
  | nil => exact Occurrence.find_eq_zero (List.prefix_append _ b)
  | cons x a ih =>
    obtain ⟨hx, ha⟩ : c ≠ x ∧ c ∉ a := by simpa using h
    have hno : ¬ c :: pat <+: x :: (a ++ c :: pat ++ b) := fun hpre => hx (List.cons_prefix_cons.mp hpre).1
    rw [List.cons_append, List.cons_append, Occurrence.find_cons hno, ih ha]
    rfl

theorem Url.parseProtocol_plain {protocol : Bytes} (h : (43 : Byte) ∉ protocol) (u : Url) :
    u.parseProtocol protocol = u := by
  have hnone : Occurrence.find (lit "+") protocol = none := find_of_notMem h
  unfold Url.parseProtocol
  rw [hnone]

theorem Url.parseHostname_address {host : Bytes} (h : (58 : Byte) ∉ host) (port : Bytes) (u : Url) :
    u.parseHostname (host ++ lit ":" ++ port) =
      .ok { u with host := host, port := port, ip := true, valid := false } := by
  have hcolon : Occurrence.find (lit ":") (host ++ lit ":" ++ port) = some host.length := find_first h [] port
  have hdrop : (host ++ lit ":" ++ port).drop (host.length + 1) = port := by
    rw [List.append_assoc, List.drop_append]
    simp [lit]
  unfold Url.parseHostname
  rw [hcolon]
  dsimp only
  rw [hdrop, List.append_assoc, List.take_left]

/-- What the host name sets: all but the address, the labels and the flags is kept. -/
structure Url.HostRead (u v : Url) : Prop where
  type : v.type = u.type
  protocol : v.protocol = u.protocol
  path : v.path = u.path
  url : v.url = u.url
  valid : v.valid = false

theorem Url.parseDomain_keeps {u v : Url} {hostname : Bytes} (h : u.parseDomain hostname = .ok v) :
    v.type = u.type ∧ v.protocol = u.protocol ∧ v.path = u.path ∧ v.url = u.url ∧ v.ip = u.ip := by
  unfold Url.parseDomain at h
  split at h
  · split_ifs at h
    obtain rfl := Except.ok.inj h
    exact ⟨rfl, rfl, rfl, rfl, rfl⟩
  · obtain rfl := Except.ok.inj h
    exact ⟨rfl, rfl, rfl, rfl, rfl⟩

/-- A colon makes a host name an address. -/
theorem Url.parseHostname_keeps {u v : Url} {hostname : Bytes} (h : u.parseHostname hostname = .ok v) :
    u.HostRead v ∧ (v.ip = true ↔ u.ip = true ∨ (58 : Byte) ∈ hostname) := by
  unfold Url.parseHostname at h
  by_cases hcolon : (58 : Byte) ∈ hostname
  · obtain ⟨p, hfind⟩ : ∃ p, Occurrence.find (lit ":") hostname = some p := find_of_mem hcolon
    rw [hfind] at h
    obtain rfl := Except.ok.inj h
    exact ⟨⟨rfl, rfl, rfl, rfl, rfl⟩, iff_of_true rfl (.inr hcolon)⟩
  · have hfind : Occurrence.find (lit ":") hostname = none := find_of_notMem hcolon
    rw [hfind] at h
    dsimp only at h
    rw [or_iff_left hcolon]
    split_ifs at h
    · obtain ⟨w, hw, rfl⟩ := map_eq_ok.mp h
      obtain ⟨htype, hprotocol, hpath, hurl, hip⟩ := Url.parseDomain_keeps hw
      exact ⟨⟨htype, hprotocol, hpath, hurl, rfl⟩, by rw [← hip]⟩
    · obtain rfl := Except.ok.inj h
      exact ⟨⟨rfl, rfl, rfl, rfl, rfl⟩, Iff.rfl⟩

/-- A host name that is an address, or that has no more labels than the loop over them can count. -/
def FewLabels (hostname : Bytes) : Prop := (58 : Byte) ∈ hostname ∨ (hostname.splitOn 46).length < 2 ^ 31 + 2

theorem Url.parseDomain_returns (u : Url) (hostname : Bytes) :
    (∃ v, u.parseDomain hostname = .ok v) ↔ (hostname.splitOn 46).length < 2 ^ 31 + 2 := by
  unfold Url.parseDomain
  rw [← List.length_reverse]
  rcases (hostname.splitOn 46).reverse with _ | ⟨ext, _ | ⟨name, subdomains⟩⟩
  · exact iff_of_true ⟨_, rfl⟩ (by decide)
  · exact iff_of_true ⟨_, rfl⟩ (by decide : 1 < 2 ^ 31 + 2)
  · dsimp only
    rw [List.length_cons, List.length_cons, Nat.add_assoc, Nat.add_lt_add_iff_right]
    split_ifs with hfew
    · exact iff_of_true ⟨_, rfl⟩ (inInt_nat.mp hfew)
    · refine iff_of_false (fun h => ?_) fun h => hfew (inInt_nat.mpr h)
      obtain ⟨v, hv⟩ := h
      cases hv

theorem Url.parseHostname_returns (u : Url) (hostname : Bytes) :
    (∃ v, u.parseHostname hostname = .ok v) ↔ FewLabels hostname := by
  unfold Url.parseHostname FewLabels
  by_cases hcolon : (58 : Byte) ∈ hostname
  · obtain ⟨p, hfind⟩ : ∃ p, Occurrence.find (lit ":") hostname = some p := find_of_mem hcolon
    rw [hfind]
    exact iff_of_true ⟨_, rfl⟩ (.inl hcolon)
  · have hfind : Occurrence.find (lit ":") hostname = none := find_of_notMem hcolon
    rw [hfind, or_iff_right hcolon, ← u.parseDomain_returns]
    dsimp only
    split_ifs with hdot
    · constructor
      · rintro ⟨v, hv⟩
        obtain ⟨w, hw, -⟩ := map_eq_ok.mp hv
        exact ⟨w, hw⟩
      · rintro ⟨w, hw⟩
        exact ⟨_, map_eq_ok.mpr ⟨w, hw, rfl⟩⟩
    · refine iff_of_true ⟨_, rfl⟩ ?_
      have hsplit : hostname.splitOn 46 = [hostname] :=
        List.splitOnP_eq_singleton fun c hc => by simpa using fun h46 : c = 46 => hdot (h46 ▸ hc)
      rw [u.parseDomain_returns, hsplit]
      exact (by decide : 1 < 2 ^ 31 + 2)

theorem Url.parsePath_keeps {u : Url} (h : u.path ≠ []) :
    u.parsePath.ip = u.ip ∧ u.parsePath.host = u.host ∧ u.parsePath.port = u.port ∧ u.parsePath.path = u.path ∧
      u.parsePath.protocol = u.protocol := by
  unfold Url.parsePath
  rw [if_neg h]
  split_ifs
  · exact ⟨rfl, rfl, rfl, rfl, rfl⟩
  · exact ⟨rfl, rfl, rfl, rfl, rfl⟩

end Jericho.Util
