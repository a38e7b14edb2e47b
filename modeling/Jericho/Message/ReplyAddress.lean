import Jericho.Message.Operations
import Jericho.Server.HeaderSection

/-! Where a reply goes: the receiver of a message reads the address of its sender out of the `Host`
header and builds a message to it. -/
namespace Jericho.Message
open StdText Util Server Crypt

/-- A host or a port: visible characters other than the separators of an address. -/
def AddressText (s : Bytes) : Prop := ∀ c ∈ s, c ≠ 58 ∧ c ≠ 47 ∧ 32 < c

instance (s : Bytes) : Decidable (AddressText s) := List.decidableBAll _ s

/-- A header that a message may bring along. -/
structure OwnHeader (f : Field) : Prop where
  key : Plain f.1
  value : Plain f.2
  notHost : f.1 ≠ lit "Host"
  notSize : f.1 ≠ lit "Content-Size"
  notCallback : ¬ lit "Callback-" <:+: f.1

/-- A message that a node built from a URL; its content and its headers are set afterwards. -/
def BuiltBy (sender : Bifrost) (buf : MessageBuffer) : Prop :=
  ∃ now url broker a sender' m, sender.buffer now url broker = .ok (some a, sender') ∧
    sender'.heap.read (some a) = some m ∧ buf.hostname = m.hostname ∧ buf.fromPort = m.fromPort ∧
    buf.path = m.path ∧ buf.protocol = m.protocol

theorem BuiltBy.address {sender : Bifrost} {buf : MessageBuffer} (h : BuiltBy sender buf) :
    buf.hostname = sender.host ∧ buf.fromPort = sender.port := by
  obtain ⟨now, url, broker, a, sender', m, hbuffer, hread, hhost, hport, -⟩ := h
  obtain ⟨u, -, hbuffer⟩ := bind_eq_ok.mp hbuffer
  dsimp only at hbuffer
  split at hbuffer
  · obtain ⟨id, -, hbuffer⟩ := bind_eq_ok.mp hbuffer
    obtain ⟨hnext, rfl⟩ := Prod.mk.inj (Except.ok.inj hbuffer)
    obtain rfl := Option.some.inj hnext
    rw [hhost, hport, ← Option.some.inj ((Heap.alloc_read_next _ _).symm.trans hread)]
    exact ⟨rfl, rfl⟩
  · cases (Prod.mk.inj (Except.ok.inj hbuffer)).1

/-- A message that goes to a host, a port and a path under a protocol. -/
structure AddressedTo (host port path protocol : Bytes) (m : MessageBuffer) : Prop where
  host : m.toHost = host
  port : m.toPort = port
  path : m.path = path
  protocol : m.protocol = protocol

/-- A node builds a message to a place from a URL. -/
def BuildsTo (receiver : Bifrost) (now : Int) (broker : Option Nat) (url host port path protocol : Bytes) : Prop :=
  ∃ a receiver' m, receiver.buffer now url broker = .ok (some a, receiver') ∧
    receiver'.heap.read (some a) = some m ∧ AddressedTo host port path protocol m

/-- A message is built for the place that the URL is read as, with the next number. -/
theorem buildsTo_parse {receiver : Bifrost} {now : Int} {broker : Option Nat} {url host port path protocol : Bytes} :
    (BuildsTo receiver now broker url host port path protocol ↔ inInt (receiver.messageId + 1) ∧
      ∃ u, Url.parse url = .ok u ∧ u.ip = true ∧ u.host = host ∧ u.port = port ∧ u.path = path ∧
        u.protocol = protocol) := by
  constructor
  · rintro ⟨a, receiver', m, hbuffer, hread, hm⟩
    obtain ⟨u, hparse, hbuffer⟩ := bind_eq_ok.mp hbuffer
    dsimp only at hbuffer
    split at hbuffer
    · rename_i hip
      obtain ⟨id, hid, hbuffer⟩ := bind_eq_ok.mp hbuffer
      obtain ⟨hnext, rfl⟩ := Prod.mk.inj (Except.ok.inj hbuffer)
      obtain rfl := Option.some.inj hnext
      obtain rfl := Option.some.inj ((Heap.alloc_read_next _ _).symm.trans hread)
      obtain ⟨rfl, hint⟩ := Bifrost.increment_spec hid
      exact ⟨hint, u, hparse, hip, hm.host, hm.port, hm.path, hm.protocol⟩
    · cases (Prod.mk.inj (Except.ok.inj hbuffer)).1
  · rintro ⟨hint, u, hparse, hip, hu, hup, hupath, huprotocol⟩
    have hid : increment receiver.messageId = .ok (receiver.messageId + 1) := if_pos hint
    unfold BuildsTo Bifrost.buffer
    rw [hparse]
    dsimp only [bind, Except.bind]
    rw [if_pos hip, hid]
    exact ⟨_, _, _, rfl, Heap.alloc_cell_next _ _, hu, hup, hupath, huprotocol⟩

/-- The URL of a reply leads where it says unless a NUL cuts it, its path is too long to be counted or the message
numbers are used up. -/
theorem buildsTo_iff {host port path protocol : Bytes} (hhost : AddressText host) (hport : AddressText port)
    (hcolon : (58 : Byte) ∉ protocol) (hplus : (43 : Byte) ∉ protocol) (hslash : path.head? = some 47)
    (hquery : (63 : Byte) ∉ path) (receiver : Bifrost) (now : Int) (broker : Option Nat) :
    BuildsTo receiver now broker (protocol ++ lit "://" ++ (host ++ lit ":" ++ port) ++ path) host port path protocol ↔
      (0 : Byte) ∉ protocol ∧ (0 : Byte) ∉ path ∧ path.length < 2 ^ 31 ∧ inInt (receiver.messageId + 1) := by
  have hvisible : ∀ {s : Bytes}, AddressText s → ∀ c ∈ s, c ≠ 0 ∧ c ≠ 58 ∧ c ≠ 47 := by
    intro s hs c hc
    obtain ⟨h58, h47, hlt⟩ := hs c hc
    refine ⟨?_, h58, h47⟩
    rintro rfl
    revert hlt
    decide
  rw [buildsTo_parse]
  by_cases hz : (0 : Byte) ∈ protocol
  · -- the text ends inside the protocol, and the separator is never found
    refine iff_of_false ?_ fun h => h.1 hz
    rintro ⟨-, u, hparse, -⟩
    have hin := infix_of_parse hparse
    rw [List.append_assoc, List.append_assoc, cstr_append_of_mem hz] at hin
    exact hcolon (List.takeWhile_subset _ (hin.subset (by decide : (58 : Byte) ∈ lit "://")))
  · obtain ⟨rest, rfl⟩ : ∃ rest, path = 47 :: rest := by
      cases path with
      | nil => cases hslash
      | cons c rest => exact ⟨rest, congrArg (· :: rest) (Option.some.inj hslash)⟩
    rw [Url.parse_address hz hcolon hplus (hvisible hhost)
      (fun c hc => ⟨(hvisible hport c hc).1, (hvisible hport c hc).2.2⟩) (fun h => hquery (List.mem_cons_of_mem _ h))]
    have hmem : (0 : Byte) ∈ 47 :: rest ↔ 0 ∈ rest := List.mem_cons.trans (or_iff_right (by decide))
    rw [hmem]
    exact ⟨fun ⟨hint, hpath, hshort⟩ => ⟨hz, hpath, hshort, hint⟩,
      fun ⟨_, hpath, hshort, hint⟩ => ⟨hint, hpath, hshort⟩⟩

variable {prizm : Prizm} {bio : Base64Filter}

theorem AddressText.noCr {s : Bytes} (h : AddressText s) : noCr s = s := by
  unfold Server.noCr
  rw [List.filter_eq_self]
  intro c hc
  refine decide_eq_true fun heq => ?_
  have hlt := (h c hc).2.2
  rw [heq] at hlt
  revert hlt
  decide

theorem AddressText.notMem {s : Bytes} (h : AddressText s) {c : Byte} (hc : c ≤ 32) : c ∉ s :=
  fun hmem => absurd (h c hmem).2.2 (UInt8.not_lt.mpr hc)

/-- A key that reads differently than it was written leaves its separator in the value. -/
theorem separator_mem_value {f : Field} {k : Bytes} (hk : f.1 ≠ k) (hread : (readField f).1 = k) :
    (58 : Byte) ∈ (readField f).2 ∧ (32 : Byte) ∈ (readField f).2 :=
  readField_value fun heq => hk (heq.symm.trans hread)

theorem numbersReadable_sent {hostname port : Bytes} {buf : MessageBuffer} (hsize : buf.sent.length < 2^31)
    (hown : ∀ f ∈ buf.headers.entries, OwnHeader f) :
    NumbersReadable (fixedHeaders hostname port buf ++ buf.headers.entries.map readField) where
  size := by
    rw [List.forall_mem_append, List.forall_mem_map]
    refine ⟨fun f hf hk => ?_, fun f hf hk => ?_⟩
    · rw [(fixedHeaders_spec hostname port buf hf).2.1 hk, readSize_isOk_iff]
      exact fun _ => ⟨_, stoi_decimal hsize⟩
    · -- the rest of the key is in the value, which is no number then
      have hcolon := (separator_mem_value (hown f hf).notSize hk).1
      rw [readSize_isOk_iff]
      intro hall
      exact absurd (List.all_eq_true.mp hall 58 hcolon) (by decide)
  callback := by
    rintro ⟨f, hf, hcallback⟩
    rcases List.mem_append.mp hf with hf | hf
    · have hnone := dlookup_fixedHeaders_callback hostname port buf hcallback
      exact absurd (List.mem_keys_of_mem hf) (List.dlookup_eq_none.mp hnone)
    · obtain ⟨g, hg, rfl⟩ := List.mem_map.mp hf
      unfold isCallbackKey at hcallback
      have hfind := (Bool.and_eq_true_iff.mp hcallback).2
      have hin : lit "Callback-" <:+: (readField g).1 := by
        by_contra hno
        rw [Occurrence.find_eq_none_iff.mpr hno] at hfind
        cases hfind
      exact absurd (hin.trans (prefix_readField_key g).isInfix) (hown g hg).notCallback

/-- The host that the receiver reads: the sender's address, unless a header spells another host. -/
theorem host_received (bio : Base64Filter) (hp : prizm.Documented) {sender : Bifrost} (hhost : AddressText sender.host)
    (hport : AddressText sender.port) {buf : MessageBuffer} (hbuilt : BuiltBy sender buf)
    (hpath : ∀ c ∈ buf.path, isspace c = false) (hown : ∀ f ∈ buf.headers.entries, OwnHeader f) {text : Bytes}
    (h : headerSection buf.hostname buf.fromPort buf.path buf = .ok text) (req : Request) :
    ∃ r, Request.parseHeaders prizm bio req text = .ok r ∧
      (r.host = sender.host ++ lit ":" ++ sender.port ↔ ∀ f ∈ buf.headers.entries, ¬ lit "Host: " <+: f.1) := by
  obtain ⟨hhostname, hfromPort⟩ := hbuilt.address
  rw [hhostname, hfromPort] at h
  have hline : (10 : Byte) ∉ buf.path := by
    intro hmem
    have hspace := hpath 10 hmem
    revert hspace
    decide
  obtain ⟨hfields, hget, hsize⟩ := headerFields_sent hp (hhost.notMem (by decide)) (hport.notMem (by decide)) hline
    (fun f hf => ⟨(hown f hf).key.notMem_lf, (hown f hf).value.notMem_lf⟩) h
  have hcut : buf.headers.entries.map (readField ∘ cutField) = buf.headers.entries.map readField := by
    apply List.map_congr_left
    intro f hf
    unfold Function.comp cutField
    rw [(hown f hf).key.cstr, (hown f hf).value.cstr]
  rw [hhost.noCr, hport.noCr, hcut] at hfields
  obtain ⟨r, hr⟩ : ∃ r, Request.parseHeaders prizm bio req text = .ok r :=
    parseHeaders_get req hget (hfields ▸ numbersReadable_sent hsize hown)
  refine ⟨r, hr, ?_⟩
  have hfixed : (fixedHeaders sender.host sender.port buf).reverse.dlookup (lit "Host") =
      some (sender.host ++ lit ":" ++ sender.port) := by
    rw [← List.perm_dlookup _ (fixedHeaders_nodupKeys _ _ buf) (List.reverse_perm _).symm, fixedHeaders_cons,
      List.dlookup_cons_eq, cstr_eq_self_iff.mpr (hhost.notMem (by decide)),
      cstr_eq_self_iff.mpr (hport.notMem (by decide))]
  have hspelled : ∀ f, (readField f).1 = lit "Host" ↔ f.1 = lit "Host" ∨ lit "Host: " <+: f.1 :=
    readField_key_iff (by decide)
  rw [parseHeaders_host hr, hfields, List.reverse_append, List.dlookup_append, hfixed]
  cases hlookup : (buf.headers.entries.map readField).reverse.dlookup (lit "Host") with
  | none =>
    refine iff_of_true rfl fun f hf hpre => ?_
    have hmem : readField f ∈ (buf.headers.entries.map readField).reverse :=
      List.mem_reverse.mpr (List.mem_map_of_mem hf)
    exact List.dlookup_eq_none.mp hlookup ((hspelled f).mpr (.inr hpre) ▸ List.mem_keys_of_mem hmem)
  | some val =>
    obtain ⟨f, hf, hread⟩ := List.mem_map.mp (List.mem_reverse.mp (List.of_mem_dlookup hlookup))
    have hkey : (readField f).1 = lit "Host" := congrArg Sigma.fst hread
    have hpre := ((hspelled f).mp hkey).resolve_left (hown f hf).notHost
    refine iff_of_false ?_ fun hno => hno f hf hpre
    -- the separator of the key is in the value, and no address holds a blank
    have hblank := (separator_mem_value (hown f hf).notHost hkey).2
    rw [hread] at hblank
    intro heq
    have heq : val = sender.host ++ lit ":" ++ sender.port := heq
    rw [heq, List.mem_append, List.mem_append] at hblank
    rcases hblank with (hmem | hmem) | hmem
    · exact hhost.notMem (by decide) hmem
    · revert hmem
      decide
    · exact hport.notMem (by decide) hmem

variable (prizm bio) in
/-- The receiver knows the sender by its address, and its reply is addressed to the sender. -/
def ReplyAddressed (sender receiver : Bifrost) (now : Int) (broker : Option Nat) (req : Request)
    (text protocol path : Bytes) : Prop :=
  ∃ r, Request.parseHeaders prizm bio req text = .ok r ∧ r.host = sender.host ++ lit ":" ++ sender.port ∧
    BuildsTo receiver now broker (r.reply protocol path) sender.host sender.port path protocol

/-- A reply is addressed to the node that sent the message, unless the headers of that message overrun the buffer they
are written into or spell a host, a NUL ends the text of the URL early, the path is too long to be counted, or the
receiver is out of message numbers. -/
theorem reply_addressed_iff (hp : prizm.Documented) {sender receiver : Bifrost} (hhost : AddressText sender.host)
    (hport : AddressText sender.port) {buf : MessageBuffer} (hbuilt : BuiltBy sender buf)
    (hpath : ∀ c ∈ buf.path, isspace c = false) (hown : ∀ f ∈ buf.headers.entries, OwnHeader f) {head : Bytes}
    (hhead : requestHead buf.hostname buf.fromPort buf.path buf = .ok head) (hsize : inInt buf.sent.length)
    (req : Request) {protocol path : Bytes} (hcolon : (58 : Byte) ∉ protocol) (hplus : (43 : Byte) ∉ protocol)
    (hslash : path.head? = some 47) (hquery : (63 : Byte) ∉ path) (now : Int) (broker : Option Nat) :
    (∃ text, headerSection buf.hostname buf.fromPort buf.path buf = .ok text ∧
      ReplyAddressed prizm bio sender receiver now broker req text protocol path) ↔
      head.length < 490000 ∧ (∀ f ∈ buf.headers.entries, ¬ lit "Host: " <+: f.1) ∧ (0 : Byte) ∉ protocol ∧
        (0 : Byte) ∉ path ∧ path.length < 2 ^ 31 ∧ inInt (receiver.messageId + 1) := by
  rw [exists_headerSection hhead hsize]
  refine and_congr_right fun hlt => ?_
  have htext : headerSection buf.hostname buf.fromPort buf.path buf = .ok head :=
    headerSection_eq_ok.mpr ⟨hsize, hhead, hlt⟩
  obtain ⟨r, hr, hread⟩ := host_received bio hp hhost hport hbuilt hpath hown htext req
  have hreply : r.host = sender.host ++ lit ":" ++ sender.port → r.reply protocol path =
      protocol ++ lit "://" ++ (sender.host ++ lit ":" ++ sender.port) ++ path :=
    fun heq => congrArg (protocol ++ lit "://" ++ · ++ path) heq
  constructor
  · rintro ⟨r', hr', heq, hbuilds⟩
    obtain rfl := Except.ok.inj (hr.symm.trans hr')
    rw [hreply heq, buildsTo_iff hhost hport hcolon hplus hslash hquery] at hbuilds
    exact ⟨hread.mp heq, hbuilds⟩
  · rintro ⟨hno, hbuilds⟩
    have heq := hread.mpr hno
    refine ⟨r, hr, heq, ?_⟩
    rw [hreply heq, buildsTo_iff hhost hport hcolon hplus hslash hquery]
    exact hbuilds

/-- A node, and a message it built with headers of its own. -/
def replySender : Bifrost := { host := lit "localhost", port := lit "8080" }

def replyMessage (headers : StrMap) : MessageBuffer :=
  { hostname := lit "localhost", fromPort := lit "8080", path := lit "/sum", protocol := lit "job", headers := headers }

theorem replyMessage_built (headers : StrMap) : BuiltBy replySender (replyMessage headers) :=
  ⟨0, lit "job://localhost:8081/sum", none, _, _, _, rfl, rfl, rfl, rfl, rfl, rfl⟩

theorem replyMessage_path (headers : StrMap) : ∀ c ∈ (replyMessage headers).path, isspace c = false :=
  fun c hc => of_decide_eq_true (List.all_eq_true.mp (by decide : (lit "/sum").all (isspace · = false) = true) c hc)

def ticketHeader : StrMap := StrMap.assign ∅ [⟨lit "Ticket", lit "7"⟩]
def spoofedHeader : StrMap := StrMap.assign ∅ [⟨lit "Host: a", lit "b"⟩]

theorem ownHeader_samples :
    (∀ f ∈ (replyMessage ticketHeader).headers.entries, OwnHeader f) ∧
      ∀ f ∈ (replyMessage spoofedHeader).headers.entries, OwnHeader f := by
  have hticket : (replyMessage ticketHeader).headers.entries = [⟨lit "Ticket", lit "7"⟩] := rfl
  have hspoofed : (replyMessage spoofedHeader).headers.entries = [⟨lit "Host: a", lit "b"⟩] := rfl
  rw [hticket, hspoofed, List.forall_mem_singleton, List.forall_mem_singleton]
  exact ⟨⟨by decide, by decide, by decide, by decide, by decide⟩, by decide, by decide, by decide, by decide, by decide⟩

/-- The headers of the samples fit. -/
theorem replyMessage_head : (∃ head, requestHead (lit "localhost") (lit "8080") (lit "/sum")
      (replyMessage ticketHeader) = .ok head ∧ head.length < 490000) ∧
    ∃ head, requestHead (lit "localhost") (lit "8080") (lit "/sum") (replyMessage spoofedHeader) = .ok head ∧
      head.length < 490000 := by
  exact ⟨⟨_, rfl, by decide +kernel⟩, _, rfl, by decide +kernel⟩

theorem reply_addressed_ticket :
    ∃ text, headerSection (lit "localhost") (lit "8080") (lit "/sum") (replyMessage ticketHeader) = .ok text ∧
      ReplyAddressed Prizm.reference Base64Filter.reference replySender { host := lit "localhost", port := lit "8081" }
        0 none { client := ⟨[], Nat.zero_le _, []⟩ } text (lit "job") (lit "/null") := by
  obtain ⟨head, hhead, hlt⟩ := replyMessage_head.1
  refine (reply_addressed_iff Prizm.reference_documented (by decide) (by decide) (replyMessage_built _)
    (replyMessage_path _) ownHeader_samples.1 hhead (by decide) _ (by decide) (by decide) (by decide) (by decide) 0
    none).mpr ⟨hlt, ?_, ?_⟩
  · have hticket : (replyMessage ticketHeader).headers.entries = [⟨lit "Ticket", lit "7"⟩] := rfl
    rw [hticket, List.forall_mem_singleton]
    decide
  · exact ⟨by decide, by decide, by decide, by decide⟩

def longHeader : StrMap := StrMap.assign ∅ [⟨lit "Note", List.replicate 490000 97⟩]

/-- A header that is longer than the buffer is not written, a header key with the separator in it takes the place of the
host, a NUL cuts the path of the reply, a path of `2 ^ 31` bytes is not counted, and the last message number leaves none
for the reply. -/
theorem reply_misaddressed :
    (∃ head, requestHead (lit "localhost") (lit "8080") (lit "/sum") (replyMessage longHeader) = .ok head ∧
      ∀ text, headerSection (lit "localhost") (lit "8080") (lit "/sum") (replyMessage longHeader) ≠ .ok text) ∧
    (∃ text, headerSection (lit "localhost") (lit "8080") (lit "/sum") (replyMessage spoofedHeader) = .ok text ∧
      ¬ ReplyAddressed Prizm.reference Base64Filter.reference replySender
        { host := lit "localhost", port := lit "8081" } 0 none { client := ⟨[], Nat.zero_le _, []⟩ } text (lit "job")
        (lit "/null")) ∧
    ∃ text, headerSection (lit "localhost") (lit "8080") (lit "/sum") (replyMessage ticketHeader) = .ok text ∧
      ¬ ReplyAddressed Prizm.reference Base64Filter.reference replySender
        { host := lit "localhost", port := lit "8081" } 0 none { client := ⟨[], Nat.zero_le _, []⟩ } text (lit "job")
        (lit "/a" ++ 0 :: lit "b") ∧
      ¬ ReplyAddressed Prizm.reference Base64Filter.reference replySender
        { host := lit "localhost", port := lit "8081" } 0 none { client := ⟨[], Nat.zero_le _, []⟩ } text (lit "job")
        (47 :: List.replicate (2 ^ 31) 97) ∧
      ¬ ReplyAddressed Prizm.reference Base64Filter.reference replySender
        { host := lit "localhost", port := lit "8081", messageId := 2147483647 } 0 none
        { client := ⟨[], Nat.zero_le _, []⟩ } text (lit "job") (lit "/null") := by
  have hhost : AddressText replySender.host := by decide
  have hport : AddressText replySender.port := by decide
  have hbuilt : ∀ {receiver r path}, path.head? = some 47 → (63 : Byte) ∉ path →
      r.host = replySender.host ++ lit ":" ++ replySender.port →
      BuildsTo receiver 0 none (Request.reply r (lit "job") path) replySender.host replySender.port path (lit "job") →
      (0 : Byte) ∉ path ∧ path.length < 2 ^ 31 ∧ inInt (receiver.messageId + 1) := by
    intro receiver r path hslash hquery heq hbuilds
    have hreply : r.reply (lit "job") path =
        lit "job" ++ lit "://" ++ (replySender.host ++ lit ":" ++ replySender.port) ++ path :=
      congrArg (lit "job" ++ lit "://" ++ · ++ path) heq
    rw [hreply, buildsTo_iff hhost hport (by decide) (by decide) hslash hquery] at hbuilds
    exact hbuilds.2
  refine ⟨⟨_, rfl, ?_⟩, ?_, ?_⟩
  · intro text htext
    obtain ⟨-, hhead, hlt⟩ := headerSection_eq_ok.mp htext
    have hmem : (⟨lit "Note", List.replicate 490000 97⟩ : Field) ∈ (replyMessage longHeader).headers.entries :=
      List.mem_cons_self
    have hle := length_le_requestHead hhead hmem
    have hzero : (0 : Byte) ∉ List.replicate 490000 (97 : Byte) := by
      rw [List.mem_replicate]
      decide
    dsimp only at hle
    rw [cstr_eq_self_iff.mpr hzero, List.length_replicate] at hle
    omega
  · obtain ⟨head, hhead, hlt⟩ := replyMessage_head.2
    have htext : headerSection (lit "localhost") (lit "8080") (lit "/sum") (replyMessage spoofedHeader) = .ok head :=
      headerSection_eq_ok.mpr ⟨by decide, hhead, hlt⟩
    refine ⟨head, htext, ?_⟩
    rintro ⟨r, hr, heq, -⟩
    obtain ⟨r', hr', hread⟩ := host_received Base64Filter.reference Prizm.reference_documented hhost hport
      (replyMessage_built _) (replyMessage_path _) ownHeader_samples.2 htext { client := ⟨[], Nat.zero_le _, []⟩ }
    obtain rfl := Except.ok.inj (hr'.symm.trans hr)
    have hno := hread.mp heq ⟨lit "Host: a", lit "b"⟩ List.mem_cons_self
    exact hno (by decide)
  · obtain ⟨head, hhead, hlt⟩ := replyMessage_head.1
    refine ⟨head, headerSection_eq_ok.mpr ⟨by decide, hhead, hlt⟩, ?_, ?_, ?_⟩
    · rintro ⟨r, hr, heq, hbuilds⟩
      exact absurd (hbuilt (by decide) (by decide) heq hbuilds).1 (by decide)
    · rintro ⟨r, hr, heq, hbuilds⟩
      have hquery : (63 : Byte) ∉ 47 :: List.replicate (2 ^ 31) (97 : Byte) := by
        rw [List.mem_cons, List.mem_replicate]
        decide
      have hshort := (hbuilt rfl hquery heq hbuilds).2.1
      rw [List.length_cons, List.length_replicate] at hshort
      omega
    · rintro ⟨r, hr, heq, hbuilds⟩
      exact absurd (hbuilt (by decide) (by decide) heq hbuilds).2.2 (by decide)

end Jericho.Message
