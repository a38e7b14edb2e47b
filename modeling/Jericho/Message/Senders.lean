import Jericho.Message.Barrier

/-! The senders on URLs without an address: `buffer` makes no message for them, and no sender looks. -/
namespace Jericho.Message
open StdText Util Server

/-- The name of the host in what is behind `://`: up to the next slash, or as much as is counted if there is none. -/
def hostText (rest : Bytes) : Bytes := if 47 ∈ rest then rest.takeWhile (· ≠ 47) else counted rest

/-- The text of a URL has an address between `://` and the next slash. -/
def HasAddress (url : Bytes) : Prop :=
  ∃ p, Occurrence.find (lit "://") (cstr url) = some p ∧ (58 : Byte) ∈ hostText ((cstr url).drop (p + 3))

/-- Increments of a counter that an `int` can hold. -/
def CountsOn (n : Int) (k : Nat) : Prop := ∀ i < k, inInt (n + 1 + i)

/-- Calls that have no other fault than an undefined one. -/
def OnlyUndefined {α : Type} (x : Exec α) : Prop := ∀ fault, x = .error fault → fault = .undefined

theorem onlyUndefined_ok {α : Type} (a : α) : OnlyUndefined (.ok a : Exec α) := by
  intro fault h
  cases h

theorem OnlyUndefined.bind {α β : Type} {x : Exec α} {f : α → Exec β} (hx : OnlyUndefined x)
    (hf : ∀ a, OnlyUndefined (f a)) : OnlyUndefined (x >>= f) := by
  intro fault h
  cases x with
  | error e =>
    obtain rfl := Except.error.inj h
    exact hx e rfl
  | ok a => exact hf a fault h

theorem OnlyUndefined.map {α β : Type} {x : Exec α} (hx : OnlyUndefined x) (f : α → β) : OnlyUndefined (x.map f) := by
  intro fault h
  cases x with
  | error e =>
    obtain rfl := Except.error.inj h
    exact hx e rfl
  | ok a => cases h

theorem countsOn_succ {n : Int} {k : Nat} : CountsOn n (k + 1) ↔ inInt (n + 1) ∧ CountsOn (n + 1) k := by
  constructor
  · intro h
    refine ⟨by simpa using h 0 (Nat.succ_pos k), fun i hi => ?_⟩
    have hnext := h (i + 1) (Nat.succ_lt_succ hi)
    have hsum : n + 1 + ((i + 1 : Nat) : Int) = n + 1 + 1 + i := by omega
    rwa [hsum] at hnext
  · rintro ⟨hfirst, hrest⟩ i hi
    cases i with
    | zero => simpa using hfirst
    | succ i =>
      have hsum : n + 1 + ((i + 1 : Nat) : Int) = n + 1 + 1 + i := by omega
      rw [hsum]
      exact hrest i (Nat.lt_of_succ_lt_succ hi)

theorem pieces_hostText {str protocol authority tail : Bytes} (h : UrlCut str protocol authority tail) :
    (countedPieces protocol authority tail).hostname = hostText (str.drop (protocol.length + 3)) := by
  rw [h.around.2]
  unfold hostText
  rcases h.tail with rfl | ⟨more, rfl⟩
  · rw [List.append_nil, if_neg h.authority]
    rfl
  · have hfree : ∀ c ∈ authority, decide (c ≠ 47) = true := fun c hc =>
      decide_eq_true fun heq => h.authority (heq ▸ hc)
    rw [if_pos (List.mem_append_right _ List.mem_cons_self), List.takeWhile_append_of_pos hfree,
      List.takeWhile_cons_of_neg (by decide), List.append_nil]
    exact (countedPieces_tail protocol authority (List.cons_ne_nil _ _)).2

/-- A parsed URL has an address where its text has one. -/
theorem parse_ip {url : Bytes} {u : Url} (h : Url.parse url = .ok u) : u.ip = true ↔ HasAddress url := by
  obtain ⟨⟨u, used⟩, hu, rfl⟩ := map_eq_ok.mp h
  obtain ⟨x, v, args, hx, hv, rfl, -⟩ := construct_eq_ok hu
  obtain ⟨protocol, authority, tail, hcut⟩ := exists_urlCut (infix_of_pieces hx)
  have hpieces : x = countedPieces protocol authority tail := ((pieces_eq_ok hcut).mp hx).2
  have hname : x.hostname = hostText ((cstr url).drop (protocol.length + 3)) := by
    rw [hpieces]
    exact pieces_hostText hcut
  have hip := (ofPieces_keeps hv).2.2
  rw [hname] at hip
  refine hip.trans ⟨fun hcolon => ⟨protocol.length, hcut.first, hcolon⟩, ?_⟩
  rintro ⟨p, hp, hcolon⟩
  obtain rfl := Option.some.inj (hcut.first.symm.trans hp)
  exact hcolon

namespace Bifrost
variable {average : List UInt64 → Bytes} {now : Int} {content : Bytes} {k : Nat}
  {f : MessageBuffer → MessageBuffer} {s s' : Bifrost} {urls : List Bytes}

/-- What a sender has done for some URLs: a job for each, and under the ticket a broker that lists
exactly the messages of these jobs. The messages are new ones for the URLs. -/
def SentAll (s : Bifrost) (urls : List Bytes) (ticket : Int) (s' : Bifrost) : Prop :=
  ∃ addrs : List Addr, s'.jobs = s.jobs ++ addrs.map (fun a => { buf := some a }) ∧
    s'.brokers = s.brokers.insert ticket ⟨s.nextBroker, addrs.map some⟩ ∧ addrs.Nodup ∧
    (∀ a ∈ addrs, s.heap.next ≤ a) ∧
    List.Forall₂ (fun a url => ∃ m, s'.heap.cell a = some m ∧ m.url = url) addrs urls

/-- A sender either sends to all URLs, or, if one has no address, touches neither the null message
nor the jobs and the table. -/
structure Clean (s : Bifrost) (urls : List Bytes) (result : Exec (Int × Bifrost)) : Prop where
  sent : (∀ url ∈ urls, HasAddress url) → ∃ ticket s', result = .ok (ticket, s') ∧ SentAll s urls ticket s'
  refused : (∃ url ∈ urls, ¬ HasAddress url) → result ≠ .error .undefined ∧
    ∀ ticket s', result = .ok (ticket, s') → s'.jobs = s.jobs ∧ s'.brokers = s.brokers

/-- Every URL has an address, and the counters can count the ticket and the messages. -/
structure Usable (s : Bifrost) (urls : List Bytes) : Prop where
  addresses : ∀ url ∈ urls, HasAddress url
  ticket : inInt (s.ticketId + 1)
  messages : CountsOn s.messageId urls.length

theorem increment_onlyUndefined (n : Int) : OnlyUndefined (increment n) := by
  intro fault h
  unfold increment at h
  split_ifs at h
  exact (Except.error.inj h).symm

theorem deref_onlyUndefined (s : Bifrost) (buf : Option Addr) : OnlyUndefined (s.deref buf) := by
  intro fault h
  unfold deref at h
  split at h
  · cases h
  · exact (Except.error.inj h).symm

theorem buffer_onlyUndefined {url : Bytes} (hurl : ∃ u, Url.parse url = .ok u) (broker : Option Nat) :
    OnlyUndefined (s.buffer now url broker) := by
  obtain ⟨u, hu⟩ := hurl
  unfold buffer
  rw [hu]
  refine (onlyUndefined_ok u).bind fun v => ?_
  dsimp only
  split
  · exact (increment_onlyUndefined _).bind fun id => onlyUndefined_ok _
  · exact onlyUndefined_ok _

theorem fill_onlyUndefined (s : Bifrost) (buf : Option Addr) (content : Bytes) (f : MessageBuffer → MessageBuffer) :
    OnlyUndefined (s.fill buf content f) := by
  unfold fill
  split_ifs
  · exact onlyUndefined_ok _
  · exact (deref_onlyUndefined s buf).map _

theorem prepare_onlyUndefined (hurls : ∀ url ∈ urls, ∃ u, Url.parse url = .ok u) :
    OnlyUndefined (prepare now k content f urls s) := by
  induction urls generalizing s with
  | nil => exact onlyUndefined_ok _
  | cons url urls ih =>
    obtain ⟨hurl, hrest⟩ := List.forall_mem_cons.mp hurls
    refine OnlyUndefined.bind ?_ fun r => (ih hrest).bind fun r' => onlyUndefined_ok _
    exact (buffer_onlyUndefined hurl _).bind fun r => (fill_onlyUndefined _ _ _ _).bind fun s' => onlyUndefined_ok _

theorem dump_onlyUndefined (s : Bifrost) (messages : List (Option Addr)) : OnlyUndefined (s.dump messages) := by
  unfold dump
  induction messages with
  | nil => exact onlyUndefined_ok _
  | cons buf messages ih =>
    rw [List.mapM_cons]
    exact (deref_onlyUndefined s buf).bind fun m => ih.bind fun ms => onlyUndefined_ok _

/-- A sender makes one entry for each URL, be it a message or null. -/
theorem prepare_length {mq : List (Option Addr)} (h : prepare now k content f urls s = .ok (mq, s')) :
    mq.length = urls.length := by
  induction urls generalizing s mq with
  | nil =>
    obtain ⟨rfl, rfl⟩ := Prod.mk.inj (Except.ok.inj h)
    rfl
  | cons url urls ih =>
    obtain ⟨buf, s₁, mq', -, hrest, rfl⟩ := prepare_cons h
    exact congrArg (· + 1) (ih hrest)

/-- A URL with an address gets a message. -/
theorem message_address {url : Bytes} {buf : Option Addr} (hurl : HasAddress url)
    (h : message now k content f url s = .ok (buf, s')) : buf = some s.heap.next := by
  obtain ⟨⟨buf, s₁⟩, hbuf, h⟩ := bind_eq_ok.mp h
  dsimp only at h
  obtain ⟨s₂, -, h⟩ := bind_eq_ok.mp h
  obtain ⟨rfl, rfl⟩ := Prod.mk.inj (Except.ok.inj h)
  obtain ⟨u, hu, hbuf⟩ := bind_eq_ok.mp hbuf
  rw [if_pos ((parse_ip hu).mpr hurl)] at hbuf
  obtain ⟨id, -, hbuf⟩ := bind_eq_ok.mp hbuf
  exact (congrArg Prod.fst (Except.ok.inj hbuf)).symm

theorem message_ok {url : Bytes} (hparse : ∃ u, Url.parse url = .ok u) (hurl : HasAddress url)
    (hint : inInt (s.messageId + 1)) : ∃ r, message now k content f url s = .ok r := by
  obtain ⟨u, hu⟩ := hparse
  have hinc : increment s.messageId = .ok (s.messageId + 1) := if_pos hint
  have hbuf : ∃ m, s.buffer now url (some k) =
      .ok (some s.heap.next, { s with heap := s.heap.alloc m, messageId := s.messageId + 1 }) := by
    unfold buffer
    rw [hu]
    dsimp only [bind, Except.bind]
    rw [if_pos ((parse_ip hu).mpr hurl), hinc]
    exact ⟨_, rfl⟩
  obtain ⟨m, hbuf⟩ := hbuf
  have hfill : ∃ s', fill { s with heap := s.heap.alloc m, messageId := s.messageId + 1 } (some s.heap.next) content f =
      .ok s' := by
    unfold fill
    split_ifs
    · exact ⟨_, rfl⟩
    · exact ⟨_, map_eq_ok.mpr ⟨m, deref_spec.mpr ⟨_, rfl, Heap.alloc_cell_next _ _⟩, rfl⟩⟩
  obtain ⟨s', hfill⟩ := hfill
  exact ⟨_, bind_eq_ok.mpr ⟨_, hbuf, bind_eq_ok.mpr ⟨s', hfill, rfl⟩⟩⟩

/-- If all URLs have addresses, a sender makes its messages as far as it can count them. -/
theorem prepare_ok (hparse : ∀ url ∈ urls, ∃ u, Url.parse url = .ok u) (hurls : ∀ url ∈ urls, HasAddress url)
    (hcounts : CountsOn s.messageId urls.length) : ∃ r, prepare now k content f urls s = .ok r := by
  induction urls generalizing s with
  | nil => exact ⟨_, rfl⟩
  | cons url urls ih =>
    obtain ⟨hp, hparse⟩ := List.forall_mem_cons.mp hparse
    obtain ⟨ha, hurls⟩ := List.forall_mem_cons.mp hurls
    obtain ⟨hint, hcounts⟩ := countsOn_succ.mp hcounts
    have hmsg : ∃ r, message now k content f url s = .ok r := message_ok hp ha hint
    obtain ⟨⟨buf, s₁⟩, hmsg⟩ := hmsg
    have hcounts₁ : CountsOn s₁.messageId urls.length := by
      rcases message_spec hmsg with ⟨hnone, -, -⟩ | ⟨m, heap, -, rfl, -⟩
      · exact absurd ((message_address ha hmsg).symm.trans hnone) (Option.some_ne_none _)
      · exact hcounts
    obtain ⟨⟨mq, s₂⟩, hrest⟩ := ih hparse hurls hcounts₁
    refine ⟨(buf :: mq, s₂), bind_eq_ok.mpr ⟨(buf, s₁), hmsg, ?_⟩⟩
    exact bind_eq_ok.mpr ⟨(mq, s₂), hrest, rfl⟩

/-- If all URLs have addresses, the messages are new ones for them, all of them counted. -/
theorem prepare_made (hf : Fills f) (hurls : ∀ url ∈ urls, HasAddress url) {mq : List (Option Addr)}
    (h : prepare now k content f urls s = .ok (mq, s')) :
    CountsOn s.messageId urls.length ∧ ∃ addrs : List Addr, mq = addrs.map some ∧ addrs.Nodup ∧
      List.Forall₂ (fun a url => ∃ m, s'.heap.cell a = some m ∧ m.url = url) addrs urls := by
  induction urls generalizing s mq with
  | nil =>
    obtain ⟨rfl, rfl⟩ := Prod.mk.inj (Except.ok.inj h)
    exact ⟨fun i hi => absurd hi (Nat.not_lt_zero i), [], rfl, List.nodup_nil, .nil⟩
  | cons url urls ih =>
    obtain ⟨ha, hurls⟩ := List.forall_mem_cons.mp hurls
    obtain ⟨buf, s₁, mq', hmsg, hrest, rfl⟩ := prepare_cons h
    obtain ⟨hcounts, addrs, rfl, hnodup, hmade⟩ := ih hurls hrest
    obtain ⟨id, heap, rfl, -, hold, hnew⟩ := prepare_spec hf hrest
    rcases message_spec hmsg with
      ⟨hnone, -, -⟩ | ⟨m, heap₁, rfl, rfl, hnext, hcell, -, hid, hint, hurl, -, -⟩
    · exact absurd ((message_address ha hmsg).symm.trans hnone) (Option.some_ne_none _)
    · rw [hid] at hint
      refine ⟨countsOn_succ.mpr ⟨hint, hcounts⟩, s.heap.next :: addrs, rfl, List.nodup_cons.mpr ⟨?_, hnodup⟩, ?_⟩
      · intro hmem
        have hge := (hnew s.heap.next (List.mem_map_of_mem hmem)).1
        dsimp only at hge
        omega
      · refine .cons ⟨_, (hold _ (by dsimp only; omega)).trans hcell, ?_⟩ hmade
        split_ifs
        · exact hurl
        · exact (hf.url m).trans hurl

/-- What the three senders do: draw a ticket, and post under it. -/
def sender (s : Bifrost) (now : Int) (urls : List Bytes) (content : Bytes) (dumped : Bool)
    (f : Int → MessageBuffer → MessageBuffer) : Exec (Int × Bifrost) := do
  let ticket ← increment s.ticketId
  let s' ← { s with ticketId := ticket }.post now ticket urls content dumped (f ticket)
  return (ticket, s')

variable {dumped : Bool} {F : Int → MessageBuffer → MessageBuffer}

theorem sender_onlyUndefined (hparse : ∀ url ∈ urls, ∃ u, Url.parse url = .ok u) :
    OnlyUndefined (s.sender now urls content dumped F) := by
  refine (increment_onlyUndefined _).bind fun ticket => OnlyUndefined.bind ?_ fun s' => onlyUndefined_ok _
  refine (prepare_onlyUndefined hparse).bind fun r => OnlyUndefined.bind ?_ fun ms => onlyUndefined_ok _
  cases dumped with
  | true => exact dump_onlyUndefined _ _
  | false => exact onlyUndefined_ok _

/-- A sender that returns has prepared an entry for each URL and registered them all, be they
messages or null. -/
theorem sender_registers (hF : ∀ t, Fills (F t)) {ticket : Int}
    (h : s.sender now urls content dumped F = .ok (ticket, s')) :
    inInt (s.ticketId + 1) ∧ ∃ (mq : List (Option Addr)) (id : Int) (heap : Heap MessageBuffer),
      prepare now s.nextBroker content (F ticket) urls
        { s with ticketId := ticket, nextBroker := s.nextBroker + 1 } =
          .ok (mq, { s with ticketId := ticket, nextBroker := s.nextBroker + 1, messageId := id, heap := heap }) ∧
      s'.jobs = s.jobs ++ mq.map ({ buf := · }) ∧
      s'.brokers = s.brokers.insert ticket ⟨s.nextBroker, mq⟩ ∧
      ∀ a, (∀ b, s.brokers.lookup ticket = some b → some a ∉ b.messages) → s'.heap.cell a = heap.cell a := by
  obtain ⟨ticket, hinc, h⟩ := bind_eq_ok.mp h
  obtain ⟨s₁, hpost, h⟩ := bind_eq_ok.mp h
  obtain ⟨rfl, rfl⟩ := Prod.mk.inj (Except.ok.inj h)
  obtain ⟨rfl, hint⟩ := increment_spec hinc
  obtain ⟨mq, s₂, hprep, rfl⟩ := post_eq_ok hpost
  obtain ⟨id, heap, rfl, -⟩ := prepare_spec (hF _) hprep
  obtain ⟨heap', heq, -, hcell⟩ := register_spec
    { s with ticketId := s.ticketId + 1, nextBroker := s.nextBroker + 1, messageId := id, heap := heap }
    (s.ticketId + 1) ⟨s.nextBroker, mq⟩
  rw [heq]
  exact ⟨hint, mq, id, heap, hprep, rfl, rfl, hcell⟩

/-- With addresses in all URLs, a sender that returns has sent to all of them. -/
theorem sender_sent (hs : Placed s) (hF : ∀ t, Fills (F t)) (hurls : ∀ url ∈ urls, HasAddress url) {ticket : Int}
    (h : s.sender now urls content dumped F = .ok (ticket, s')) : SentAll s urls ticket s' ∧ Usable s urls := by
  obtain ⟨hint, mq, id, heap, hprep, hjobs, hbrokers, hcell⟩ := sender_registers hF h
  obtain ⟨hcounts, addrs, rfl, hnodup, hmade⟩ := prepare_made (hF _) hurls hprep
  obtain ⟨id', heap', heq, -, -, hnew⟩ := prepare_spec (hF _) hprep
  have hge : ∀ a ∈ addrs, s.heap.next ≤ a := fun a ha => (hnew a (List.mem_map_of_mem ha)).1
  have hkept : ∀ a ∈ addrs, s'.heap.cell a = heap.cell a := by
    intro a ha
    refine hcell a fun b hb hmem => ?_
    exact absurd (hs b (mem_owners.mpr (.inl ⟨ticket, hb⟩)) a hmem) (Nat.not_lt.mpr (hge a ha))
  refine ⟨⟨addrs, ?_, hbrokers, hnodup, hge, ?_⟩, hurls, hint, hcounts⟩
  · rw [hjobs, List.map_map]
    rfl
  · refine List.Forall₂.imp ?_ ((List.forall₂_and_left _ _).mpr ⟨hkept, hmade⟩)
    rintro a url ⟨hsame, m, hm, hurl⟩
    exact ⟨m, hsame.trans hm, hurl⟩

theorem sender_ok (hF : ∀ t, Fills (F t)) (hparse : ∀ url ∈ urls, ∃ u, Url.parse url = .ok u) (h : Usable s urls) :
    ∃ r, s.sender now urls content dumped F = .ok r := by
  have hinc : increment s.ticketId = .ok (s.ticketId + 1) := if_pos h.ticket
  have hprep : ∃ r, prepare now s.nextBroker content (F (s.ticketId + 1)) urls
      { s with ticketId := s.ticketId + 1, nextBroker := s.nextBroker + 1 } = .ok r :=
    prepare_ok hparse h.addresses h.messages
  obtain ⟨⟨mq, s₁⟩, hprep⟩ := hprep
  have hdump : ∃ ms, (if dumped then s₁.dump mq else .ok []) = .ok ms := by
    cases dumped with
    | false => exact ⟨_, rfl⟩
    | true =>
      obtain ⟨-, addrs, rfl, -, -⟩ := prepare_made (hF _) h.addresses hprep
      obtain ⟨id, heap, rfl, -, -, hnew⟩ := prepare_spec (hF _) hprep
      refine dump_ok (List.forall_mem_map.mpr fun a ha => ?_)
      obtain ⟨-, m, hm, -⟩ := hnew a (List.mem_map_of_mem ha)
      exact ⟨m, deref_spec.mpr ⟨a, rfl, hm⟩⟩
  obtain ⟨ms, hdump⟩ := hdump
  have hpost : ∃ s', { s with ticketId := s.ticketId + 1 }.post now (s.ticketId + 1) urls content dumped
      (F (s.ticketId + 1)) = .ok s' :=
    ⟨_, bind_eq_ok.mpr ⟨(mq, s₁), hprep, bind_eq_ok.mpr ⟨ms, hdump, rfl⟩⟩⟩
  obtain ⟨s', hpost⟩ := hpost
  exact ⟨_, bind_eq_ok.mpr ⟨_, hinc, bind_eq_ok.mpr ⟨s', hpost, rfl⟩⟩⟩

/-- A sender is clean exactly on usable URLs. -/
theorem sender_clean (hs : Placed s) (hF : ∀ t, Fills (F t)) (hparse : ∀ url ∈ urls, ∃ u, Url.parse url = .ok u) :
    Clean s urls (s.sender now urls content dumped F) ↔ Usable s urls := by
  constructor
  · intro h
    by_cases hall : ∀ url ∈ urls, HasAddress url
    · obtain ⟨ticket, s', hok, -⟩ := h.sent hall
      exact (sender_sent hs hF hall hok).2
    · -- the entry of the bad URL is enqueued like all others, unless the call has run into it before
      have hbad : ∃ url ∈ urls, ¬ HasAddress url := by
        push Not at hall
        exact hall
      obtain ⟨hdefined, hkept⟩ := h.refused hbad
      cases hresult : s.sender now urls content dumped F with
      | error fault =>
        obtain rfl := sender_onlyUndefined hparse fault hresult
        exact absurd hresult hdefined
      | ok r =>
        obtain ⟨ticket, s'⟩ := r
        obtain ⟨-, mq, id, heap, hprep, hjobs, -⟩ := sender_registers hF hresult
        have hsame := congrArg List.length (hjobs.symm.trans (hkept ticket s' hresult).1)
        have hlength := prepare_length hprep
        obtain ⟨url, hurl, -⟩ := hbad
        have hpos := List.length_pos_of_mem hurl
        rw [List.length_append, List.length_map] at hsame
        omega
  · intro h
    refine ⟨fun _ => ?_, fun hbad => ?_⟩
    · obtain ⟨⟨ticket, s'⟩, hok⟩ := sender_ok hF hparse h
      exact ⟨ticket, s', hok, (sender_sent hs hF h.addresses hok).1⟩
    · obtain ⟨url, hurl, hnot⟩ := hbad
      exact absurd (h.addresses url hurl) hnot

/-- In a reachable node the senders are clean exactly on URLs that all have an address, as long as the
counters can count: no sender tests what `buffer` returns. -/
theorem senders_clean_iff (h : Reachable average s) (now : Int) (content : Bytes) (callback : Option Callback) :
    (∀ urls, (∀ url ∈ urls, ∃ u, Url.parse url = .ok u) →
      (Clean s urls (s.broadcastAsync now urls content) ↔ Usable s urls)) ∧
    ∀ url, (∃ u, Url.parse url = .ok u) →
      (Clean s [url] (s.sendAsync now url content callback) ↔ Usable s [url]) ∧
      (Clean s [url] (s.ricochetAsync now url content callback) ↔ Usable s [url]) := by
  have hfills : ∀ (headers : Int → MessageBuffer → List Field) (callback : Option Callback) (t : Int),
      Fills fun m => m.fill content t (headers t m) callback :=
    fun headers callback t => fills_fill content t (headers t) callback
  refine ⟨fun urls hparse => ?_, fun url hparse => ?_⟩
  · exact sender_clean h.placed (hfills (fun t m =>
      [⟨brokerType, lit "broadcast"⟩, ⟨ticketText, toText t⟩, ⟨messageIdText, toText m.id⟩]) none) hparse
  · have hone : ∀ url' ∈ [url], ∃ u, Url.parse url' = .ok u := List.forall_mem_singleton.mpr hparse
    constructor
    · exact sender_clean h.placed (hfills (fun t m =>
        [⟨brokerType, lit "simple"⟩, ⟨ticketText, toText t⟩, ⟨messageIdText, toText m.id⟩]) callback) hone
    · exact sender_clean h.placed (hfills (fun t _ =>
        [⟨ticketText, toText t⟩, ⟨brokerType, lit "ricochet"⟩]) callback) hone

/-- A new node sends to two URLs. -/
theorem senders_clean_two : Clean (start (lit "a") (lit "80")) [peer, peer]
    ((start (lit "a") (lit "80")).broadcastAsync 0 [peer, peer] (lit "x")) := by
  have hpeer : ∃ u, Url.parse peer = .ok u ∧ u.ip = true := ⟨_, rfl, rfl⟩
  obtain ⟨u, hu, hip⟩ := hpeer
  have hall : ∀ url ∈ [peer, peer], url = peer := by simp
  refine ((@senders_clean_iff (fun _ => []) _ ⟨lit "a", lit "80", [], .nil⟩ 0 (lit "x") none).1 [peer, peer]
    fun url hurl => ⟨u, hall url hurl ▸ hu⟩).mpr ⟨fun url hurl => ?_, ?_, fun i hi => ?_⟩
  · rw [hall url hurl]
    exact (parse_ip hu).mp hip
  · decide
  · have hlt : i < 2 := hi
    unfold inInt start
    dsimp only
    omega

/-- Without a port the URL has no address. The null message of a broadcast without content is listed
and enqueued, and with content the sender writes through it. -/
theorem senders_unclean : (∃ u, Url.parse (lit "p://h/x") = .ok u) ∧
    ¬ Clean (start (lit "a") (lit "80")) [lit "p://h/x"]
      ((start (lit "a") (lit "80")).broadcastAsync 0 [lit "p://h/x"] []) ∧
    ¬ Clean (start (lit "a") (lit "80")) [lit "p://h/x"]
      ((start (lit "a") (lit "80")).sendAsync 0 (lit "p://h/x") (lit "x") none) := by
  have hparse : ∃ u, Url.parse (lit "p://h/x") = .ok u ∧ u.ip = false := ⟨_, rfl, rfl⟩
  obtain ⟨u, hu, hip⟩ := hparse
  have hbad : ∃ url ∈ [lit "p://h/x"], ¬ HasAddress url := by
    refine ⟨_, List.mem_singleton_self _, fun haddress => ?_⟩
    rw [(parse_ip hu).mpr haddress] at hip
    cases hip
  refine ⟨⟨u, hu⟩, fun h => ?_, fun h => ?_⟩
  · have henqueued : ∃ ticket s', (start (lit "a") (lit "80")).broadcastAsync 0 [lit "p://h/x"] [] = .ok (ticket, s') ∧
        s'.jobs = [{ buf := none }] := ⟨_, _, rfl, rfl⟩
    obtain ⟨ticket, s', hok, hjobs⟩ := henqueued
    have hkept := ((h.refused hbad).2 ticket s' hok).1
    rw [hjobs] at hkept
    cases hkept
  · exact (h.refused hbad).1 rfl

end Bifrost
end Jericho.Message
