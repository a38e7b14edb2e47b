import Jericho.Message.Bifrost

/-! What each operation of a node does to its table, its heap and its jobs. -/
namespace Jericho.Message
open StdText Util Server

namespace Bifrost
variable {average : List UInt64 → Bytes}

theorem increment_spec {n k : Int} (h : increment n = .ok k) : k = n + 1 ∧ inInt k := by
  unfold increment at h
  split_ifs at h with hint
  obtain rfl := Except.ok.inj h
  exact ⟨rfl, hint⟩

theorem deref_spec {s : Bifrost} {buf : Option Addr} {m : MessageBuffer} :
    s.deref buf = .ok m ↔ ∃ a, buf = some a ∧ s.heap.cell a = some m := by
  rw [← Heap.read_eq_some]
  unfold deref
  cases s.heap.read buf <;> simp

/-- Releasing an owner changes no more than the messages of its broker. -/
theorem releaseOld_spec (s : Bifrost) (old : Option MessageBroker) :
    ∃ h : Heap MessageBuffer, releaseOld s old = { s with heap := h } ∧ h.next = s.heap.next ∧
      ∀ a, (∀ b ∈ old, some a ∉ b.messages) → h.cell a = s.heap.cell a := by
  cases old with
  | none => exact ⟨s.heap, rfl, rfl, fun _ _ => rfl⟩
  | some b =>
    have hold : releaseOld s (some b) = s.release b := rfl
    rw [hold, release]
    split
    · exact ⟨s.heap, rfl, rfl, fun _ _ => rfl⟩
    · exact ⟨_, rfl, rfl, fun a ha => Heap.free_cell_of_notMem (ha b rfl)⟩

/-- An owner that is not the last one is released without effect. -/
theorem releaseOld_of_owner {s : Bifrost} {b : MessageBroker} (h : b ∈ s.owners) : releaseOld s (some b) = s := by
  have hold : releaseOld s (some b) = s.release b := rfl
  rw [hold, release, if_pos]
  exact List.any_eq_true.mpr ⟨b, h, by simp⟩

theorem mem_owners {s : Bifrost} {b : MessageBroker} :
    b ∈ s.owners ↔ (∃ t, s.brokers.lookup t = some b) ∨ ∃ job ∈ s.jobs, job.lock = some b := by
  unfold owners
  rw [List.mem_append, List.mem_map, List.mem_filterMap]
  refine or_congr_left ⟨?_, ?_⟩
  · rintro ⟨⟨t, b'⟩, hmem, rfl⟩
    exact ⟨t, AList.mem_lookup_iff.mpr hmem⟩
  · rintro ⟨t, hb⟩
    exact ⟨⟨t, b⟩, AList.mem_lookup_iff.mp hb, rfl⟩

theorem erase_spec (s : Bifrost) (t : Int) :
    ∃ h : Heap MessageBuffer, s.erase t = { s with brokers := s.brokers.erase t, heap := h } ∧
      h.next = s.heap.next ∧
      ∀ a, (∀ b, s.brokers.lookup t = some b → some a ∉ b.messages) → h.cell a = s.heap.cell a := by
  obtain ⟨h, heq, hnext, hcell⟩ := releaseOld_spec { s with brokers := s.brokers.erase t } (s.brokers.lookup t)
  exact ⟨h, heq, hnext, hcell⟩

theorem register_spec (s : Bifrost) (t : Int) (broker : MessageBroker) :
    ∃ h : Heap MessageBuffer, s.register t broker =
        { s with
          brokers := s.brokers.insert t broker
          heap := h
          jobs := s.jobs ++ broker.messages.map ({ buf := · }) } ∧
      h.next = s.heap.next ∧
      ∀ a, (∀ b, s.brokers.lookup t = some b → some a ∉ b.messages) → h.cell a = s.heap.cell a := by
  obtain ⟨h, heq, hnext, hcell⟩ :=
    releaseOld_spec { s with brokers := s.brokers.insert t broker } (s.brokers.lookup t)
  refine ⟨h, ?_, hnext, hcell⟩
  unfold register setBroker
  rw [heq]

/-- A sender writes into a new message what is not its own to change. -/
structure Fills (f : MessageBuffer → MessageBuffer) : Prop where
  id : ∀ m, (f m).id = m.id
  url : ∀ m, (f m).url = m.url
  fulfilled : ∀ m, (f m).fulfilled = m.fulfilled
  broker : ∀ m, (f m).broker = m.broker

theorem fills_fill (content : Bytes) (ticket : Int) (headers : MessageBuffer → List Field)
    (callback : Option Callback) :
    Fills fun m => m.fill content ticket (headers m) callback :=
  ⟨fun _ => rfl, fun _ => rfl, fun _ => rfl, fun _ => rfl⟩

theorem buffer_spec {s s' : Bifrost} {now : Int} {url : Bytes} {k : Nat} {buf : Option Addr}
    (h : s.buffer now url (some k) = .ok (buf, s')) :
    (buf = none ∧ s' = s) ∨
    ∃ m : MessageBuffer, buf = some s.heap.next ∧
      s' = { s with messageId := s.messageId + 1, heap := s.heap.alloc m } ∧
      m.id = s.messageId + 1 ∧ inInt m.id ∧ m.url = url ∧ m.fulfilled = 0 ∧ m.broker = some k := by
  obtain ⟨u, hu, h⟩ := bind_eq_ok.mp h
  dsimp only at h
  split at h
  · obtain ⟨id, hid, h⟩ := bind_eq_ok.mp h
    obtain ⟨rfl, hint⟩ := increment_spec hid
    obtain ⟨rfl, rfl⟩ := Prod.mk.inj (Except.ok.inj h)
    exact .inr ⟨_, rfl, rfl, rfl, hint, Url.parse_url hu, rfl, rfl⟩
  · obtain ⟨rfl, rfl⟩ := Prod.mk.inj (Except.ok.inj h)
    exact .inl ⟨rfl, rfl⟩

theorem fill_spec {s s' : Bifrost} {buf : Option Addr} {content : Bytes} {f : MessageBuffer → MessageBuffer}
    (h : s.fill buf content f = .ok s') :
    (content = [] ∧ s' = s) ∨
    content ≠ [] ∧ ∃ a m, buf = some a ∧ s.heap.cell a = some m ∧ s' = { s with heap := s.heap.write buf (f m) } := by
  unfold fill at h
  split_ifs at h with hc
  · exact .inl ⟨hc, (Except.ok.inj h).symm⟩
  · obtain ⟨m, hm, rfl⟩ := map_eq_ok.mp h
    obtain ⟨a, ha, hcell⟩ := deref_spec.mp hm
    exact .inr ⟨hc, a, m, ha, hcell, rfl⟩

/-- A sender makes at most one message for a URL, and one if it has content. -/
theorem message_spec {now : Int} {k : Nat} {content url : Bytes} {f : MessageBuffer → MessageBuffer}
    {s s' : Bifrost} {buf : Option Addr} (h : message now k content f url s = .ok (buf, s')) :
    (buf = none ∧ s' = s ∧ content = []) ∨
    ∃ (m : MessageBuffer) (heap : Heap MessageBuffer), buf = some s.heap.next ∧
      s' = { s with messageId := s.messageId + 1, heap := heap } ∧ heap.next = s.heap.next + 1 ∧
      heap.cell s.heap.next = some (if content = [] then m else f m) ∧
      (∀ a, a ≠ s.heap.next → heap.cell a = s.heap.cell a) ∧
      m.id = s.messageId + 1 ∧ inInt m.id ∧ m.url = url ∧ m.fulfilled = 0 ∧ m.broker = some k := by
  obtain ⟨⟨buf, s₁⟩, hbuf, h⟩ := bind_eq_ok.mp h
  dsimp only at h
  obtain ⟨s₂, hfill, h⟩ := bind_eq_ok.mp h
  obtain ⟨rfl, rfl⟩ := Prod.mk.inj (Except.ok.inj h)
  rcases buffer_spec hbuf with ⟨rfl, rfl⟩ | ⟨m, rfl, rfl, hm⟩
  · rcases fill_spec hfill with ⟨hc, rfl⟩ | ⟨hc, a, m, ha, -⟩
    · exact .inl ⟨rfl, rfl, hc⟩
    · cases ha
  · have halloc : ∀ a, a ≠ s.heap.next → (s.heap.alloc m).cell a = s.heap.cell a :=
      fun a ha => Heap.alloc_cell_of_ne ha m
    rcases fill_spec hfill with ⟨hc, rfl⟩ | ⟨hc, a, m', ha, hcell, rfl⟩
    · exact .inr ⟨m, _, rfl, rfl, rfl, by rw [if_pos hc]; exact Heap.alloc_cell_next _ _, halloc, hm⟩
    · obtain rfl := Option.some.inj ha
      obtain rfl : m = m' := Option.some.inj ((Heap.alloc_cell_next _ _).symm.trans hcell)
      refine .inr ⟨m, _, rfl, rfl, rfl, ?_, fun a ha => ?_, hm⟩
      · rw [if_neg hc]
        exact Heap.write_cell_self (by rw [Heap.alloc_cell_next]; rfl) _
      · dsimp only
        rw [Heap.write_cell_of_ne (by simpa using Ne.symm ha), halloc a ha]

/-- The messages of a sender are made one after the other. -/
theorem prepare_cons {now : Int} {k : Nat} {content url : Bytes} {f : MessageBuffer → MessageBuffer}
    {urls : List Bytes} {s s' : Bifrost} {mq : List (Option Addr)}
    (h : prepare now k content f (url :: urls) s = .ok (mq, s')) :
    ∃ buf s₁ mq', message now k content f url s = .ok (buf, s₁) ∧ prepare now k content f urls s₁ = .ok (mq', s') ∧
      mq = buf :: mq' := by
  obtain ⟨⟨buf, s₁⟩, hmsg, h⟩ := bind_eq_ok.mp h
  dsimp only at h
  obtain ⟨⟨mq', s₂⟩, hrest, h⟩ := bind_eq_ok.mp h
  obtain ⟨rfl, rfl⟩ := Prod.mk.inj (Except.ok.inj h)
  exact ⟨buf, s₁, mq', hmsg, hrest, rfl⟩

/-- The messages of a sender are new and belong to its broker; the rest of the heap stays. -/
theorem prepare_spec {now : Int} {k : Nat} {content : Bytes} {f : MessageBuffer → MessageBuffer} (hf : Fills f)
    {urls : List Bytes} {s s' : Bifrost} {mq : List (Option Addr)}
    (h : prepare now k content f urls s = .ok (mq, s')) :
    ∃ (id : Int) (heap : Heap MessageBuffer), s' = { s with messageId := id, heap := heap } ∧
      s.heap.next ≤ heap.next ∧ (∀ a, a < s.heap.next → heap.cell a = s.heap.cell a) ∧
      ∀ a, some a ∈ mq → s.heap.next ≤ a ∧ ∃ m, heap.cell a = some m ∧ m.broker = some k := by
  induction urls generalizing s mq with
  | nil =>
    obtain ⟨rfl, rfl⟩ := Prod.mk.inj (Except.ok.inj h)
    exact ⟨s.messageId, s.heap, rfl, le_rfl, fun _ _ => rfl, fun a ha => absurd ha List.not_mem_nil⟩
  | cons url urls ih =>
    obtain ⟨buf, s₁, mq', hmsg, hrest, rfl⟩ := prepare_cons h
    obtain ⟨id, heap, heq, hnext, hold, hnew⟩ := ih hrest
    rcases message_spec hmsg with ⟨rfl, rfl, -⟩ | ⟨m, heap₁, rfl, rfl, hnext₁, hcell, hne, -, -, -, -, hbroker⟩
    · refine ⟨id, heap, heq, hnext, hold, fun a ha => hnew a ?_⟩
      simpa using ha
    · dsimp only at hnext hold hnew
      refine ⟨id, heap, heq, by omega, fun a ha => ?_, fun a ha => ?_⟩
      · rw [hold a (by omega), hne a (by omega)]
      · rcases List.mem_cons.mp ha with ha | ha
        · obtain rfl := Option.some.inj ha
          refine ⟨le_rfl, _, by rw [hold _ (by omega), hcell], ?_⟩
          split_ifs
          · exact hbroker
          · exact (hf.broker m).trans hbroker
        · obtain ⟨hge, hm⟩ := hnew a ha
          exact ⟨by omega, hm⟩

theorem post_eq_ok {s s' : Bifrost} {now ticket : Int} {urls : List Bytes} {content : Bytes} {dumped : Bool}
    {f : MessageBuffer → MessageBuffer} (h : s.post now ticket urls content dumped f = .ok s') :
    ∃ mq s₁, prepare now s.nextBroker content f urls { s with nextBroker := s.nextBroker + 1 } = .ok (mq, s₁) ∧
      s' = s₁.register ticket ⟨s.nextBroker, mq⟩ := by
  obtain ⟨⟨mq, s₁⟩, hprep, h⟩ := bind_eq_ok.mp h
  dsimp only at h
  obtain ⟨ms, -, h⟩ := bind_eq_ok.mp h
  obtain rfl := Except.ok.inj h
  exact ⟨mq, s₁, hprep, rfl⟩

/-- What every sender does: a new broker over new messages goes into the table under the ticket,
with a job for each message. -/
theorem post_spec {s s' : Bifrost} {now ticket : Int} {urls : List Bytes} {content : Bytes} {dumped : Bool}
    {f : MessageBuffer → MessageBuffer} (hf : Fills f) (h : s.post now ticket urls content dumped f = .ok s') :
    ∃ (mq : List (Option Addr)) (id : Int) (heap : Heap MessageBuffer),
      s' = { s with
        messageId := id
        heap := heap
        nextBroker := s.nextBroker + 1
        brokers := s.brokers.insert ticket ⟨s.nextBroker, mq⟩
        jobs := s.jobs ++ mq.map ({ buf := · }) } ∧
      s.heap.next ≤ heap.next ∧
      (∀ a, a < s.heap.next → (∀ b, s.brokers.lookup ticket = some b → some a ∉ b.messages) →
        heap.cell a = s.heap.cell a) ∧
      ∀ a, some a ∈ mq → s.heap.next ≤ a ∧ a < heap.next ∧
        ((∀ b, s.brokers.lookup ticket = some b → some a ∉ b.messages) →
          ∃ m, heap.cell a = some m ∧ m.broker = some s.nextBroker) := by
  obtain ⟨mq, s₁, hprep, rfl⟩ := post_eq_ok h
  obtain ⟨id, heap, rfl, hnext, hold, hnew⟩ := prepare_spec hf hprep
  obtain ⟨heap', heq, hnext', hcell⟩ := register_spec
    { s with nextBroker := s.nextBroker + 1, messageId := id, heap := heap } ticket ⟨s.nextBroker, mq⟩
  refine ⟨mq, id, heap', heq, ?_, fun a ha hb => ?_, fun a ha => ⟨(hnew a ha).1, ?_, fun hb => ?_⟩⟩
  · rw [hnext']
    exact hnext
  · rw [hcell a hb]
    exact hold a ha
  · obtain ⟨-, m, hm, -⟩ := hnew a ha
    rw [hnext']
    exact Heap.lt_next (by rw [hm]; rfl)
  · rw [hcell a hb]
    exact (hnew a ha).2

theorem replyFill_broker {s : Bifrost} {req : Request} {content : Bytes} {callback : Option Callback} {type : Bytes}
    {m m' : MessageBuffer} (h : s.replyFill req content callback type m = .ok m') : m'.broker = m.broker := by
  unfold replyFill at h
  split_ifs at h
  · rw [← Except.ok.inj h]
  · obtain ⟨ticket, -, rfl⟩ := map_eq_ok.mp h
    rfl

/-- A reply counts the ticket counter on, and its message belongs to no broker. -/
theorem reply_spec {s s' : Bifrost} {now : Int} {req : Request} {url content : Bytes} {callback : Option Callback}
    {type : Bytes} (h : s.reply now req url content callback type = .ok s') :
    ∃ (m : MessageBuffer) (id : Int),
      s' = { s with
        ticketId := id
        heap := s.heap.alloc m
        fnfs := s.fnfs ++ [s.heap.next]
        jobs := s.jobs ++ [{ buf := some s.heap.next }] } ∧
      m.broker = none ∧ s.ticketId ≤ id := by
  obtain ⟨⟨m, s₁⟩, hbuf, h⟩ := bind_eq_ok.mp h
  dsimp only at h
  obtain ⟨m', hfill, h⟩ := bind_eq_ok.mp h
  obtain rfl := Except.ok.inj h
  obtain ⟨u, -, hbuf⟩ := bind_eq_ok.mp hbuf
  split at hbuf
  · obtain ⟨id, hid, hbuf⟩ := bind_eq_ok.mp hbuf
    obtain ⟨rfl, -⟩ := increment_spec hid
    obtain ⟨rfl, rfl⟩ := Prod.mk.inj (Except.ok.inj hbuf)
    exact ⟨m', _, rfl, replyFill_broker hfill, by dsimp only; omega⟩
  · obtain ⟨rfl, rfl⟩ := Prod.mk.inj (Except.ok.inj hbuf)
    exact ⟨m', _, rfl, replyFill_broker hfill, le_rfl⟩

theorem receive_receive (m : MessageBuffer) (id : Int) (content : Bytes) :
    (m.receive id content).receive id content = m.receive id content := by
  unfold MessageBuffer.receive
  by_cases h : m.fulfilled = 0 ∧ m.id = id
  · rw [if_pos h]
    exact if_neg fun h' => absurd h'.1 Int.one_ne_zero
  · rw [if_neg h, if_neg h]

@[simp] theorem receive_broker (m : MessageBuffer) (id : Int) (content : Bytes) :
    (m.receive id content).broker = m.broker := by
  unfold MessageBuffer.receive
  split_ifs <;> rfl

/-- The loop of a broadcast: every listed message has received the reply, all of them are fulfilled
if it says so, and the responses are those of the fulfilled ones. -/
theorem collect_spec {id : Int} {content : Bytes} {messages : List (Option Addr)} {s s' : Bifrost} {all : Bool}
    {responses : List (Bytes × Bytes)} (h : collect id content messages s = .ok (s', all, responses)) :
    ∃ heap : Heap MessageBuffer, s' = { s with heap := heap } ∧ heap.next = s.heap.next ∧
      (∀ a, heap.cell a = if some a ∈ messages then (s.heap.cell a).map (·.receive id content) else s.heap.cell a) ∧
      (all = true ↔ ∀ p ∈ messages, ∀ m, heap.read p = some m → m.fulfilled ≠ 0) ∧
      responses = messages.filterMap fun p => (heap.read p).bind fun m =>
        if m.fulfilled = 0 then none else some (m.url, m.received) := by
  induction messages generalizing s s' all responses with
  | nil =>
    obtain ⟨rfl, hout⟩ := Prod.mk.inj (Except.ok.inj h)
    obtain ⟨rfl, rfl⟩ := Prod.mk.inj hout
    exact ⟨s.heap, rfl, rfl, fun a => (if_neg List.not_mem_nil).symm, by simp, rfl⟩
  | cons buf rest ih =>
    obtain ⟨m, hm, h⟩ := bind_eq_ok.mp h
    obtain ⟨a, rfl, hcell⟩ := deref_spec.mp hm
    obtain ⟨⟨s₁, all₁, responses₁⟩, hrest, h⟩ := bind_eq_ok.mp h
    obtain ⟨heap, rfl, hnext, hheap, hall, hres⟩ := ih hrest
    have hwrite : ∀ c, (s.heap.write (some a) (m.receive id content)).cell c =
        if c = a then some (m.receive id content) else s.heap.cell c := by
      intro c
      by_cases hc : c = a
      · rw [hc, if_pos rfl]
        exact Heap.write_cell_self (by rw [hcell]; rfl) _
      · rw [if_neg hc]
        exact Heap.write_cell_of_ne (by simpa using Ne.symm hc) _
    have hfinal : heap.cell a = some (m.receive id content) := by
      rw [hheap a]
      dsimp only
      rw [hwrite a, if_pos rfl]
      split_ifs
      · rw [Option.map_some, receive_receive]
      · rfl
    have hcells : ∀ c, heap.cell c =
        if some c ∈ some a :: rest then (s.heap.cell c).map (·.receive id content) else s.heap.cell c := by
      intro c
      by_cases hc : c = a
      · rw [hc, hfinal, if_pos List.mem_cons_self, hcell]
        rfl
      · rw [hheap c]
        dsimp only
        rw [hwrite c, if_neg hc]
        simp [hc]
    have hread : heap.read (some a) = some (m.receive id content) := hfinal
    have hsplit : (∀ p ∈ some a :: rest, ∀ m, heap.read p = some m → m.fulfilled ≠ 0) ↔
        (m.receive id content).fulfilled ≠ 0 ∧ all₁ = true := by
      rw [List.forall_mem_cons, hall, hread]
      simp
    dsimp only at h
    split_ifs at h with hzero
    all_goals
      obtain ⟨rfl, hout⟩ := Prod.mk.inj (Except.ok.inj h)
      obtain ⟨rfl, rfl⟩ := Prod.mk.inj hout
    · exact ⟨heap, rfl, hnext, hcells, by rw [hsplit]; simp [hzero], by
        rw [List.filterMap_cons, hread]; simp [hzero, hres]⟩
    · exact ⟨heap, rfl, hnext, hcells, by rw [hsplit]; simp [hzero], by
        rw [List.filterMap_cons, hread]; simp [hzero, hres]⟩

theorem dump_ok {s : Bifrost} {messages : List (Option Addr)} (h : ∀ p ∈ messages, ∃ m, s.deref p = .ok m) :
    ∃ ms, s.dump messages = .ok ms := by
  unfold dump
  induction messages with
  | nil => exact ⟨[], rfl⟩
  | cons p messages ih =>
    obtain ⟨hp, hrest⟩ := List.forall_mem_cons.mp h
    obtain ⟨m, hm⟩ := hp
    obtain ⟨ms, hms⟩ := ih hrest
    refine ⟨m :: ms, ?_⟩
    rw [List.mapM_cons, hm, hms]
    rfl

theorem collect_ok {messages : List (Option Addr)} (id : Int) (content : Bytes) {s : Bifrost}
    (h : ∀ p ∈ messages, ∃ m, s.deref p = .ok m) : ∃ x, collect id content messages s = .ok x := by
  induction messages generalizing s with
  | nil => exact ⟨_, rfl⟩
  | cons p messages ih =>
    obtain ⟨⟨m, hm⟩, hrest⟩ := List.forall_mem_cons.mp h
    have hlive : ∀ q ∈ messages, ∃ m',
        deref { s with heap := s.heap.write p (m.receive id content) } q = .ok m' := by
      intro q hq
      obtain ⟨m', hm'⟩ := hrest q hq
      obtain ⟨a, rfl, hcell⟩ := deref_spec.mp hm'
      have hsome := Heap.isSome_write s.heap p (m.receive id content) a
      rw [hcell] at hsome
      obtain ⟨m'', hm''⟩ := Option.isSome_iff_exists.mp hsome
      exact ⟨m'', deref_spec.mpr ⟨a, rfl, hm''⟩⟩
    obtain ⟨⟨s', all, responses⟩, hx⟩ := ih hlive
    unfold collect
    rw [hm]
    dsimp only [bind, Except.bind]
    rw [hx]
    dsimp only
    split_ifs <;> exact ⟨_, rfl⟩

/-- The ways a call of `fulfill` ends. -/
inductive FulfillCase (s : Bifrost) (req : Request) (t : Int) : Fulfilled → Bifrost → Prop
  | unbound (hb : s.brokers.lookup t = none) : FulfillCase s req t { status := 0, request := req } s
  | simple {b : MessageBroker} (hb : s.brokers.lookup t = some b) (hc : req.callback = none)
      (ht : req.header brokerType = lit "simple") :
      FulfillCase s req t
        { status := 1, request := req, response := some req.content, sent := some (cstr req.content) } (s.erase t)
  | waiting {b : MessageBroker} {id : Int} {s₁ : Bifrost} {responses : List (Bytes × Bytes)}
      (hb : s.brokers.lookup t = some b) (hc : req.callback = none) (ht : req.header brokerType = lit "broadcast")
      (hid : stoi (req.header messageIdText) = .ok id)
      (hcollect : collect id req.content b.messages s = .ok (s₁, false, responses)) :
      FulfillCase s req t { status := 0, request := req } s₁
  | barrier {b : MessageBroker} {id : Int} {s₁ : Bifrost} {responses : List (Bytes × Bytes)}
      (hb : s.brokers.lookup t = some b) (hc : req.callback = none) (ht : req.header brokerType = lit "broadcast")
      (hid : stoi (req.header messageIdText) = .ok id)
      (hcollect : collect id req.content b.messages s = .ok (s₁, true, responses)) :
      FulfillCase s req t { status := 1, request := req, response := some (batchSerialize responses) } (s₁.erase t)
  | resolved {b : MessageBroker} {callback : Callback} (hb : s.brokers.lookup t = some b)
      (hc : req.callback = some callback) (hr : callback.resolved = true) :
      FulfillCase s req t { status := 2, request := req, deleted := true } (s.erase t)
  | ricochet {b : MessageBroker} {callback : Callback} {req' : Request} {latencies : Int → List UInt64}
      (hb : s.brokers.lookup t = some b) (hc : req.callback = some callback) (hr : callback.resolved = false)
      (ht : req.header brokerType = lit "ricochet") :
      FulfillCase s req t { status := 2, request := req' } { s with latencies := latencies }
  | ignored {b : MessageBroker} (hb : s.brokers.lookup t = some b)
      (hi : req.callback = none →
        req.header brokerType ≠ lit "simple" ∧ req.header brokerType ≠ lit "broadcast") :
      FulfillCase s req t { status := 0, request := req } s

theorem fulfillBroadcast_spec {s s' : Bifrost} {req : Request} {t : Int} {b : MessageBroker} {out : Fulfilled}
    (hb : s.brokers.lookup t = some b) (hc : req.callback = none) (ht : req.header brokerType = lit "broadcast")
    (h : s.fulfillBroadcast req t b = .ok (out, s')) : FulfillCase s req t out s' := by
  obtain ⟨id, hid, h⟩ := bind_eq_ok.mp h
  obtain ⟨⟨s₁, all, responses⟩, hcollect, h⟩ := bind_eq_ok.mp h
  cases all with
  | true =>
    obtain ⟨rfl, rfl⟩ := Prod.mk.inj (Except.ok.inj h)
    exact .barrier hb hc ht hid hcollect
  | false =>
    obtain ⟨rfl, rfl⟩ := Prod.mk.inj (Except.ok.inj h)
    exact .waiting hb hc ht hid hcollect

theorem fulfillRicochet_spec {s s' : Bifrost} {req : Request} {t : Int} {callback : Callback}
    {messages : List MessageBuffer} {out : Fulfilled}
    (h : fulfillRicochet average s req t callback messages = .ok (out, s')) :
    ∃ req' latencies, out = { status := 2, request := req' } ∧ s' = { s with latencies := latencies } := by
  cases messages with
  | nil => cases h
  | cons first rest =>
    unfold fulfillRicochet at h
    dsimp only at h
    split_ifs at h
    · obtain ⟨callback', -, h⟩ := bind_eq_ok.mp h
      obtain ⟨rfl, rfl⟩ := Prod.mk.inj (Except.ok.inj h)
      exact ⟨_, _, rfl, rfl⟩
    all_goals
      obtain ⟨rfl, rfl⟩ := Prod.mk.inj (Except.ok.inj h)
      exact ⟨_, _, rfl, rfl⟩

/-- Which case it is, is decided by the ticket, the callback and the type of the request. -/
theorem fulfill_spec {s s' : Bifrost} {req : Request} {out : Fulfilled} (h : fulfill average s req = .ok (out, s')) :
    ∃ t, stoi (req.header ticketText) = .ok t ∧ FulfillCase s req t out s' := by
  obtain ⟨t, ht, h⟩ := bind_eq_ok.mp h
  refine ⟨t, ht, ?_⟩
  dsimp only at h
  cases hb : s.brokers.lookup t with
  | none =>
    rw [hb] at h
    obtain ⟨rfl, rfl⟩ := Prod.mk.inj (Except.ok.inj h)
    exact .unbound hb
  | some b =>
    rw [hb] at h
    obtain ⟨messages, -, h⟩ := bind_eq_ok.mp h
    cases hc : req.callback with
    | none =>
      rw [hc] at h
      dsimp only at h
      split_ifs at h with hsimple hbroadcast
      · obtain ⟨rfl, rfl⟩ := Prod.mk.inj (Except.ok.inj h)
        exact .simple hb hc hsimple
      · exact fulfillBroadcast_spec hb hc hbroadcast h
      · obtain ⟨rfl, rfl⟩ := Prod.mk.inj (Except.ok.inj h)
        exact .ignored hb fun _ => ⟨hsimple, hbroadcast⟩
    | some callback =>
      rw [hc] at h
      dsimp only at h
      split_ifs at h with hr hricochet
      · obtain ⟨rfl, rfl⟩ := Prod.mk.inj (Except.ok.inj h)
        exact .resolved hb hc hr
      · obtain ⟨req', latencies, rfl, rfl⟩ := fulfillRicochet_spec h
        exact .ricochet hb hc (by simpa using hr) hricochet
      · obtain ⟨rfl, rfl⟩ := Prod.mk.inj (Except.ok.inj h)
        exact .ignored hb fun hnone => nomatch hc.symm.trans hnone

/-- The server loop adds its own record of the request. -/
theorem job_spec {s s' : Bifrost} {req : Request} {out : Fulfilled} (h : job average s req = .ok (out, s')) :
    ∃ t s₁ n, stoi (req.header ticketText) = .ok t ∧ FulfillCase s req t out s₁ ∧
      s' = { s₁ with
        requests := s₁.requests ++ [{ callback := req.callback.isSome, released := n, kept := out.status = 2 }] } ∧
      n = (if out.deleted then 1 else 0) + if out.status = 1 ∧ req.callback.isSome then 1 else 0 := by
  obtain ⟨⟨out, s₁⟩, hful, h⟩ := bind_eq_ok.mp h
  obtain ⟨rfl, rfl⟩ := Prod.mk.inj (Except.ok.inj h)
  obtain ⟨t, ht, hcase⟩ := fulfill_spec hful
  exact ⟨t, s₁, _, ht, hcase, rfl, rfl⟩

theorem cleanseBroker_spec {now : Int} {s s' : Bifrost} {entry : Σ _ : Int, MessageBroker}
    (h : cleanseBroker now s entry = .ok s') :
    (s.unexpired now entry.2.messages = .ok [] ∧ s' = s.erase entry.1) ∨ s' = s := by
  obtain ⟨left, hleft, h⟩ := bind_eq_ok.mp h
  have h := Except.ok.inj h
  by_cases hnil : left = []
  · rw [if_pos hnil] at h
    exact .inl ⟨by rw [hleft, hnil], h.symm⟩
  · rw [if_neg hnil] at h
    exact .inr h.symm

theorem cleanseFnf_spec {s s' : Bifrost} {a : Addr} (h : cleanseFnf s a = .ok s') :
    ∃ m, s.heap.cell a = some m ∧
      (m.fulfilled ≠ 0 ∧ s' = { s with heap := s.heap.free [some a], fnfs := s.fnfs.erase a } ∨ s' = s) := by
  obtain ⟨m, hm, h⟩ := bind_eq_ok.mp h
  obtain ⟨c, hc, hcell⟩ := deref_spec.mp hm
  obtain rfl := Option.some.inj hc
  have h := Except.ok.inj h
  by_cases hful : m.fulfilled ≠ 0
  · rw [if_pos hful] at h
    exact ⟨m, hcell, .inl ⟨hful, h.symm⟩⟩
  · rw [if_neg hful] at h
    exact ⟨m, hcell, .inr h.symm⟩

/-- The steps of a fetch job. -/
inductive WorkCase (s : Bifrost) (i : Nat) (got : FetchResult) : Bifrost → Prop
  | idle : WorkCase s i got s
  | publish {job : Job} {a : Addr} {m : MessageBuffer} (hj : s.jobs[i]? = some job) (hp : job.phase = .queued)
      (hbuf : job.buf = some a) (hm : s.heap.cell a = some m) (hport : m.port.all isdigit = true) :
      WorkCase s i got (s.setJob i { job with phase := .publishing, lock := s.lockBroker m })
  | refuse {job : Job} {a : Addr} {m : MessageBuffer} (hj : s.jobs[i]? = some job) (hp : job.phase = .queued)
      (hbuf : job.buf = some a) (hm : s.heap.cell a = some m) (hport : m.port.all isdigit = false) :
      WorkCase s i got (s.complete i job m { result := lit "ERROR" })
  | complete {job : Job} {a : Addr} {m : MessageBuffer} (hj : s.jobs[i]? = some job) (hp : job.phase = .fetching)
      (hbuf : job.buf = some a) (hm : s.heap.cell a = some m) : WorkCase s i got (s.complete i job m got)
  | unlock {job : Job} {phase : JobPhase} (hj : s.jobs[i]? = some job)
      (hp : job.phase = .publishing ∧ phase = .fetching ∨ job.phase = .marking ∧ phase = .closing) :
      WorkCase s i got (s.unlock i job phase)
  | close {job : Job} (hj : s.jobs[i]? = some job) (hp : job.phase = .closing) :
      WorkCase s i got (s.setJob i { job with phase := .finished })

theorem work_spec {s s' : Bifrost} {i : Nat} {got : FetchResult} (h : s.work i got = .ok s') : WorkCase s i got s' := by
  unfold work at h
  cases hj : s.jobs[i]? with
  | none =>
    rw [hj] at h
    obtain rfl := Except.ok.inj h
    exact .idle
  | some job =>
    rw [hj] at h
    dsimp only at h
    cases hp : job.phase with
    | queued =>
      rw [hp] at h
      obtain ⟨m, hm, h⟩ := bind_eq_ok.mp h
      obtain ⟨a, hbuf, hcell⟩ := deref_spec.mp hm
      split at h
      · obtain ⟨port, -, h⟩ := bind_eq_ok.mp h
        obtain rfl := Except.ok.inj h
        exact .publish hj hp hbuf hcell ‹_›
      · obtain rfl := Except.ok.inj h
        exact .refuse hj hp hbuf hcell (Bool.eq_false_iff.mpr ‹¬ _›)
    | publishing =>
      rw [hp] at h
      obtain rfl := Except.ok.inj h
      exact .unlock hj (.inl ⟨hp, rfl⟩)
    | fetching =>
      rw [hp] at h
      obtain ⟨m, hm, h⟩ := bind_eq_ok.mp h
      obtain ⟨a, hbuf, hcell⟩ := deref_spec.mp hm
      obtain rfl := Except.ok.inj h
      exact .complete hj hp hbuf hcell
    | marking =>
      rw [hp] at h
      obtain rfl := Except.ok.inj h
      exact .unlock hj (.inr ⟨hp, rfl⟩)
    | closing =>
      rw [hp] at h
      obtain ⟨m, -, h⟩ := bind_eq_ok.mp h
      obtain rfl := Except.ok.inj h
      exact .close hj hp
    | finished =>
      rw [hp] at h
      obtain rfl := Except.ok.inj h
      exact .idle

end Bifrost
end Jericho.Message
