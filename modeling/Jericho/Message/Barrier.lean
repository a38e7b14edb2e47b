import Jericho.Message.Tickets

/-! The barrier of a broadcast: it resolves at the reply that completes the set of the nodes that
replied, in every run whose fetches finish late. -/
namespace Jericho.Message
open StdText Util Server Runs

/-- A message of a broadcast: its place in the heap, its number, and the node it goes to. -/
structure Recipient where
  addr : Addr
  id : Int
  url : Bytes

/-- The replies among some labels: the number of the message and the content. -/
def replies (ls : List (Step × Result)) : List (Int × Bytes) :=
  ls.filterMap fun
    | (.fulfill req, _) => (stoi (req.header messageIdText)).toOption.map (·, req.content)
    | _ => none

/-- Every node has replied. -/
def Complete (rs : List Recipient) (got : List (Int × Bytes)) : Prop := ∀ r ∈ rs, (got.lookup r.id).isSome

instance (rs : List Recipient) (got : List (Int × Bytes)) : Decidable (Complete rs got) :=
  inferInstanceAs (Decidable (∀ r ∈ rs, (got.lookup r.id).isSome))

/-- What a resolved broadcast answers: every node with its first reply. -/
def firstReplies (rs : List Recipient) (got : List (Int × Bytes)) : List (Bytes × Bytes) :=
  rs.map fun r => (r.url, (got.lookup r.id).getD [])

/-- A reply of a node to a broadcast. -/
structure Answers (t : Int) (req : Request) : Prop where
  carries : Carries t req
  callback : req.callback = none
  type : req.header brokerType = lit "broadcast"

/-- The steps that work on a pending broadcast: replies, and fetch jobs. -/
def Step.Serves (t : Int) : Step → Prop
  | .fulfill req => Answers t req
  | .work _ _ => True
  | _ => False

/-- After some replies the message of a recipient is fulfilled if its node is among them, and has
its first reply. -/
def Recipient.Holds (r : Recipient) (got : List (Int × Bytes)) (heap : Heap MessageBuffer) : Prop :=
  ∃ m, heap.cell r.addr = some m ∧ m.id = r.id ∧ m.url = r.url ∧
    (m.fulfilled = 0 ↔ got.lookup r.id = none) ∧ ∀ text, got.lookup r.id = some text → m.received = text

theorem Complete.append {rs : List Recipient} {got : List (Int × Bytes)} (h : Complete rs got)
    (more : List (Int × Bytes)) : Complete rs (got ++ more) := by
  intro r hr
  obtain ⟨text, htext⟩ := Option.isSome_iff_exists.mp (h r hr)
  rw [List.lookup_append, htext]
  rfl

theorem Recipient.Holds.receive {r : Recipient} {got : List (Int × Bytes)} {heap heap' : Heap MessageBuffer} {id : Int}
    {content : Bytes} (h : r.Holds got heap)
    (hcell : heap'.cell r.addr = (heap.cell r.addr).map (·.receive id content)) :
    r.Holds (got ++ [(id, content)]) heap' := by
  obtain ⟨m, hm, hid, hurl, hful, hrec⟩ := h
  rw [hm] at hcell
  refine ⟨m.receive id content, hcell, ?_⟩
  rw [List.lookup_append]
  unfold MessageBuffer.receive
  by_cases hzero : m.fulfilled = 0
  · rw [hful.mp hzero, Option.none_or]
    by_cases heq : r.id = id
    · rw [if_pos ⟨hzero, hid.trans heq⟩, heq, List.lookup_cons_self]
      exact ⟨hid.trans heq, hurl, by simp, fun text htext => Option.some.inj htext⟩
    · have hother : [(id, content)].lookup r.id = none := List.lookup_eq_none_iff.mpr (by simpa using heq)
      rw [if_neg fun hboth => heq (hid.symm.trans hboth.2), hother]
      exact ⟨hid, hurl, by simp [hzero], fun text htext => (nomatch htext)⟩
  · obtain ⟨text, htext⟩ := Option.ne_none_iff_exists'.mp (mt hful.mpr hzero)
    rw [if_neg fun hboth => hzero hboth.1]
    rw [htext] at hrec ⊢
    exact ⟨hid, hurl, by simp [hzero], hrec⟩

/-- What a fetch writes into another message, or again into a fulfilled one, changes nothing here. -/
theorem Recipient.Holds.fetched {r : Recipient} {got : List (Int × Bytes)} {heap : Heap MessageBuffer} {a : Addr}
    {m' : MessageBuffer} {text : Bytes} {n : Int} (h : r.Holds got heap) (hm' : heap.cell a = some m') (hn : n ≠ 0)
    (latency : UInt64) (hlate : a = r.addr → m'.fulfilled ≠ 0 ∧ m'.received = text) :
    r.Holds got (heap.write (some a) { m' with fulfilled := n, received := text, latency := latency }) := by
  obtain ⟨m, hm, hid, hurl, hful, hrec⟩ := h
  by_cases ha : a = r.addr
  · obtain ⟨hne, htext⟩ := hlate ha
    obtain rfl := ha
    obtain rfl := Option.some.inj (hm.symm.trans hm')
    refine ⟨_, Heap.write_cell_self (by rw [hm]; rfl) _, hid, hurl, ?_, fun c hc => htext.symm.trans (hrec c hc)⟩
    exact iff_of_false hn (mt hful.mpr hne)
  · exact ⟨m, (Heap.write_cell_of_ne (by simpa using ha) _).trans hm, hid, hurl, hful, hrec⟩

/-- The flag that the loop of a broadcast computes says whether every node has replied. -/
theorem fulfilled_iff_complete {rs : List Recipient} {got : List (Int × Bytes)} {heap : Heap MessageBuffer}
    (h : ∀ r ∈ rs, r.Holds got heap) :
    (∀ p ∈ rs.map fun r => some r.addr, ∀ m, heap.read p = some m → m.fulfilled ≠ 0) ↔ Complete rs got := by
  rw [List.forall_mem_map]
  refine forall₂_congr fun r hr => ?_
  obtain ⟨m, hm, -, -, hful, -⟩ := h r hr
  have hread : heap.read (some r.addr) = some m := hm
  rw [hread, Option.isSome_iff_ne_none]
  constructor
  · intro hall
    exact mt hful.mpr (hall m rfl)
  · intro hsome m' hm'
    obtain rfl := Option.some.inj hm'
    exact mt hful.mp hsome

theorem responses_eq {rs : List Recipient} {got : List (Int × Bytes)} {heap : Heap MessageBuffer}
    (h : ∀ r ∈ rs, r.Holds got heap) (hall : Complete rs got) :
    ((rs.map fun r => some r.addr).filterMap fun p => (heap.read p).bind fun m =>
      if m.fulfilled = 0 then none else some (m.url, m.received)) = firstReplies rs got := by
  rw [List.filterMap_map, firstReplies, ← List.filterMap_eq_map]
  refine List.filterMap_congr fun r hr => ?_
  obtain ⟨m, hm, -, hurl, hful, hrec⟩ := h r hr
  obtain ⟨text, htext⟩ := Option.isSome_iff_exists.mp (hall r hr)
  have hread : heap.read (some r.addr) = some m := hm
  have hne : m.fulfilled ≠ 0 := mt hful.mp (by rw [htext]; exact Option.some_ne_none _)
  dsimp only [Function.comp]
  rw [hread, Option.bind_some, if_neg hne, hurl, hrec text htext, htext]
  rfl

/-- A message of a broadcast as it was sent: with the content, and with headers that name the ticket,
the type and the message. -/
def Recipient.Sent (r : Recipient) (t : Int) (content : Bytes) (heap : Heap MessageBuffer) : Prop :=
  ∃ m, heap.cell r.addr = some m ∧ m.url = r.url ∧ m.sent = content ∧
    stoi (m.headers.get ticketText) = .ok t ∧ m.headers.get brokerType = lit "broadcast" ∧
    stoi (m.headers.get messageIdText) = .ok r.id

namespace Bifrost
variable {average : List UInt64 → Bytes}

/-- The message whose fetch a step finishes, and the text it writes. -/
def finishes (s : Bifrost) (i : Nat) (got : FetchResult) : Option (Addr × Bytes) := do
  let job ← s.jobs[i]?
  let a ← job.buf
  let m ← s.heap.cell a
  match job.phase with
  | .queued => if m.port.all isdigit then none else some (a, lit "ERROR")
  | .fetching => some (a, got.result)
  | _ => none

/-- A fetch finishes late: the message it writes is fulfilled, with the text it writes. -/
def Late (s : Bifrost) (t : Int) : Step → Prop
  | .work i got => ∀ b a text, s.brokers.lookup t = some b → some a ∈ b.messages → s.finishes i got = some (a, text) →
      ∃ m, s.heap.cell a = some m ∧ m.fulfilled ≠ 0 ∧ m.received = text
  | _ => True

/-- A broadcast that some nodes have not replied to. -/
structure Waiting (t : Int) (b : MessageBroker) (rs : List Recipient) (got : List (Int × Bytes)) (s : Bifrost) :
    Prop where
  bound : s.brokers.lookup t = some b
  messages : b.messages = rs.map fun r => some r.addr
  others : ∀ o ∈ s.owners, o ≠ b → ∀ r ∈ rs, some r.addr ∉ o.messages
  holds : ∀ r ∈ rs, r.Holds got s.heap
  pending : ¬ Complete rs got

/-- A reply is counted. Either some node is still missing, or the ticket is resolved with all first
replies. -/
theorem Waiting.reply {s s' : Bifrost} {t : Int} {b : MessageBroker} {rs : List Recipient}
    {got : List (Int × Bytes)} {req : Request} {out : Fulfilled} (h : Waiting t b rs got s) (ha : Answers t req)
    (hstep : StepCase s (.fulfill req) (.fulfilled out) s') :
    ∃ id, stoi (req.header messageIdText) = .ok id ∧
      (out.status = 0 ∧ Waiting t b rs (got ++ [(id, req.content)]) s' ∨
        out.status = 1 ∧ Complete rs (got ++ [(id, req.content)]) ∧ s'.brokers.lookup t = none ∧
          out.response = some (batchSerialize (firstReplies rs (got ++ [(id, req.content)])))) := by
  cases hstep with
  | @fulfill req t' out s₁ n ht hcase hn =>
    obtain rfl := Except.ok.inj (ha.carries.symm.trans ht)
    have hreceived : ∀ {id content all responses s₁},
        collect id content b.messages s = .ok (s₁, all, responses) →
        ∃ heap, s₁ = { s with heap := heap } ∧ (∀ r ∈ rs, r.Holds (got ++ [(id, content)]) heap) ∧
          (all = true ↔ Complete rs (got ++ [(id, content)])) ∧
          (all = true → responses = firstReplies rs (got ++ [(id, content)])) := by
      intro id content all responses s₁ hcollect
      obtain ⟨heap, rfl, -, hcell, hall, hres⟩ := collect_spec hcollect
      have hholds : ∀ r ∈ rs, r.Holds (got ++ [(id, content)]) heap := by
        intro r hr
        refine (h.holds r hr).receive ?_
        rw [hcell r.addr, if_pos]
        rw [h.messages]
        exact List.mem_map_of_mem hr
      rw [h.messages, fulfilled_iff_complete hholds] at hall
      rw [h.messages] at hres
      exact ⟨heap, rfl, hholds, hall, fun htrue => hres.trans (responses_eq hholds (hall.mp htrue))⟩
    cases hcase with
    | unbound hb => exact absurd (h.bound.symm.trans hb) (Option.some_ne_none _)
    | simple hb hc htype => exact absurd (ha.type.symm.trans htype) (by decide)
    | waiting hb hc htype hid hcollect =>
      obtain rfl := Option.some.inj (h.bound.symm.trans hb)
      obtain ⟨heap, rfl, hholds, hall, -⟩ := hreceived hcollect
      exact ⟨_, hid, .inl ⟨rfl, h.bound, h.messages, h.others, hholds, fun hc => Bool.false_ne_true (hall.mpr hc)⟩⟩
    | barrier hb hc htype hid hcollect =>
      obtain rfl := Option.some.inj (h.bound.symm.trans hb)
      obtain ⟨heap, rfl, -, hall, hres⟩ := hreceived hcollect
      exact ⟨_, hid, .inr ⟨rfl, hall.mp rfl, lookup_erase_self _ _, by rw [hres rfl]⟩⟩
    | resolved hb hc hr => exact absurd (ha.callback.symm.trans hc) (Option.some_ne_none _).symm
    | ricochet hb hc hr htype => exact absurd (ha.callback.symm.trans hc) (Option.some_ne_none _).symm
    | ignored hb hi => exact absurd ha.type (hi ha.callback).2

/-- A late fetch leaves what the recipients hold, and any other step of a job does not reach it. -/
theorem Waiting.work {s s' : Bifrost} {t : Int} {b : MessageBroker} {rs : List Recipient}
    {got : List (Int × Bytes)} {i : Nat} {fetched : FetchResult} (h : Waiting t b rs got s)
    (hlate : Late s t (.work i fetched)) (hcase : WorkCase s i fetched s') : Waiting t b rs got s' := by
  obtain ⟨-, -, -, hbrokers, howners⟩ := work_table hcase
  have hbound : s'.brokers.lookup t = some b := by rw [hbrokers, h.bound]
  have hothers : ∀ o ∈ s'.owners, o ≠ b → ∀ r ∈ rs, some r.addr ∉ o.messages := fun o ho => h.others o (howners o ho)
  refine ⟨hbound, h.messages, hothers, fun r hr => ?_, h.pending⟩
  have hlisted : some r.addr ∈ b.messages := by
    rw [h.messages]
    exact List.mem_map_of_mem hr
  have hwritten : ∀ {a m text}, s.heap.cell a = some m → s.finishes i fetched = some (a, text) → a = r.addr →
      m.fulfilled ≠ 0 ∧ m.received = text := by
    intro a m text hm hfinishes ha
    obtain ⟨m', hm', hne, htext⟩ := hlate b a text h.bound (ha ▸ hlisted) hfinishes
    obtain rfl := Option.some.inj (hm.symm.trans hm')
    exact ⟨hne, htext⟩
  cases hcase with
  | idle => exact h.holds r hr
  | publish => exact h.holds r hr
  | @refuse job a m hj hp hbuf hm hport =>
    have hfinishes : s.finishes i fetched = some (a, lit "ERROR") := by
      simp only [finishes, hj, hbuf, hm, hp, hport, Option.bind_eq_bind, Option.bind_some, Bool.false_eq_true, if_false]
    unfold complete
    rw [hbuf]
    exact (h.holds r hr).fetched hm (by decide) _ (hwritten hm hfinishes)
  | @complete job a m hj hp hbuf hm =>
    have hfinishes : s.finishes i fetched = some (a, fetched.result) := by
      simp only [finishes, hj, hbuf, hm, hp, Option.bind_eq_bind, Option.bind_some]
    unfold complete
    rw [hbuf]
    exact (h.holds r hr).fetched hm (by split_ifs <;> decide) _ (hwritten hm hfinishes)
  | @unlock job phase hj hp =>
    unfold unlock
    by_cases hlock : job.lock = some b
    · have howner : b ∈ (s.setJob i { job with phase := phase, lock := none }).owners :=
        mem_owners.mpr (.inl ⟨t, h.bound⟩)
      rw [hlock, releaseOld_of_owner howner]
      exact h.holds r hr
    · obtain ⟨heap, heq, -, hcell⟩ := releaseOld_spec (s.setJob i { job with phase := phase, lock := none }) job.lock
      obtain ⟨m, hm, hrest⟩ := h.holds r hr
      rw [heq]
      refine ⟨m, (hcell r.addr fun o ho => ?_).trans hm, hrest⟩
      have howner : o ∈ s.owners := mem_owners.mpr (.inr ⟨job, List.mem_of_getElem? hj, ho⟩)
      exact h.others o howner (fun heq => hlock (heq ▸ ho)) r hr
  | close => exact h.holds r hr

/-- A reply to a ticket is answered, as long as the messages of its broker live. -/
theorem answered {s : Bifrost} {t id : Int} {req : Request} (ha : Answers t req)
    (hid : stoi (req.header messageIdText) = .ok id)
    (hlive : ∀ b, s.brokers.lookup t = some b → ∀ p ∈ b.messages, ∃ m, s.deref p = .ok m) :
    ∃ out s', Move average s (.fulfill req, .fulfilled out) s' := by
  have hful : ∃ x, fulfill average s req = .ok x := by
    have hcarries : stoi (req.header ticketText) = .ok t := ha.carries
    have hsimple : lit "broadcast" ≠ lit "simple" := by decide
    unfold fulfill
    rw [hcarries]
    dsimp only [bind, Except.bind]
    cases hb : s.brokers.lookup t with
    | none => exact ⟨_, rfl⟩
    | some b =>
      obtain ⟨ms, hms⟩ := dump_ok (hlive b hb)
      obtain ⟨⟨s₁, all, responses⟩, hcollect⟩ := collect_ok id req.content (hlive b hb)
      dsimp only
      rw [hms, ha.callback]
      dsimp only
      rw [ha.type, if_neg hsimple, if_pos rfl]
      unfold fulfillBroadcast
      rw [hid]
      dsimp only [bind, Except.bind]
      rw [hcollect]
      dsimp only
      split_ifs <;> exact ⟨_, rfl⟩
  obtain ⟨⟨out, s₁⟩, hx⟩ := hful
  have hjob : ∃ s', job average s req = .ok (out, s') := by
    unfold job
    rw [hx]
    exact ⟨_, rfl⟩
  obtain ⟨s', hs'⟩ := hjob
  refine ⟨out, s', ?_⟩
  unfold Move step
  dsimp only
  rw [hs']
  rfl

/-- The messages that some broker lists were allocated. -/
def Placed (s : Bifrost) : Prop := ∀ o ∈ s.owners, ∀ a, some a ∈ o.messages → a < s.heap.next

theorem Shrinks.placed {s s' : Bifrost} (h : Shrinks s s') (hs : Placed s) : Placed s' := by
  intro o ho a ha
  rw [h.next]
  exact hs o (h.owners ho) a ha

/-- After a sender the owners are those of before and the new broker. -/
theorem post_owners {s s' : Bifrost} {now t : Int} {urls : List Bytes} {content : Bytes} {dumped : Bool}
    {f : MessageBuffer → MessageBuffer} (hf : Fills f) (h : s.post now t urls content dumped f = .ok s') :
    ∃ b, s'.brokers.lookup t = some b ∧ ∀ o ∈ s'.owners, o ∈ s.owners ∨ o = b := by
  obtain ⟨mq, id, heap, rfl, -⟩ := post_spec hf h
  refine ⟨⟨s.nextBroker, mq⟩, AList.lookup_insert _, fun o ho => ?_⟩
  rcases mem_owners.mp ho with ⟨t', ht'⟩ | ⟨job, hjob, hlock⟩
  · by_cases heq : t' = t
    · rw [heq] at ht'
      exact .inr (Option.some.inj (ht'.symm.trans (AList.lookup_insert _)))
    · exact .inl (mem_owners.mpr (.inl ⟨t', (AList.lookup_insert_ne heq).symm.trans ht'⟩))
  · rcases List.mem_append.mp hjob with hjob | hjob
    · exact .inl (mem_owners.mpr (.inr ⟨job, hjob, hlock⟩))
    · obtain ⟨p, -, rfl⟩ := List.mem_map.mp hjob
      cases hlock

theorem post_placed {s s' : Bifrost} {now t : Int} {urls : List Bytes} {content : Bytes} {dumped : Bool}
    {f : MessageBuffer → MessageBuffer} (hs : Placed s) (hf : Fills f)
    (h : s.post now t urls content dumped f = .ok s') : Placed s' := by
  obtain ⟨b, hb, howners⟩ := post_owners hf h
  obtain ⟨mq, id, heap, rfl, hnext, -, hnew⟩ := post_spec hf h
  obtain rfl := Option.some.inj ((AList.lookup_insert _).symm.trans hb)
  intro o ho a ha
  rcases howners o ho with hold | rfl
  · exact Nat.lt_of_lt_of_le (hs o hold a ha) hnext
  · exact (hnew a ha).2.1

theorem placed_step {s s' : Bifrost} {e : Step} {r : Result} (hs : Placed s) (h : StepCase s e r s') :
    Placed s' := by
  cases h with
  | @issue e now t urls content dumped f s' he hf ht h =>
    have hcounted : Placed { s with ticketId := t } := hs
    exact post_placed hcounted hf h
  | ricochetReply hf h => exact post_placed hs hf h
  | reply h =>
    obtain ⟨m, id, rfl, -, -⟩ := reply_spec h
    intro o ho a ha
    have hold : o ∈ s.owners := by
      refine mem_owners.mpr ((mem_owners.mp ho).imp_right ?_)
      rintro ⟨job, hjob, hlock⟩
      rcases List.mem_append.mp hjob with hjob | hjob
      · exact ⟨job, hjob, hlock⟩
      · obtain rfl := List.mem_singleton.mp hjob
        cases hlock
    exact Nat.lt_succ_of_lt (hs o hold a ha)
  | fulfill ht hcase hn =>
    have hserved := (fulfill_table hcase).1.placed hs
    exact hserved
  | deleteRequest => exact hs
  | cleanse h => exact (cleanse_table h).placed hs
  | work hcase =>
    obtain ⟨-, -, hnext, -, howners⟩ := work_table hcase
    intro o ho a ha
    rw [hnext]
    exact hs o (howners o ho) a ha

theorem Reachable.placed {s : Bifrost} (h : Reachable average s) : Placed s := by
  obtain ⟨host, port, ls, hrun⟩ := h
  refine hrun.invariant (fun t l u ht hmove => placed_step ht (step_spec hmove)) ?_
  intro o ho
  cases ho

/-- With content every URL gets a message of its own, with a number of its own. -/
theorem prepare_recipients {now : Int} {k : Nat} {content : Bytes} {f : MessageBuffer → MessageBuffer} (hf : Fills f)
    (hcontent : content ≠ []) {urls : List Bytes} {s s' : Bifrost} {mq : List (Option Addr)}
    (h : prepare now k content f urls s = .ok (mq, s')) :
    ∃ rs : List Recipient, (mq = rs.map fun r => some r.addr) ∧ rs.map (·.url) = urls ∧ (rs.map (·.id)).Nodup ∧
      ∀ r ∈ rs, s.messageId < r.id ∧ s.heap.next ≤ r.addr ∧
        ∃ m, s'.heap.cell r.addr = some (f m) ∧ m.id = r.id ∧ inInt m.id ∧ m.url = r.url ∧ m.fulfilled = 0 := by
  induction urls generalizing s mq with
  | nil =>
    obtain ⟨rfl, rfl⟩ := Prod.mk.inj (Except.ok.inj h)
    exact ⟨[], rfl, rfl, List.nodup_nil, fun r hr => absurd hr List.not_mem_nil⟩
  | cons url urls ih =>
    obtain ⟨buf, s₁, mq', hmsg, hrest, rfl⟩ := prepare_cons h
    obtain ⟨rs, rfl, hurls, hnodup, hrs⟩ := ih hrest
    obtain ⟨id, heap, rfl, hnext, hold, -⟩ := prepare_spec hf hrest
    rcases message_spec hmsg with ⟨-, -, hnil⟩ | ⟨m, heap₁, rfl, rfl, hnext₁, hcell, -, hid, hint, hurl, hful, -⟩
    · exact absurd hnil hcontent
    · rw [if_neg hcontent] at hcell
      dsimp only at hrs hold
      have hfirst : s.messageId + 1 ∉ rs.map (·.id) := by
        intro hmem
        obtain ⟨r, hr, heq⟩ := List.mem_map.mp hmem
        have hlt := (hrs r hr).1
        omega
      refine ⟨⟨s.heap.next, s.messageId + 1, url⟩ :: rs, rfl, congrArg (url :: ·) hurls,
        List.nodup_cons.mpr ⟨hfirst, hnodup⟩, ?_⟩
      refine List.forall_mem_cons.mpr ⟨⟨Int.lt_succ _, le_rfl, m, ?_, hid, hint, hurl, hful⟩, fun r hr => ?_⟩
      · dsimp only
        rw [hold _ (by omega), hcell]
      · obtain ⟨hlt, hle, hm⟩ := hrs r hr
        exact ⟨by omega, by omega, hm⟩

/-- What `broadcast_async` writes into a message. -/
theorem fill_headers (m : MessageBuffer) (content : Bytes) (t : Int) :
    let headers := (m.fill content t [⟨brokerType, lit "broadcast"⟩, ⟨ticketText, toText t⟩,
      ⟨messageIdText, toText m.id⟩] none).headers
    headers.get brokerType = lit "broadcast" ∧ headers.get ticketText = toText t ∧
      headers.get messageIdText = toText m.id := by
  have hheaders : ∀ key, ((m.fill content t [⟨brokerType, lit "broadcast"⟩, ⟨ticketText, toText t⟩,
      ⟨messageIdText, toText m.id⟩] none).headers.lookup key) = _ := fun key => StrMap.lookup_assign _ _ key
  refine ⟨?_, ?_, ?_⟩
  all_goals
    unfold StrMap.get
    rw [hheaders]
    rfl

/-- A broadcast starts with a message for each URL, and waits for all of them. -/
theorem broadcast_waiting {s s₁ : Bifrost} {now t : Int} {urls : List Bytes} {content : Bytes} (hs : Placed s)
    (hurls : urls ≠ []) (hcontent : content ≠ [])
    (h : Move average s (.broadcastAsync now urls content, .ticket t) s₁) :
    ∃ b rs, rs.map Recipient.url = urls ∧ (rs.map Recipient.id).Nodup ∧
      (∀ r ∈ rs, r.Sent t content s₁.heap) ∧ Waiting t b rs [] s₁ := by
  obtain ⟨x, hx, hlabel⟩ := map_eq_ok.mp h
  obtain ⟨ticket, hinc, hx⟩ := bind_eq_ok.mp hx
  obtain ⟨s₂, hpost, hx⟩ := bind_eq_ok.mp hx
  obtain rfl := Except.ok.inj hx
  obtain ⟨hticket, rfl⟩ := Prod.mk.inj hlabel
  obtain rfl : ticket = t := Result.ticket.inj hticket
  obtain ⟨-, hint⟩ := increment_spec hinc
  obtain ⟨b, hb, howners⟩ := post_owners (fills_fill _ _ _ _) hpost
  obtain ⟨mq, s', hprep, rfl⟩ := post_eq_ok hpost
  obtain ⟨rs, rfl, rfl, hnodup, hrs⟩ := prepare_recipients (fills_fill _ _ _ _) hcontent hprep
  obtain ⟨id, heap, rfl, -⟩ := prepare_spec (fills_fill _ _ _ _) hprep
  obtain ⟨heap', heq, -, hcell⟩ := register_spec
    { s with ticketId := ticket, nextBroker := s.nextBroker + 1, messageId := id, heap := heap } ticket
    ⟨s.nextBroker, rs.map fun r => some r.addr⟩
  have hfresh : ∀ o ∈ s.owners, ∀ r ∈ rs, some r.addr ∉ o.messages := by
    intro o ho r hr hmem
    exact absurd (hs o ho r.addr hmem) (Nat.not_lt.mpr (hrs r hr).2.1)
  have hkept : ∀ r ∈ rs, heap'.cell r.addr = heap.cell r.addr := by
    intro r hr
    exact hcell r.addr fun b hb => hfresh b (mem_owners.mpr (.inl ⟨ticket, hb⟩)) r hr
  rw [heq] at hb howners ⊢
  obtain rfl := Option.some.inj ((AList.lookup_insert _).symm.trans hb)
  refine ⟨_, rs, rfl, hnodup, fun r hr => ?_, hb, rfl, fun o ho hne => ?_, fun r hr => ?_, fun hall => ?_⟩
  · obtain ⟨-, -, m, hm, hid, hinint, hurl, -⟩ := hrs r hr
    obtain ⟨htype, hticket, hmessage⟩ := fill_headers m content ticket
    refine ⟨_, (hkept r hr).trans hm, hurl, rfl, ?_, htype, ?_⟩
    · rw [hticket]
      exact stoi_toText hint
    · rw [hmessage, ← hid]
      exact stoi_toText hinint
  · exact hfresh o ((howners o ho).resolve_right hne)
  · obtain ⟨-, -, m, hm, hid, -, hurl, hful⟩ := hrs r hr
    exact ⟨_, (hkept r hr).trans hm, hid, hurl, iff_of_true hful rfl, fun text htext => (nomatch htext)⟩
  · obtain ⟨r, hr⟩ := List.exists_mem_of_ne_nil rs (fun hnil => hurls (hnil ▸ rfl))
    cases hall r hr

theorem replies_append (ls ls' : List (Step × Result)) : replies (ls ++ ls') = replies ls ++ replies ls' :=
  List.filterMap_append

/-- One step of a pending broadcast. -/
theorem Waiting.step {s u : Bifrost} {t : Int} {b : MessageBroker} {rs : List Recipient} {got : List (Int × Bytes)}
    {l : Step × Result} (h : Waiting t b rs got s) (hserves : l.1.Serves t) (hlate : Late s t l.1)
    (hmove : Move average s l u) :
    (Waiting t b rs (got ++ replies [l]) u ∧ resolves t l = false) ∨
      (u.brokers.lookup t = none ∧ Complete rs (got ++ replies [l]) ∧ resolves t l = true) := by
  obtain ⟨e, r⟩ := l
  have hcase := step_spec hmove
  cases e with
  | work i fetched =>
    have hnone : replies [(.work i fetched, r)] = [] := rfl
    rw [hnone, List.append_nil]
    cases hcase with
    | issue he => exact absurd he not_false
    | work hwork => exact .inl ⟨h.work hlate hwork, rfl⟩
  | fulfill req =>
    cases r with
    | fulfilled out =>
      obtain ⟨id, hid, hout⟩ := h.reply hserves hcase
      have hone : replies [(.fulfill req, .fulfilled out)] = [(id, req.content)] := by
        simp [replies, hid, Except.toOption]
      rw [hone]
      rcases hout with ⟨hstatus, hwaiting⟩ | ⟨hstatus, hcomplete, hnone, -⟩
      · exact .inl ⟨hwaiting, by simp [resolves, hstatus]⟩
      · exact .inr ⟨hnone, hcomplete, by simp [resolves, hstatus, hserves.carries]⟩
    | ticket t' => cases hcase with
      | issue he => exact absurd he not_false
    | done => cases hcase
  | _ => exact absurd hserves not_false

/-- A ticket that is not bound stays so through replies and fetch jobs. -/
theorem resolved_step {s u : Bifrost} {t : Int} {l : Step × Result} (hb : s.brokers.lookup t = none)
    (hserves : l.1.Serves t) (hmove : Move average s l u) :
    u.brokers.lookup t = none ∧ resolves t l = false := by
  obtain ⟨e, r⟩ := l
  have hcase := step_spec hmove
  constructor
  · rcases lookup_step hcase t with hsame | ⟨hnone, -⟩ | hticket | hreplaces
    · exact hsame.trans hb
    · exact hnone
    · cases hcase with
      | issue he => cases e <;> first | exact absurd hserves not_false | exact absurd he not_false
      | _ => cases hticket
    · cases e <;> first | exact absurd hserves not_false | exact absurd hreplaces not_false
  · by_contra hr
    obtain ⟨hbound, -⟩ := resolves_step hcase (by simpa using hr)
    rw [hb] at hbound
    cases hbound

/-- The replies and the late fetches of a run. -/
def Serving (t : Int) (s : Bifrost) (l : Step × Result) : Prop := l.1.Serves t ∧ Late s t l.1

/-- In a run of replies and late fetches the ticket is pending while some node is missing, and
resolved once when none is. -/
theorem Waiting.run {s u : Bifrost} {t : Int} {b : MessageBroker} {rs : List Recipient} {ls : List (Step × Result)}
    (h : Waiting t b rs [] s) (hrun : Run (Restrict (Serving t) (Move average)) s ls u) :
    (Waiting t b rs (replies ls) u ∧ ls.countP (resolves t) = 0) ∨
      (u.brokers.lookup t = none ∧ Complete rs (replies ls) ∧ ls.countP (resolves t) = 1) := by
  refine hrun.history (P := fun ls u => (Waiting t b rs (replies ls) u ∧ ls.countP (resolves t) = 0) ∨
    (u.brokers.lookup t = none ∧ Complete rs (replies ls) ∧ ls.countP (resolves t) = 1)) ?_ (.inl ⟨h, rfl⟩)
  intro ls v l w ih ⟨⟨hserves, hlate⟩, hmove⟩
  rw [replies_append, List.countP_append, List.countP_singleton]
  rcases ih with ⟨hwaiting, hzero⟩ | ⟨hnone, hcomplete, hone⟩
  · rcases hwaiting.step hserves hlate hmove with ⟨hnext, hr⟩ | ⟨hnone, hcomplete, hr⟩
    · exact .inl ⟨hnext, by rw [hzero, hr]; rfl⟩
    · exact .inr ⟨hnone, hcomplete, by rw [hzero, hr]; rfl⟩
  · obtain ⟨hnone', hr⟩ := resolved_step hnone hserves hmove
    exact .inr ⟨hnone', hcomplete.append _, by rw [hone, hr]; rfl⟩

/-- Every listed message of a pending broadcast lives. -/
theorem Waiting.live {s : Bifrost} {t : Int} {b : MessageBroker} {rs : List Recipient} {got : List (Int × Bytes)}
    (h : Waiting t b rs got s) : ∀ p ∈ b.messages, ∃ m, s.deref p = .ok m := by
  rw [h.messages, List.forall_mem_map]
  intro r hr
  obtain ⟨m, hm, -⟩ := h.holds r hr
  exact ⟨m, deref_spec.mpr ⟨r.addr, rfl, hm⟩⟩

/-- The barrier. A broadcast with content makes one message for each URL, each with its own number.
In every run of replies and fetch jobs whose fetches finish late, the ticket has been resolved once
if every node has replied and never if one is missing. Every reply is answered: with status 1
exactly when it completes the set of the nodes, and then with each URL and its first reply. -/
theorem broadcast_barrier {s s₁ : Bifrost} {now t : Int} {urls : List Bytes} {content : Bytes}
    (hs : Reachable average s) (hurls : urls ≠ []) (hcontent : content ≠ [])
    (hissue : Move average s (.broadcastAsync now urls content, .ticket t) s₁) :
    ∃ rs : List Recipient, rs.map Recipient.url = urls ∧ (rs.map Recipient.id).Nodup ∧
      (∀ r ∈ rs, r.Sent t content s₁.heap) ∧
      ∀ ls u, Run (Restrict (Serving t) (Move average)) s₁ ls u →
        ls.countP (resolves t) = (if Complete rs (replies ls) then 1 else 0) ∧
        ∀ req id, Answers t req → stoi (req.header messageIdText) = .ok id →
          let got := replies ls ++ [(id, req.content)]
          ∃ out v, Move average u (.fulfill req, .fulfilled out) v ∧
            (out.status = 1 ↔ ¬ Complete rs (replies ls) ∧ Complete rs got) ∧
            (out.status = 1 → out.response = some (batchSerialize (firstReplies rs got))) := by
  obtain ⟨b, rs, hmap, hnodup, hsent, hwaiting⟩ := broadcast_waiting hs.placed hurls hcontent hissue
  refine ⟨rs, hmap, hnodup, hsent, fun ls u hrun => ?_⟩
  rcases hwaiting.run hrun with ⟨hu, hzero⟩ | ⟨hnone, hcomplete, hone⟩
  · refine ⟨by rw [hzero, if_neg hu.pending], fun req id ha hid => ?_⟩
    have hlive : ∀ b', u.brokers.lookup t = some b' → ∀ p ∈ b'.messages, ∃ m, u.deref p = .ok m := by
      intro b' hb'
      obtain rfl := Option.some.inj (hu.bound.symm.trans hb')
      exact hu.live
    obtain ⟨out, v, hmove⟩ := @answered average _ _ _ _ ha hid hlive
    refine ⟨out, v, hmove, ?_⟩
    obtain ⟨id', hid', hout⟩ := hu.reply ha (step_spec hmove)
    obtain rfl := Except.ok.inj (hid.symm.trans hid')
    rcases hout with ⟨hstatus, hv⟩ | ⟨hstatus, hall, -, hresponse⟩
    · rw [hstatus]
      exact ⟨iff_of_false (by decide) fun h => hv.pending h.2, fun h => absurd h (by decide)⟩
    · exact ⟨iff_of_true hstatus ⟨hu.pending, hall⟩, fun _ => hresponse⟩
  · refine ⟨by rw [hone, if_pos hcomplete], fun req id ha hid => ?_⟩
    obtain ⟨out, v, hmove⟩ := @answered average _ _ _ _ ha hid fun b' hb' => nomatch hnone.symm.trans hb'
    have hstatus : out.status ≠ 1 := by
      intro hstatus
      have hr := (resolved_step hnone (l := (.fulfill req, .fulfilled out)) ha hmove).2
      simp [resolves, hstatus, ha.carries] at hr
    exact ⟨out, v, hmove, iff_of_false hstatus fun h => h.1 hcomplete, fun h => absurd h hstatus⟩

/-- A node's reply to message `id` of the first ticket. -/
def nodeReply (id content : Bytes) : Request := jobRequest (lit "0") (lit "broadcast") id content

theorem answers_nodeReply (id content : Bytes) : Answers 0 (nodeReply id content) where
  carries := by
    have hticket : (nodeReply id content).header ticketText = lit "0" := rfl
    unfold Carries
    rw [hticket]
    rfl
  callback := rfl
  type := rfl

/-- Whether a fetch finishes late is to be seen at its message. -/
theorem late_of_all {s : Bifrost} {i : Nat} {got : FetchResult} (t : Int)
    (h : ((s.finishes i got).all fun w => (s.heap.cell w.1).any fun m => m.fulfilled ≠ 0 ∧ m.received = w.2) = true) :
    Late s t (.work i got) := by
  intro b a text _ _ hfinishes
  rw [hfinishes, Option.all_some, Option.any_eq_true] at h
  obtain ⟨m, hm, hlate⟩ := h
  exact ⟨m, hm, of_decide_eq_true hlate⟩

/-- Two nodes: the first replies twice, and between its replies the fetch of its message finishes; the reply of the
second resolves the ticket. -/
theorem broadcast_barrier_two : ∃ s₁ rs ls u,
    Move (fun _ => []) (start (lit "a") (lit "80")) (.broadcastAsync 0 [peer, peer] (lit "x"), .ticket 0) s₁ ∧
    rs.map Recipient.url = [peer, peer] ∧ Run (Restrict (Serving 0) (Move fun _ => [])) s₁ ls u ∧
    ls.map Prod.fst = [.fulfill (nodeReply (lit "0") (lit "y")), .work 0 ⟨lit "y", none⟩, .work 0 ⟨lit "y", none⟩,
      .work 0 ⟨lit "y", none⟩, .fulfill (nodeReply (lit "0") (lit "z")), .fulfill (nodeReply (lit "1") (lit "z"))] ∧
    Complete rs (replies ls) ∧ ls.countP (resolves 0) = 1 := by
  have hissue : ∃ s₁, Move (fun _ => []) (start (lit "a") (lit "80"))
      (.broadcastAsync 0 [peer, peer] (lit "x"), .ticket 0) s₁ ∧
      ∃ r v₁ v₂ v₃ v₄ r' v₅ r'' u,
        Move (fun _ => []) s₁ (.fulfill (nodeReply (lit "0") (lit "y")), r) v₁ ∧
        Restrict (Serving 0) (Move fun _ => []) v₁ (.work 0 ⟨lit "y", none⟩, .done) v₂ ∧
        Restrict (Serving 0) (Move fun _ => []) v₂ (.work 0 ⟨lit "y", none⟩, .done) v₃ ∧
        Restrict (Serving 0) (Move fun _ => []) v₃ (.work 0 ⟨lit "y", none⟩, .done) v₄ ∧
        Move (fun _ => []) v₄ (.fulfill (nodeReply (lit "0") (lit "z")), r') v₅ ∧
        Move (fun _ => []) v₅ (.fulfill (nodeReply (lit "1") (lit "z")), r'') u ∧
        [(.fulfill (nodeReply (lit "0") (lit "y")), r), (.work 0 ⟨lit "y", none⟩, .done),
          (.work 0 ⟨lit "y", none⟩, .done), (.work 0 ⟨lit "y", none⟩, .done),
          (.fulfill (nodeReply (lit "0") (lit "z")), r'),
          (.fulfill (nodeReply (lit "1") (lit "z")), r'')].countP (resolves 0) = 1 :=
    ⟨_, rfl, _, _, _, _, _, _, _, _, _, rfl, ⟨⟨trivial, late_of_all 0 rfl⟩, rfl⟩,
      ⟨⟨trivial, late_of_all 0 rfl⟩, rfl⟩, ⟨⟨trivial, late_of_all 0 rfl⟩, rfl⟩, rfl, rfl, rfl⟩
  obtain ⟨s₁, hissue, r, v₁, v₂, v₃, v₄, r', v₅, r'', u, hfirst, hwork, hwork', hwork'', hagain, hlast, hcount⟩ :=
    hissue
  have hreply (num text : Bytes) (s : Bifrost) (res : Result) (hnum : Answers 0 (nodeReply num text)) :
      Serving 0 s (.fulfill (nodeReply num text), res) := ⟨hnum, trivial⟩
  obtain ⟨rs, hmap, -, -, hall⟩ :=
    broadcast_barrier ⟨lit "a", lit "80", [], .nil⟩ (by simp) (by decide) hissue
  have hserving : Run (Restrict (Serving 0) (Move fun _ => [])) s₁ _ u :=
    (((((Run.single ⟨hreply _ _ _ _ (answers_nodeReply _ _), hfirst⟩).snoc hwork).snoc hwork').snoc hwork'').snoc
      ⟨hreply _ _ _ _ (answers_nodeReply _ _), hagain⟩).snoc ⟨hreply _ _ _ _ (answers_nodeReply _ _), hlast⟩
  have hone := (hall _ _ hserving).1
  refine ⟨_, rs, _, _, hissue, hmap, hserving, rfl, ?_, hcount⟩
  by_contra hmissing
  have hcounted := hcount
  rw [if_neg hmissing] at hone
  exact absurd (hcounted.symm.trans hone) (by decide)

/-- The fetch of the second message finishes before its node replies, and then the reply of the
first node resolves the ticket, with what the fetch got. -/
theorem broadcast_resolved_early : ∃ s₁ ls u v out,
    Move (fun _ => []) (start (lit "a") (lit "80")) (.broadcastAsync 0 [peer, peer] (lit "x"), .ticket 0) s₁ ∧
    Run (Restrict (fun _ l => l.1.Serves 0) (Move fun _ => [])) s₁ ls u ∧ replies ls = [] ∧
    Move (fun _ => []) u (.fulfill (nodeReply (lit "0") (lit "y")), .fulfilled out) v ∧
    out.status = 1 ∧ out.response = some (batchSerialize [(peer, lit "y"), (peer, [])]) := by
  have hrun : ∃ s₁, Move (fun _ => []) (start (lit "a") (lit "80"))
      (.broadcastAsync 0 [peer, peer] (lit "x"), .ticket 0) s₁ ∧
      ∃ r r' r'' u, Run (Move fun _ => []) s₁
        [(.work 1 ⟨[], none⟩, r), (.work 1 ⟨[], none⟩, r'), (.work 1 ⟨[], none⟩, r'')] u ∧
      ∃ out v, Move (fun _ => []) u (.fulfill (nodeReply (lit "0") (lit "y")), .fulfilled out) v ∧
        out.status = 1 ∧ out.response = some (batchSerialize [(peer, lit "y"), (peer, [])]) :=
    ⟨_, rfl, _, _, _, _, run_calls [.work 1 ⟨[], none⟩, .work 1 ⟨[], none⟩, .work 1 ⟨[], none⟩] rfl,
      _, _, rfl, rfl, rfl⟩
  obtain ⟨s₁, hissue, r, r', r'', u, hrun, out, v, hreply, hstatus, hresponse⟩ := hrun
  exact ⟨s₁, _, u, v, out, hissue, hrun.restrict (by simp [Step.Serves]), rfl, hreply, hstatus, hresponse⟩

end Bifrost
end Jericho.Message
