import Jericho.Message.Tickets

/-! Lifetimes: a message lives as long as its fetch job, and a callback is released once, in every
run that drops a broker only when the jobs of its messages are done. -/
namespace Jericho.Message
open StdText Util Server Runs

namespace Bifrost
variable {average : List UInt64 → Bytes}

/-- No message is released under a job that is queued or running. -/
def MessagesLive (s : Bifrost) : Prop :=
  ∀ job ∈ s.jobs, job.phase ≠ .finished → ∀ a, job.buf = some a → (s.heap.cell a).isSome

/-- No callback is released twice. -/
def ReleasedOnce (s : Bifrost) : Prop := ∀ r ∈ s.requests, r.released ≤ 1

/-- The jobs of these messages are done. -/
def Idle (s : Bifrost) (bufs : List (Option Addr)) : Prop :=
  ∀ job ∈ s.jobs, ∀ a, job.buf = some a → some a ∈ bufs → job.phase = .finished

/-- A request that takes the broker of its ticket out of the table: with a resolved callback, or
without one as a simple reply, or as the reply a broadcast was waiting for. -/
def Settles (s : Bifrost) (req : Request) (b : MessageBroker) : Prop :=
  match req.callback with
  | some callback => callback.resolved = true
  | none => req.header brokerType = lit "simple" ∨
      req.header brokerType = lit "broadcast" ∧ ∃ id, stoi (req.header messageIdText) = .ok id ∧
        ∀ a m, some a ∈ b.messages → s.heap.cell a = some m → m.fulfilled ≠ 0 ∨ m.id = id

/-- The brokers a step drops or replaces. -/
def Drops (s : Bifrost) : Step → MessageBroker → Prop
  | .fulfill req, b => ∃ t, Carries t req ∧ s.brokers.lookup t = some b ∧ Settles s req b
  | .cleanse now, b => ∃ t, s.brokers.lookup t = some b ∧ s.unexpired now b.messages = .ok []
  | .ricochetReply _ _ _ _ _ _ t, b => s.brokers.lookup t = some b
  | e, b => e.Sends ∧ s.brokers.lookup (s.ticketId + 1) = some b

/-- A step that drops only what no job works on, and brings no resolved callback to a bound ticket. -/
structure Orderly (s : Bifrost) (l : Step × Result) : Prop where
  drops : ∀ b, Drops s l.1 b → Idle s b.messages
  fnfs : ∀ now, l.1 = .cleanse now → ∀ a ∈ s.fnfs, ∀ m, s.heap.cell a = some m → m.fulfilled ≠ 0 → Idle s [some a]
  callback : ∀ req callback t, l.1 = .fulfill req → req.callback = some callback → Carries t req →
    (s.brokers.lookup t).isSome → callback.resolved = false

/-- Who owns what. A message belongs to the broker its weak pointer names, a reply's message to the
list of replies; what a job works on is owned, and what it locks is in the table. -/
structure Owned (s : Bifrost) : Prop where
  ids : ∀ t b, s.brokers.lookup t = some b → b.id < s.nextBroker
  unique : ∀ t t' b b', s.brokers.lookup t = some b → s.brokers.lookup t' = some b' → b.id = b'.id → t = t'
  live : ∀ t b a, s.brokers.lookup t = some b → some a ∈ b.messages →
    ∃ m, s.heap.cell a = some m ∧ m.broker = some b.id
  fnfs : ∀ a ∈ s.fnfs, ∃ m, s.heap.cell a = some m ∧ m.broker = none
  nodup : s.fnfs.Nodup
  jobs : ∀ job ∈ s.jobs, job.phase ≠ .finished → ∀ a, job.buf = some a →
    a ∈ s.fnfs ∨ ∃ t b, s.brokers.lookup t = some b ∧ some a ∈ b.messages
  locks : ∀ job ∈ s.jobs, ∀ b, job.lock = some b → (job.phase ≠ .finished ∧ job.phase ≠ .closing) ∧
    ∃ t a, s.brokers.lookup t = some b ∧ job.buf = some a ∧ some a ∈ b.messages

theorem owned_start (host port : Bytes) : Owned (start host port) where
  ids t b h := by simp [start] at h
  unique t t' b b' h := by simp [start] at h
  live t b a h := by simp [start] at h
  fnfs a h := absurd h List.not_mem_nil
  nodup := List.nodup_nil
  jobs job h := absurd h List.not_mem_nil
  locks job h := absurd h List.not_mem_nil

theorem Owned.messagesLive {s : Bifrost} (h : Owned s) : MessagesLive s := by
  intro job hjob hphase a ha
  rcases h.jobs job hjob hphase a ha with hfnf | ⟨t, b, hb, hmem⟩
  · obtain ⟨m, hm, -⟩ := h.fnfs a hfnf
    rw [hm]
    rfl
  · obtain ⟨m, hm, -⟩ := h.live t b a hb hmem
    rw [hm]
    rfl

/-- Brokers of different tickets share no message. -/
theorem Owned.disjoint {s : Bifrost} (h : Owned s) {t t' : Int} {b b' : MessageBroker} {a : Addr}
    (hb : s.brokers.lookup t = some b) (hb' : s.brokers.lookup t' = some b') (hne : t ≠ t')
    (ha : some a ∈ b.messages) : some a ∉ b'.messages := by
  intro ha'
  obtain ⟨m, hm, hid⟩ := h.live t b a hb ha
  obtain ⟨m', hm', hid'⟩ := h.live t' b' a hb' ha'
  obtain rfl := Option.some.inj (hm.symm.trans hm')
  exact hne (h.unique t t' b b' hb hb' (Option.some.inj (hid.symm.trans hid')))

theorem Owned.fnf_notMem {s : Bifrost} (h : Owned s) {t : Int} {b : MessageBroker} {a : Addr}
    (ha : a ∈ s.fnfs) (hb : s.brokers.lookup t = some b) : some a ∉ b.messages := by
  intro hmem
  obtain ⟨m, hm, hnone⟩ := h.fnfs a ha
  obtain ⟨m', hm', hsome⟩ := h.live t b a hb hmem
  obtain rfl := Option.some.inj (hm.symm.trans hm')
  rw [hnone] at hsome
  cases hsome

/-- A broker leaves the table when its jobs are done. -/
theorem Owned.erase {s : Bifrost} (h : Owned s) {t : Int}
    (hidle : ∀ b, s.brokers.lookup t = some b → Idle s b.messages) : Owned (s.erase t) := by
  obtain ⟨heap, heq, -, hcell⟩ := erase_spec s t
  rw [heq]
  have hold : ∀ {t' b}, (s.brokers.erase t).lookup t' = some b → t' ≠ t ∧ s.brokers.lookup t' = some b := by
    intro t' b hb
    by_cases ht : t' = t
    · rw [ht, AList.lookup_erase] at hb
      cases hb
    · exact ⟨ht, (AList.lookup_erase_ne ht).symm.trans hb⟩
  have hkept : ∀ {t' b}, t' ≠ t → s.brokers.lookup t' = some b → (s.brokers.erase t).lookup t' = some b :=
    fun ht hb => (AList.lookup_erase_ne ht).trans hb
  refine ⟨fun t' b hb => h.ids t' b (hold hb).2, fun t₁ t₂ b₁ b₂ h₁ h₂ => h.unique t₁ t₂ b₁ b₂ (hold h₁).2 (hold h₂).2,
    fun t' b a hb ha => ?_, fun a ha => ?_, h.nodup, fun job hjob hphase a ha => ?_, fun job hjob b hb => ?_⟩
  · rw [hcell a fun b₀ hb₀ => h.disjoint (hold hb).2 hb₀ (hold hb).1 ha]
    exact h.live t' b a (hold hb).2 ha
  · rw [hcell a fun b₀ hb₀ => h.fnf_notMem ha hb₀]
    exact h.fnfs a ha
  · rcases h.jobs job hjob hphase a ha with hfnf | ⟨t', b, hb, hmem⟩
    · exact .inl hfnf
    · have ht : t' ≠ t := fun ht => hphase (hidle b (ht ▸ hb) job hjob a ha hmem)
      exact .inr ⟨t', b, hkept ht hb, hmem⟩
  · obtain ⟨hphase, t', a, hb', ha, hmem⟩ := h.locks job hjob b hb
    have ht : t' ≠ t := fun ht => hphase.1 (hidle b (ht ▸ hb') job hjob a ha hmem)
    exact ⟨hphase, t', a, hkept ht hb', ha, hmem⟩

/-- A sender puts a new broker in the place of one whose jobs are done, if there was one. -/
theorem Owned.post {s s' : Bifrost} (h : Owned s) {now t : Int} {urls : List Bytes} {content : Bytes} {dumped : Bool}
    {f : MessageBuffer → MessageBuffer} (hf : Fills f) (hpost : s.post now t urls content dumped f = .ok s')
    (hidle : ∀ b, s.brokers.lookup t = some b → Idle s b.messages) : Owned s' := by
  obtain ⟨mq, id, heap, rfl, hnext, hcell, hnew⟩ := post_spec hf hpost
  have hlive : ∀ {a m}, s.heap.cell a = some m → a < s.heap.next :=
    fun hm => Heap.lt_next (by rw [hm]; rfl)
  have hmq : ∀ {a}, some a ∈ mq → ∃ m, heap.cell a = some m ∧ m.broker = some s.nextBroker := by
    intro a ha
    refine (hnew a ha).2.2 fun b hb hmem => ?_
    obtain ⟨m, hm, -⟩ := h.live t b a hb hmem
    exact absurd (hlive hm) (Nat.not_lt.mpr (hnew a ha).1)
  have hold : ∀ {t' b}, (s.brokers.insert t ⟨s.nextBroker, mq⟩).lookup t' = some b →
      t' = t ∧ b = ⟨s.nextBroker, mq⟩ ∨ t' ≠ t ∧ s.brokers.lookup t' = some b := by
    intro t' b hb
    by_cases ht : t' = t
    · rw [ht, AList.lookup_insert] at hb
      exact .inl ⟨ht, (Option.some.inj hb).symm⟩
    · exact .inr ⟨ht, (AList.lookup_insert_ne ht).symm.trans hb⟩
  have hkept : ∀ {t' b}, t' ≠ t → s.brokers.lookup t' = some b →
      (s.brokers.insert t ⟨s.nextBroker, mq⟩).lookup t' = some b :=
    fun ht hb => (AList.lookup_insert_ne ht).trans hb
  refine ⟨fun t' b hb => ?_, fun t₁ t₂ b₁ b₂ h₁ h₂ hid => ?_, fun t' b a hb ha => ?_, fun a ha => ?_, h.nodup,
    fun job hjob hphase a ha => ?_, fun job hjob b hb => ?_⟩
  · rcases hold hb with ⟨-, rfl⟩ | ⟨-, hb⟩
    · exact Nat.lt_succ_self _
    · exact Nat.lt_succ_of_lt (h.ids t' b hb)
  · rcases hold h₁ with ⟨rfl, rfl⟩ | ⟨-, hb₁⟩ <;> rcases hold h₂ with ⟨rfl, rfl⟩ | ⟨-, hb₂⟩
    · rfl
    · exact absurd (h.ids t₂ b₂ hb₂) (by rw [← hid]; exact Nat.lt_irrefl _)
    · exact absurd (h.ids t₁ b₁ hb₁) (by rw [hid]; exact Nat.lt_irrefl _)
    · exact h.unique t₁ t₂ b₁ b₂ hb₁ hb₂ hid
  · rcases hold hb with ⟨-, rfl⟩ | ⟨hne, hb⟩
    · exact hmq ha
    · obtain ⟨m, hm, hid⟩ := h.live t' b a hb ha
      exact ⟨m, (hcell a (hlive hm) fun b₀ hb₀ => h.disjoint hb hb₀ hne ha).trans hm, hid⟩
  · obtain ⟨m, hm, hid⟩ := h.fnfs a ha
    exact ⟨m, (hcell a (hlive hm) fun b₀ hb₀ => h.fnf_notMem ha hb₀).trans hm, hid⟩
  · rcases List.mem_append.mp hjob with hjob | hjob
    · rcases h.jobs job hjob hphase a ha with hfnf | ⟨t', b, hb, hmem⟩
      · exact .inl hfnf
      · have ht : t' ≠ t := fun ht => hphase (hidle b (ht ▸ hb) job hjob a ha hmem)
        exact .inr ⟨t', b, hkept ht hb, hmem⟩
    · obtain ⟨buf, hbuf, rfl⟩ := List.mem_map.mp hjob
      obtain rfl : buf = some a := ha
      exact .inr ⟨t, _, AList.lookup_insert _, hbuf⟩
  · rcases List.mem_append.mp hjob with hjob | hjob
    · obtain ⟨hphase, t', a, hb', ha, hmem⟩ := h.locks job hjob b hb
      have ht : t' ≠ t := fun ht => hphase.1 (hidle b (ht ▸ hb') job hjob a ha hmem)
      exact ⟨hphase, t', a, hkept ht hb', ha, hmem⟩
    · obtain ⟨buf, -, rfl⟩ := List.mem_map.mp hjob
      cases hb

theorem Owned.reply {s s' : Bifrost} (h : Owned s) {now : Int} {req : Request} {url content type : Bytes}
    {callback : Option Callback} (hreply : s.reply now req url content callback type = .ok s') : Owned s' := by
  obtain ⟨m, id, rfl, hm, -⟩ := reply_spec hreply
  have hcell : ∀ {a x}, s.heap.cell a = some x → (s.heap.alloc m).cell a = some x := by
    intro a x hx
    rw [Heap.alloc_cell_of_lt (Heap.lt_next (by rw [hx]; rfl))]
    exact hx
  refine ⟨h.ids, h.unique, fun t b a hb ha => ?_, fun a ha => ?_, ?_, fun job hjob hphase a ha => ?_,
    fun job hjob b hb => ?_⟩
  · obtain ⟨x, hx, hid⟩ := h.live t b a hb ha
    exact ⟨x, hcell hx, hid⟩
  · rcases List.mem_append.mp ha with ha | ha
    · obtain ⟨x, hx, hid⟩ := h.fnfs a ha
      exact ⟨x, hcell hx, hid⟩
    · obtain rfl := List.mem_singleton.mp ha
      exact ⟨m, Heap.alloc_cell_next _ _, hm⟩
  · refine List.nodup_append.mpr ⟨h.nodup, List.nodup_singleton _, fun a ha b hb hab => ?_⟩
    obtain rfl := List.mem_singleton.mp hb
    obtain ⟨x, hx, -⟩ := h.fnfs a ha
    rw [hab, s.heap.fresh _ le_rfl] at hx
    cases hx
  · rcases List.mem_append.mp hjob with hjob | hjob
    · rcases h.jobs job hjob hphase a ha with hfnf | hbroker
      · exact .inl (List.mem_append_left _ hfnf)
      · exact .inr hbroker
    · obtain rfl := List.mem_singleton.mp hjob
      obtain rfl := Option.some.inj ha
      exact .inl (List.mem_append_right _ (List.mem_singleton_self _))
  · rcases List.mem_append.mp hjob with hjob | hjob
    · exact h.locks job hjob b hb
    · obtain rfl := List.mem_singleton.mp hjob
      cases hb

/-- Writing into messages changes no ownership, as it leaves the weak pointers. -/
theorem Owned.written {s : Bifrost} (h : Owned s) {heap : Heap MessageBuffer}
    (hcell : ∀ a m, s.heap.cell a = some m → ∃ m', heap.cell a = some m' ∧ m'.broker = m.broker) :
    Owned { s with heap := heap } := by
  refine ⟨h.ids, h.unique, fun t b a hb ha => ?_, fun a ha => ?_, h.nodup, h.jobs, h.locks⟩
  · obtain ⟨m, hm, hid⟩ := h.live t b a hb ha
    obtain ⟨m', hm', hbroker⟩ := hcell a m hm
    exact ⟨m', hm', hbroker.trans hid⟩
  · obtain ⟨m, hm, hid⟩ := h.fnfs a ha
    obtain ⟨m', hm', hbroker⟩ := hcell a m hm
    exact ⟨m', hm', hbroker.trans hid⟩

theorem Owned.collect {s s₁ : Bifrost} (h : Owned s) {id : Int} {content : Bytes} {messages : List (Option Addr)}
    {all : Bool} {responses : List (Bytes × Bytes)}
    (hcollect : Bifrost.collect id content messages s = .ok (s₁, all, responses)) : Owned s₁ := by
  obtain ⟨heap, rfl, -, hcell, -⟩ := collect_spec hcollect
  refine h.written fun a m hm => ?_
  rw [hcell a, hm]
  split_ifs
  · exact ⟨_, rfl, receive_broker m id content⟩
  · exact ⟨m, rfl, rfl⟩

/-- A broadcast whose loop says that all messages are fulfilled was settled by this very reply. -/
theorem settles_of_collect {s s₁ : Bifrost} {req : Request} {b : MessageBroker} {id : Int}
    {responses : List (Bytes × Bytes)} (hc : req.callback = none) (ht : req.header brokerType = lit "broadcast")
    (hid : stoi (req.header messageIdText) = .ok id)
    (hcollect : Bifrost.collect id req.content b.messages s = .ok (s₁, true, responses)) : Settles s req b := by
  obtain ⟨heap, -, -, hcell, hall, -⟩ := collect_spec hcollect
  unfold Settles
  rw [hc]
  refine .inr ⟨ht, id, hid, fun a m ha hm => ?_⟩
  have hread : heap.read (some a) = some (m.receive id req.content) := by
    refine (hcell a).trans ?_
    rw [if_pos ha, hm]
    rfl
  have hful := (hall.mp rfl) (some a) ha _ hread
  by_contra hnot
  push Not at hnot
  have hsame : m.receive id req.content = m := if_neg fun hboth => hnot.2 hboth.2
  rw [hsame] at hful
  exact hful hnot.1

theorem Owned.fulfill {s s₁ : Bifrost} (h : Owned s) {req : Request} {t : Int} {out : Fulfilled}
    (ht : Carries t req) (hcase : FulfillCase s req t out s₁)
    (hidle : ∀ b, Drops s (.fulfill req) b → Idle s b.messages) : Owned s₁ := by
  cases hcase with
  | unbound hb => exact h
  | simple hb hc htype =>
    refine h.erase fun b' hb' => hidle b' ⟨t, ht, hb', ?_⟩
    unfold Settles
    rw [hc]
    exact .inl htype
  | waiting hb hc htype hid hcollect => exact h.collect hcollect
  | barrier hb hc htype hid hcollect =>
    obtain ⟨heap, hs₁, -⟩ := collect_spec hcollect
    refine (h.collect hcollect).erase fun b' hb' => ?_
    rw [hs₁] at hb' ⊢
    obtain rfl := Option.some.inj (hb.symm.trans hb')
    exact hidle _ ⟨t, ht, hb, settles_of_collect hc htype hid hcollect⟩
  | resolved hb hc hr =>
    refine h.erase fun b' hb' => hidle b' ⟨t, ht, hb', ?_⟩
    unfold Settles
    rw [hc]
    exact hr
  | ricochet hb hc hr htype => exact ⟨h.ids, h.unique, h.live, h.fnfs, h.nodup, h.jobs, h.locks⟩
  | ignored hb => exact h

theorem deref_congr {s u : Bifrost} {buf : Option Addr} (h : ∀ a, buf = some a → u.heap.cell a = s.heap.cell a) :
    u.deref buf = s.deref buf := by
  cases buf with
  | none => rfl
  | some a =>
    unfold deref Heap.read
    rw [Option.bind_some, Option.bind_some, h a rfl]

/-- The sweep looks at the messages of its broker only. -/
theorem unexpired_congr {s u : Bifrost} (now : Int) {messages : List (Option Addr)}
    (h : ∀ a, some a ∈ messages → u.heap.cell a = s.heap.cell a) :
    u.unexpired now messages = s.unexpired now messages := by
  induction messages using unexpired.induct with
  | case1 => rfl
  | case2 buf =>
    rw [unexpired, unexpired, deref_congr fun a ha => h a (by simp [ha])]
  | case3 buf next rest ih₁ ih₂ =>
    rw [unexpired, unexpired, deref_congr fun a ha => h a (by simp [ha]),
      ih₁ fun a ha => h a (by simp [ha]), ih₂ fun a ha => h a (by simp_all)]

/-- The sweep over the table, when it drops only brokers whose jobs are done. -/
theorem Owned.cleanseBrokers {s s₁ : Bifrost} (h : Owned s) {now : Int}
    (hidle : ∀ b, Drops s (.cleanse now) b → Idle s b.messages)
    (hfold : s.brokers.entries.foldlM (cleanseBroker now) s = .ok s₁) :
    Owned s₁ ∧ s₁.jobs = s.jobs ∧ s₁.fnfs = s.fnfs ∧ ∀ a ∈ s.fnfs, s₁.heap.cell a = s.heap.cell a := by
  have hall : Owned s₁ ∧ s₁.jobs = s.jobs ∧ s₁.fnfs = s.fnfs ∧ (∀ a ∈ s.fnfs, s₁.heap.cell a = s.heap.cell a) ∧
      ∀ t b, s₁.brokers.lookup t = some b → s.brokers.lookup t = some b ∧
        ∀ a, some a ∈ b.messages → s₁.heap.cell a = s.heap.cell a := by
    refine foldlM_ok (P := fun u => Owned u ∧ u.jobs = s.jobs ∧ u.fnfs = s.fnfs ∧
      (∀ a ∈ s.fnfs, u.heap.cell a = s.heap.cell a) ∧ ∀ t b, u.brokers.lookup t = some b →
        s.brokers.lookup t = some b ∧ ∀ a, some a ∈ b.messages → u.heap.cell a = s.heap.cell a)
      (fun u v entry hentry hu hv => ?_) hfold ⟨h, rfl, rfl, fun _ _ => rfl, fun t b hb => ⟨hb, fun _ _ => rfl⟩⟩
    obtain ⟨howned, hjobs, hfnfs, hcells, htable⟩ := hu
    obtain ⟨hexp, rfl⟩ | rfl := cleanseBroker_spec hv
    · have hs : s.brokers.lookup entry.1 = some entry.2 := AList.mem_lookup_iff.mpr hentry
      have hidle' : ∀ b, u.brokers.lookup entry.1 = some b → Idle u b.messages := by
        intro b hb
        obtain ⟨hb', hsame⟩ := htable entry.1 b hb
        obtain rfl := Option.some.inj (hs.symm.trans hb')
        rw [unexpired_congr now hsame] at hexp
        intro job hjob
        rw [hjobs] at hjob
        exact hidle entry.2 ⟨entry.1, hs, hexp⟩ job hjob
      obtain ⟨heap, heq, -, hcell⟩ := erase_spec u entry.1
      refine ⟨howned.erase hidle', by rw [heq]; exact hjobs, by rw [heq]; exact hfnfs, fun a ha => ?_, fun t b hb => ?_⟩
      · rw [heq]
        exact (hcell a fun b hb => howned.fnf_notMem (hfnfs ▸ ha) hb).trans (hcells a ha)
      · by_cases ht : t = entry.1
        · rw [ht, lookup_erase_self] at hb
          cases hb
        · rw [lookup_erase_of_ne ht] at hb
          obtain ⟨hb', hsame⟩ := htable t b hb
          refine ⟨hb', fun a ha => ?_⟩
          rw [heq]
          exact (hcell a fun b₀ hb₀ => howned.disjoint hb hb₀ ht ha).trans (hsame a ha)
    · exact ⟨howned, hjobs, hfnfs, hcells, htable⟩
  exact ⟨hall.1, hall.2.1, hall.2.2.1, hall.2.2.2.1⟩

/-- A reply's message is deleted when its job is done. -/
theorem Owned.freeFnf {s : Bifrost} (h : Owned s) {a : Addr} (ha : a ∈ s.fnfs) (hidle : Idle s [some a]) :
    Owned { s with heap := s.heap.free [some a], fnfs := s.fnfs.erase a } := by
  have hcell : ∀ {c}, c ≠ a → (s.heap.free [some a]).cell c = s.heap.cell c :=
    fun hc => Heap.free_cell_of_notMem (by simpa using hc)
  refine ⟨h.ids, h.unique, fun t b c hb hc => ?_, fun c hc => ?_, h.nodup.erase a, fun job hjob hphase c hc => ?_,
    h.locks⟩
  · have hne : c ≠ a := fun hca => h.fnf_notMem ha hb (hca ▸ hc)
    obtain ⟨m, hm, hid⟩ := h.live t b c hb hc
    exact ⟨m, (hcell hne).trans hm, hid⟩
  · obtain ⟨hne, hc⟩ := (List.Nodup.mem_erase_iff h.nodup).mp hc
    obtain ⟨m, hm, hid⟩ := h.fnfs c hc
    exact ⟨m, (hcell hne).trans hm, hid⟩
  · rcases h.jobs job hjob hphase c hc with hfnf | hbroker
    · have hne : c ≠ a := fun hca => hphase (hidle job hjob c hc (by simp [hca]))
      exact .inl ((List.Nodup.mem_erase_iff h.nodup).mpr ⟨hne, hfnf⟩)
    · exact .inr hbroker

theorem Owned.cleanseFnfs {l : List Addr} {s s' : Bifrost} (h : Owned s) (hl : l.Nodup)
    (hidle : ∀ a ∈ l, a ∈ s.fnfs ∧ ∀ m, s.heap.cell a = some m → m.fulfilled ≠ 0 → Idle s [some a])
    (hfold : l.foldlM cleanseFnf s = .ok s') : Owned s' := by
  induction l generalizing s with
  | nil =>
    obtain rfl := Except.ok.inj hfold
    exact h
  | cons a l ih =>
    obtain ⟨s₁, hstep, hrest⟩ := bind_eq_ok.mp hfold
    obtain ⟨hnotin, hnodup⟩ := List.nodup_cons.mp hl
    obtain ⟨hmem, hdone⟩ := hidle a List.mem_cons_self
    obtain ⟨m, hm, ⟨hful, rfl⟩ | rfl⟩ := cleanseFnf_spec hstep
    · refine ih (h.freeFnf hmem (hdone m hm hful)) hnodup (fun c hc => ?_) hrest
      have hne : c ≠ a := fun hca => hnotin (hca ▸ hc)
      obtain ⟨hcmem, hcdone⟩ := hidle c (List.mem_cons_of_mem a hc)
      refine ⟨(List.Nodup.mem_erase_iff h.nodup).mpr ⟨hne, hcmem⟩, fun x hx => ?_⟩
      exact hcdone x ((Heap.free_cell_of_notMem (by simpa using hne)).symm.trans hx)
    · exact ih h hnodup (fun c hc => hidle c (List.mem_cons_of_mem a hc)) hrest

theorem Owned.cleanse {s s' : Bifrost} (h : Owned s) {now : Int} {r : Result}
    (horderly : Orderly s (.cleanse now, r)) (hcleanse : s.cleanse now = .ok s') : Owned s' := by
  obtain ⟨s₁, hbrokers, hfnfs⟩ := bind_eq_ok.mp hcleanse
  obtain ⟨howned, hjobs, hsame, hcells⟩ := h.cleanseBrokers horderly.drops hbrokers
  refine howned.cleanseFnfs howned.nodup (fun a ha => ⟨ha, fun m hm hful => ?_⟩) hfnfs
  rw [hsame] at ha
  rw [hcells a ha] at hm
  have hidle := horderly.fnfs now rfl a ha m hm hful
  intro job hjob
  rw [hjobs] at hjob
  exact hidle job hjob

theorem Owned.setJob {s : Bifrost} (h : Owned s) {i : Nat} {job job' : Job} (hj : s.jobs[i]? = some job)
    (hbuf : job'.buf = job.buf) (hphase : job'.phase ≠ .finished → job.phase ≠ .finished)
    (hlock : ∀ b, job'.lock = some b → (job'.phase ≠ .finished ∧ job'.phase ≠ .closing) ∧
      ∃ t a, s.brokers.lookup t = some b ∧ job.buf = some a ∧ some a ∈ b.messages) : Owned (s.setJob i job') := by
  have hjob : job ∈ s.jobs := List.mem_of_getElem? hj
  refine ⟨h.ids, h.unique, h.live, h.fnfs, h.nodup, fun x hx hxphase a ha => ?_, fun x hx b hb => ?_⟩
  · rcases List.mem_or_eq_of_mem_set hx with hx | rfl
    · exact h.jobs x hx hxphase a ha
    · exact h.jobs job hjob (hphase hxphase) a (hbuf ▸ ha)
  · rcases List.mem_or_eq_of_mem_set hx with hx | rfl
    · exact h.locks x hx b hb
    · rw [hbuf]
      exact hlock b hb

/-- A job can lock no broker but the one in the table that lists its message. -/
theorem Owned.locked {s : Bifrost} (h : Owned s) {job : Job} (hjob : job ∈ s.jobs) (hphase : job.phase ≠ .finished)
    {a : Addr} (ha : job.buf = some a) {m m' : MessageBuffer} (hm : s.heap.cell a = some m)
    (hbroker : m'.broker = m.broker) {b : MessageBroker} (hlock : s.lockBroker m' = some b) :
    ∃ t a, s.brokers.lookup t = some b ∧ job.buf = some a ∧ some a ∈ b.messages := by
  obtain ⟨k, hk, hfind⟩ := Option.bind_eq_some_iff.mp hlock
  rw [hbroker] at hk
  have hid : b.id = k := by simpa using List.find?_some hfind
  have hbound : ∃ t, s.brokers.lookup t = some b := by
    rcases mem_owners.mp (List.mem_of_find?_eq_some hfind) with hb | ⟨job', hjob', hb⟩
    · exact hb
    · obtain ⟨-, t, -, hb, -⟩ := h.locks job' hjob' b hb
      exact ⟨t, hb⟩
  obtain ⟨t, hb⟩ := hbound
  rcases h.jobs job hjob hphase a ha with hfnf | ⟨t', b', hb', hmem⟩
  · obtain ⟨x, hx, hnone⟩ := h.fnfs a hfnf
    obtain rfl := Option.some.inj (hm.symm.trans hx)
    rw [hnone] at hk
    cases hk
  · obtain ⟨x, hx, hsome⟩ := h.live t' b' a hb' hmem
    obtain rfl := Option.some.inj (hm.symm.trans hx)
    rw [hk] at hsome
    have hids : b.id = b'.id := hid.trans (Option.some.inj hsome)
    obtain rfl := h.unique t t' b b' hb hb' hids
    obtain rfl := Option.some.inj (hb.symm.trans hb')
    exact ⟨t, a, hb, ha, hmem⟩

theorem Owned.complete {s : Bifrost} (h : Owned s) {i : Nat} {job : Job} {a : Addr} {m : MessageBuffer}
    (hj : s.jobs[i]? = some job) (hphase : job.phase ≠ .finished) (ha : job.buf = some a)
    (hm : s.heap.cell a = some m) (got : FetchResult) : Owned (s.complete i job m got) := by
  have hlive : (s.heap.cell a).isSome := by
    rw [hm]
    rfl
  unfold Bifrost.complete
  dsimp only
  refine Owned.setJob (h.written fun c x hx => ?_) hj rfl (fun _ => hphase) fun b hb => ⟨by simp, ?_⟩
  · rw [ha]
    by_cases hc : c = a
    · subst hc
      obtain rfl := Option.some.inj (hm.symm.trans hx)
      exact ⟨_, Heap.write_cell_self hlive _, rfl⟩
    · exact ⟨x, (Heap.write_cell_of_ne (by simpa using Ne.symm hc) _).trans hx, rfl⟩
  · exact h.locked (List.mem_of_getElem? hj) hphase ha hm rfl hb

theorem Owned.unlock {s : Bifrost} (h : Owned s) {i : Nat} {job : Job} {phase : JobPhase}
    (hj : s.jobs[i]? = some job) (hphase : job.phase ≠ .finished) : Owned (s.unlock i job phase) := by
  have howned : Owned (s.setJob i { job with phase := phase, lock := none }) :=
    h.setJob hj rfl (fun _ => hphase) fun b hb => by cases hb
  unfold Bifrost.unlock
  cases hlock : job.lock with
  | none => exact howned
  | some b =>
    obtain ⟨-, t, a, hb, -⟩ := h.locks job (List.mem_of_getElem? hj) b hlock
    have howner : b ∈ (s.setJob i { job with phase := phase, lock := none }).owners :=
      mem_owners.mpr (.inl ⟨t, hb⟩)
    rw [releaseOld_of_owner howner]
    exact howned

/-- The steps of the fetch jobs keep the ownership. -/
theorem Owned.work {s s' : Bifrost} (h : Owned s) {i : Nat} {got : FetchResult} (hcase : WorkCase s i got s') :
    Owned s' := by
  cases hcase with
  | idle => exact h
  | @publish job a m hj hp hbuf hm hport =>
    have hphase : job.phase ≠ .finished := by
      rw [hp]
      decide
    refine h.setJob hj rfl (fun _ => hphase) fun b hb => ⟨by simp, ?_⟩
    exact h.locked (List.mem_of_getElem? hj) hphase hbuf hm rfl hb
  | refuse hj hp hbuf hm hport => exact h.complete hj (by rw [hp]; decide) hbuf hm _
  | complete hj hp hbuf hm => exact h.complete hj (by rw [hp]; decide) hbuf hm _
  | unlock hj hp => exact h.unlock hj (by rcases hp with ⟨hp, -⟩ | ⟨hp, -⟩ <;> rw [hp] <;> decide)
  | @close job hj hp =>
    refine h.setJob hj rfl (fun hne => absurd rfl hne) fun b hb => ?_
    have hopen := (h.locks job (List.mem_of_getElem? hj) b hb).1.2
    exact absurd hp hopen

theorem drops_of_sends {s : Bifrost} {e : Step} {b : MessageBroker} (he : e.Sends)
    (hb : s.brokers.lookup (s.ticketId + 1) = some b) : Drops s e b := by
  cases e with
  | sendAsync | broadcastAsync | ricochetAsync => exact ⟨trivial, hb⟩
  | _ => exact absurd he not_false

theorem owned_step {s s' : Bifrost} {l : Step × Result} (h : Owned s) (horderly : Orderly s l)
    (hmove : Move average s l s') : Owned s' := by
  obtain ⟨e, r⟩ := l
  have hcase : StepCase s e r s' := step_spec hmove
  cases hcase with
  | issue he hf ht hpost =>
    subst ht
    have howned : Owned { s with ticketId := s.ticketId + 1 } :=
      ⟨h.ids, h.unique, h.live, h.fnfs, h.nodup, h.jobs, h.locks⟩
    exact howned.post hf hpost fun b hb => horderly.drops b (drops_of_sends he hb)
  | ricochetReply hf hpost => exact h.post hf hpost fun b hb => horderly.drops b hb
  | reply hreply => exact h.reply hreply
  | fulfill ht hful hn =>
    have howned := h.fulfill ht hful horderly.drops
    exact ⟨howned.ids, howned.unique, howned.live, howned.fnfs, howned.nodup, howned.jobs, howned.locks⟩
  | deleteRequest => exact ⟨h.ids, h.unique, h.live, h.fnfs, h.nodup, h.jobs, h.locks⟩
  | cleanse hcleanse => exact h.cleanse horderly hcleanse
  | work hwork => exact h.work hwork

/-- A callback was released, or the server loop will still release it, once at most. -/
def Releasing (s : Bifrost) : Prop :=
  ∀ r ∈ s.requests, r.released + (if r.kept ∧ r.callback then 1 else 0) ≤ 1

theorem requests_erase (s : Bifrost) (t : Int) : (s.erase t).requests = s.requests := by
  obtain ⟨heap, heq, -⟩ := erase_spec s t
  rw [heq]

theorem requests_cleanse {s s' : Bifrost} {now : Int} (h : s.cleanse now = .ok s') : s'.requests = s.requests := by
  obtain ⟨s₁, hbrokers, hfnfs⟩ := bind_eq_ok.mp h
  have h₁ : s₁.requests = s.requests := by
    refine foldlM_ok (P := fun u => u.requests = s.requests) (fun u v entry _ hu hv => ?_) hbrokers rfl
    obtain ⟨-, rfl⟩ | rfl := cleanseBroker_spec hv
    · rw [requests_erase, hu]
    · exact hu
  refine foldlM_ok (P := fun u => u.requests = s.requests) (fun u v a _ hu hv => ?_) hfnfs h₁
  obtain ⟨m, -, ⟨-, rfl⟩ | rfl⟩ := cleanseFnf_spec hv
  · exact hu
  · exact hu

theorem requests_work {s s' : Bifrost} {i : Nat} {got : FetchResult} (h : WorkCase s i got s') :
    s'.requests = s.requests := by
  cases h with
  | @unlock job phase hj hp =>
    obtain ⟨heap, heq, -⟩ := releaseOld_spec (s.setJob i { job with phase := phase, lock := none }) job.lock
    unfold unlock
    rw [heq]
    rfl
  | _ => rfl

/-- Without a resolved callback on a bound ticket `fulfill` releases none, nor does the loop at once. -/
theorem fulfill_releases {s s₁ : Bifrost} {req : Request} {t : Int} {out : Fulfilled}
    (h : FulfillCase s req t out s₁)
    (hcallback : ∀ callback, req.callback = some callback → (s.brokers.lookup t).isSome → callback.resolved = false) :
    s₁.requests = s.requests ∧
      (if out.deleted then 1 else 0) + (if out.status = 1 ∧ req.callback.isSome then 1 else 0) = 0 := by
  cases h with
  | unbound hb => exact ⟨rfl, rfl⟩
  | simple hb hc ht => exact ⟨requests_erase s t, by simp [hc]⟩
  | waiting hb hc ht hid hcollect =>
    obtain ⟨heap, rfl, -⟩ := collect_spec hcollect
    exact ⟨rfl, rfl⟩
  | barrier hb hc ht hid hcollect =>
    obtain ⟨heap, rfl, -⟩ := collect_spec hcollect
    exact ⟨requests_erase _ t, by simp [hc]⟩
  | resolved hb hc hr =>
    have hopen := hcallback _ hc (by rw [hb]; rfl)
    rw [hr] at hopen
    cases hopen
  | ricochet hb hc hr ht => exact ⟨rfl, rfl⟩
  | ignored hb => exact ⟨rfl, rfl⟩

theorem releasing_step {s s' : Bifrost} {l : Step × Result} (h : Releasing s) (horderly : Orderly s l)
    (hmove : Move average s l s') : Releasing s' := by
  obtain ⟨e, r⟩ := l
  have hcase : StepCase s e r s' := step_spec hmove
  cases hcase with
  | issue he hf ht hpost =>
    obtain ⟨mq, id, heap, rfl, -⟩ := post_spec hf hpost
    exact h
  | ricochetReply hf hpost =>
    obtain ⟨mq, id, heap, rfl, -⟩ := post_spec hf hpost
    exact h
  | reply hreply =>
    obtain ⟨m, id, rfl, -, -⟩ := reply_spec hreply
    exact h
  | @fulfill req t out s₁ n ht hful hn =>
    obtain ⟨hsame, hzero⟩ := fulfill_releases hful fun callback hc => horderly.callback req callback t rfl hc ht
    rw [hzero] at hn
    intro x hx
    rcases List.mem_append.mp hx with hx | hx
    · rw [hsame] at hx
      exact h x hx
    · obtain rfl := List.mem_singleton.mp hx
      dsimp only
      rw [hn]
      split_ifs <;> omega
  | @deleteRequest i =>
    intro x hx
    obtain ⟨j, hj⟩ := List.mem_iff_getElem?.mp hx
    have hmodify : (s.requests.modify i _)[j]? = some x := hj
    rw [List.getElem?_modify, Option.map_eq_map, Option.map_eq_some_iff] at hmodify
    obtain ⟨y, hy, rfl⟩ := hmodify
    have hle := h y (List.mem_of_getElem? hy)
    by_cases hij : i = j
    · rw [if_pos hij]
      by_cases hkept : y.kept = true
      · rw [if_pos hkept]
        simpa [hkept] using hle
      · rw [if_neg hkept]
        exact hle
    · rw [if_neg hij]
      exact hle
  | cleanse hcleanse =>
    intro x hx
    rw [requests_cleanse hcleanse] at hx
    exact h x hx
  | work hwork =>
    intro x hx
    rw [requests_work hwork] at hx
    exact h x hx

/-- Lifetimes. In every run of a node, with the fetch jobs interleaved in any order, whose steps drop
a broker only when the jobs of its messages are done and bring no resolved callback to a bound
ticket, no message is released under its job and no callback is released twice. -/
theorem lifetimes {host port : Bytes} {ls : List (Step × Result)} {s : Bifrost}
    (h : Run (Restrict Orderly (Move average)) (start host port) ls s) : MessagesLive s ∧ ReleasedOnce s := by
  obtain ⟨howned, hreleasing⟩ : Owned s ∧ Releasing s := by
    refine h.invariant (P := fun s => Owned s ∧ Releasing s) (fun t l u ht hstep => ?_)
      ⟨owned_start host port, fun r hr => absurd hr List.not_mem_nil⟩
    exact ⟨owned_step ht.1 hstep.1 hstep.2, releasing_step ht.2 hstep.1 hstep.2⟩
  refine ⟨howned.messagesLive, fun r hr => ?_⟩
  have := hreleasing r hr
  omega

theorem orderly_work (s : Bifrost) (i : Nat) (got : FetchResult) (r : Result) : Orderly s (.work i got, r) where
  drops _ h := absurd h.1 not_false
  fnfs _ h := by cases h
  callback _ _ _ h := by cases h

/-- A sender whose ticket is not taken. -/
theorem orderly_send {s : Bifrost} {e : Step} (he : e.Sends) (r : Result)
    (hb : s.brokers.lookup (s.ticketId + 1) = none) : Orderly s (e, r) := by
  cases e with
  | sendAsync | broadcastAsync | ricochetAsync =>
    refine ⟨fun b hdrops => ?_, fun now h => (nomatch h), fun req callback t h => (nomatch h)⟩
    have hsome := hb.symm.trans hdrops.2
    cases hsome
  | _ => exact absurd he not_false

/-- A reply without callback, when the jobs of its broker are done. -/
theorem orderly_reply {s : Bifrost} {req : Request} {t : Int} (ht : Carries t req) (hc : req.callback = none)
    (r : Result) (hidle : ∀ b, s.brokers.lookup t = some b → Idle s b.messages) : Orderly s (.fulfill req, r) := by
  refine ⟨fun b hdrops => ?_, fun now h => (nomatch h), fun req' callback t' h hcallback => ?_⟩
  · obtain ⟨t', ht', hb, -⟩ := hdrops
    obtain rfl := Except.ok.inj (ht.symm.trans ht')
    exact hidle b hb
  · obtain rfl := Step.fulfill.inj h
    rw [hc] at hcallback
    cases hcallback

/-- A reply that comes after the fetch of its message is done. -/
theorem lifetimes_reply_late : ∃ ls s, Run (Restrict Orderly (Move fun _ => [])) (start (lit "a") (lit "80")) ls s ∧
    s.brokers.lookup 0 = none ∧ MessagesLive s ∧ ReleasedOnce s := by
  have hsend : Restrict Orderly (Move fun _ => []) (start (lit "a") (lit "80"))
      (.sendAsync 0 peer (lit "x") none, .ticket 0) _ := ⟨orderly_send (by trivial) _ rfl, rfl⟩
  have hwork : ∀ {s s'} got, Move (fun _ => []) s (.work 0 got, .done) s' →
      Restrict Orderly (Move fun _ => []) s (.work 0 got, .done) s' :=
    fun got h => ⟨orderly_work _ _ got .done, h⟩
  have hfetched := (((((Run.nil.snoc hsend).snoc (hwork ⟨[], none⟩ rfl)).snoc (hwork ⟨[], none⟩ rfl)).snoc
    (hwork ⟨lit "y", none⟩ rfl)).snoc (hwork ⟨[], none⟩ rfl)).snoc (hwork ⟨[], none⟩ rfl)
  have hcarries : Carries 0 (jobRequest (lit "0") (lit "simple") (lit "0") (lit "y")) := rfl
  have hrun := hfetched.snoc ⟨orderly_reply hcarries rfl (.fulfilled _) fun b hb job hjob a ha hmem => by
    rw [List.mem_singleton.mp hjob], rfl⟩
  exact ⟨_, _, hrun, rfl, lifetimes hrun⟩

/-- A request whose callback has been resolved. -/
def resolvedRequest : Request :=
  { jobRequest (lit "0") [] [] [] with callback := some ⟨[], [], [], false, [], 0, 0, true⟩ }

/-- A reply that overtakes its own fetch deletes the message under the job; and a resolved callback
is deleted by `fulfill` and again with its request. -/
theorem released_early :
    (∃ ls s, Run (Move fun _ => []) (start (lit "a") (lit "80")) ls s ∧ ¬ MessagesLive s) ∧
    ∃ ls s, Run (Move fun _ => []) (start (lit "a") (lit "80")) ls s ∧ ¬ ReleasedOnce s := by
  constructor
  · refine ⟨_, _, run_calls [.sendAsync 0 peer (lit "x") none,
      .fulfill (jobRequest (lit "0") (lit "simple") (lit "0") (lit "y"))] rfl, fun h => ?_⟩
    have hlive := h { buf := some 0 } List.mem_cons_self (by decide) 0 rfl
    exact absurd hlive Bool.false_ne_true
  · refine ⟨_, _, run_calls [.sendAsync 0 peer (lit "x") none, .fulfill resolvedRequest, .deleteRequest 0] rfl,
      fun h => ?_⟩
    have htwice := h ⟨true, 2, false⟩ List.mem_cons_self
    exact absurd htwice (by decide)

end Bifrost
end Jericho.Message
