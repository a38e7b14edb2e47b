import Jericho.Message.Handled
import Jericho.Message.Tickets

/-! One bounce of a ricochet: what becomes of a callback in the headers and in `fulfill`. -/
namespace Jericho.Message
open StdText Util Server

/-- A message that carries a callback for a ticket, and a request that brings it. -/
structure Carrying (t : Int) (callback : Callback) (m : MessageBuffer) : Prop where
  ticket : m.headers.get ticketText = toText t
  type : m.headers.get brokerType = lit "ricochet"
  callback : Callback.ofMap m.headers = .ok callback

structure Bringing (t : Int) (callback : Callback) (req : Request) : Prop where
  ticket : req.header ticketText = toText t
  type : req.header brokerType = lit "ricochet"
  callback : req.callback = some callback

/-- A request has the ticket, the type and the callback of a message. -/
structure Delivered (m : MessageBuffer) (req : Request) : Prop where
  ticket : req.header ticketText = m.headers.get ticketText
  type : req.header brokerType = m.headers.get brokerType
  callback : ∃ callback, Callback.ofMap m.headers = .ok callback ∧ req.callback = some callback

variable {t : Int} {callback : Callback} {m : MessageBuffer} {req : Request}

theorem Delivered.bringing (h : Delivered m req) (hm : Carrying t callback m) : Bringing t callback req where
  ticket := h.ticket.trans hm.ticket
  type := h.type.trans hm.type
  callback := by
    obtain ⟨callback', hread, hcallback⟩ := h.callback
    obtain rfl := Except.ok.inj (hm.callback.symm.trans hread)
    exact hcallback

theorem carrying_fill (content : Bytes) {headers : List Field}
    (hticket : headers.reverse.dlookup ticketText = some (toText t))
    (htype : headers.reverse.dlookup brokerType = some (lit "ricochet")) (hcount : inInt callback.count)
    (hlimit : inInt callback.limit) (m : MessageBuffer) :
    Carrying t callback (m.fill content t headers (some callback)) where
  ticket := by
    have hget : (callback.serialize (m.headers.assign headers)).get ticketText =
        (m.headers.assign headers).get ticketText := get_assign _ _ _
    refine hget.trans ?_
    rw [get_assign, hticket]
    rfl
  type := by
    have hget : (callback.serialize (m.headers.assign headers)).get brokerType =
        (m.headers.assign headers).get brokerType := get_assign _ _ _
    refine hget.trans ?_
    rw [get_assign, htype]
    rfl
  callback := ofMap_serialize hcount hlimit _

/-- The callback of a ricochet that was answered a number of times. -/
def ball (callback : Callback) (k : Nat) : Callback :=
  { callback with count := ((k + 1) / 2 : Nat), satellite := k % 2 = 1 }

theorem ball_zero (hcount : callback.count = 0) (hsatellite : callback.satellite = false) :
    ball callback 0 = callback := by
  unfold ball
  cases callback
  cases hcount
  cases hsatellite
  rfl

namespace Bifrost
variable {s s' : Bifrost} {average : List UInt64 → Bytes}

theorem bounced_spec {callback' : Callback} (h : bounced callback = .ok callback') :
    callback' = { callback with
      count := if callback.satellite then callback.count else callback.count + 1, satellite := !callback.satellite } := by
  obtain ⟨count, hcount, h⟩ := bind_eq_ok.mp h
  obtain rfl := Except.ok.inj h
  split_ifs at hcount with hsatellite
  · rw [← Except.ok.inj hcount, if_pos hsatellite]
  · rw [(increment_spec hcount).1, if_neg hsatellite]

theorem bounced_ball {k : Nat} {callback' : Callback} (h : bounced (ball callback k) = .ok callback') :
    callback' = ball callback (k + 1) := by
  rw [bounced_spec h]
  unfold ball
  dsimp only
  rcases Nat.mod_two_eq_zero_or_one k with hk | hk
  · have hnext : (k + 1) % 2 = 1 := by omega
    have hcount : (k + 1 + 1) / 2 = (k + 1) / 2 + 1 := by omega
    simp [hk, hnext, hcount]
  · have hnext : (k + 1) % 2 = 0 := by omega
    have hcount : (k + 1 + 1) / 2 = (k + 1) / 2 := by omega
    simp [hk, hnext, hcount]

/-- A node has a broker with messages under a ticket. -/
def Holds (s : Bifrost) (t : Int) : Prop :=
  ∃ broker ms, s.brokers.lookup t = some broker ∧ s.dump broker.messages = .ok ms ∧ ms ≠ []

/-- The message that was last posted under a ticket by itself. -/
def posted (s : Bifrost) (t : Int) : Option MessageBuffer :=
  (s.brokers.lookup t).bind fun broker => broker.messages.head?.bind s.heap.read

theorem register_cell {broker : MessageBroker} {a : Addr} (h : (s.register t broker).heap.cell a = some m) :
    s.heap.cell a = some m := by
  unfold register setBroker releaseOld at h
  dsimp only at h
  cases hold : s.brokers.lookup t with
  | none =>
    rw [hold] at h
    exact h
  | some old =>
    rw [hold] at h
    dsimp only [Option.elim] at h
    unfold release at h
    split at h
    · exact h
    · exact Heap.cell_of_free h

/-- What a sender posts for a single URL. -/
theorem post_posted {now : Int} {url content : Bytes} {dumped : Bool} {f : MessageBuffer → MessageBuffer}
    (hcontent : content ≠ []) (h : s.post now t [url] content dumped f = .ok s') (hposted : s'.posted t = some m) :
    ∃ m₀, m = f m₀ := by
  obtain ⟨mq, s₁, hprep, rfl⟩ := post_eq_ok h
  obtain ⟨⟨buf, s₂⟩, hmsg, hprep⟩ := bind_eq_ok.mp hprep
  dsimp only at hprep
  obtain ⟨rfl, rfl⟩ := Prod.mk.inj (Except.ok.inj hprep)
  rcases message_spec hmsg with ⟨-, -, hnil⟩ | ⟨m₀, heap, rfl, rfl, -, hcell, -⟩
  · exact absurd hnil hcontent
  · have hlookup : (register { s with nextBroker := s.nextBroker + 1, messageId := s.messageId + 1, heap := heap } t
        ⟨s.nextBroker, [some s.heap.next]⟩).brokers.lookup t = some ⟨s.nextBroker, [some s.heap.next]⟩ := by
      obtain ⟨heap', heq, -⟩ := register_spec
        { s with nextBroker := s.nextBroker + 1, messageId := s.messageId + 1, heap := heap } t
        ⟨s.nextBroker, [some s.heap.next]⟩
      rw [heq]
      exact AList.lookup_insert _
    unfold posted at hposted
    rw [hlookup] at hposted
    have hfresh := register_cell hposted
    rw [if_neg hcontent] at hcell
    exact ⟨m₀, Option.some.inj (hfresh.symm.trans hcell)⟩

theorem holds_fulfill (hreq : Bringing t callback req) (ht : inInt t) (hopen : callback.resolved = false)
    (hholds : s.Holds t) :
    ∃ ms, ms ≠ [] ∧ fulfill average s req = fulfillRicochet average s req t callback ms := by
  obtain ⟨broker, ms, hbroker, hdump, hne⟩ := hholds
  refine ⟨ms, hne, ?_⟩
  have hticket : stoi (req.header ticketText) = .ok t := by
    rw [hreq.ticket]
    exact stoi_toText ht
  unfold fulfill
  rw [hticket]
  dsimp only [bind, Except.bind]
  rw [hbroker]
  dsimp only
  rw [hdump]
  dsimp only
  rw [hreq.callback]
  dsimp only
  rw [if_neg (by rw [hopen]; exact Bool.false_ne_true), if_pos hreq.type]

/-- A node that has a broker for the ticket answers a ricochet. -/
theorem job_returns (hreq : Bringing t callback req) (ht : inInt t) (hopen : callback.resolved = false)
    (hholds : s.Holds t) (hcount : callback.count ≠ callback.limit → callback.satellite = false → inInt (callback.count + 1)) :
    ∃ out s', job average s req = .ok (out, s') := by
  obtain ⟨ms, hne, hfulfill⟩ : ∃ ms, ms ≠ [] ∧ fulfill average s req = _ := holds_fulfill hreq ht hopen hholds
  obtain ⟨⟨out, s₁⟩, hric⟩ := (fulfillRicochet_isOk_iff average s req t callback ms).mpr ⟨hne, hcount⟩
  unfold job
  rw [hfulfill, hric]
  exact ⟨out, _, rfl⟩

/-- What a node does with a ricochet: it records a latency, and returns the callback or resolves it. -/
theorem job_ricochet {out : Fulfilled} (hreq : Bringing t callback req) (ht : inInt t)
    (hopen : callback.resolved = false)
    (hholds : s.Holds t) (h : job average s req = .ok (out, s')) :
    ∃ latency, s'.latencies t = s.latencies t ++ [latency] ∧ out.status = 2 ∧
      (callback.count ≠ callback.limit → ∃ callback', bounced callback = .ok callback' ∧
        out.request = { req with callback := some callback' }) ∧
      (callback.count = callback.limit →
        out.request.callback = some { callback with resolved := true } ∧
        (callback.fn = lit "AVG" → out.request.content = average (s'.latencies t))) := by
  obtain ⟨ms, hne, hfulfill⟩ : ∃ ms, ms ≠ [] ∧ fulfill average s req = _ := holds_fulfill hreq ht hopen hholds
  obtain ⟨⟨out, s₁⟩, hric, h⟩ := bind_eq_ok.mp h
  obtain ⟨rfl, rfl⟩ := Prod.mk.inj (Except.ok.inj h)
  rw [hfulfill] at hric
  obtain ⟨first, rest, rfl⟩ := List.exists_cons_of_ne_nil hne
  refine ⟨first.latency, ?_⟩
  unfold fulfillRicochet at hric
  dsimp only at hric ⊢
  by_cases hcount : callback.count ≠ callback.limit
  · rw [if_pos hcount] at hric
    obtain ⟨callback', hbounced, hric⟩ := bind_eq_ok.mp hric
    obtain ⟨rfl, rfl⟩ := Prod.mk.inj (Except.ok.inj hric)
    exact ⟨Function.update_self .., rfl, fun _ => ⟨callback', hbounced, rfl⟩, fun hsame => absurd hsame hcount⟩
  · rw [if_neg hcount] at hric
    obtain ⟨rfl, rfl⟩ := Prod.mk.inj (Except.ok.inj hric)
    refine ⟨Function.update_self .., rfl, fun hne => absurd hne hcount, fun _ => ⟨rfl, fun hfn => ?_⟩⟩
    dsimp only
    rw [if_pos hfn, Function.update_self]

/-! A ticket's latencies are recorded by requests that carry it, and by nothing else. -/

theorem fulfillRicochet_latencies {ms : List MessageBuffer} {out : Fulfilled} {t' : Int}
    (h : fulfillRicochet average s req t' callback ms = .ok (out, s')) (hne : t ≠ t') :
    s'.latencies t = s.latencies t := by
  cases ms with
  | nil => cases h
  | cons first rest =>
    unfold fulfillRicochet at h
    dsimp only at h
    by_cases hcount : callback.count ≠ callback.limit
    · rw [if_pos hcount] at h
      obtain ⟨callback', -, h⟩ := bind_eq_ok.mp h
      obtain ⟨rfl, rfl⟩ := Prod.mk.inj (Except.ok.inj h)
      exact Function.update_of_ne hne ..
    · rw [if_neg hcount] at h
      obtain ⟨rfl, rfl⟩ := Prod.mk.inj (Except.ok.inj h)
      exact Function.update_of_ne hne ..

theorem fulfill_latencies {out : Fulfilled} {t' : Int} (h : fulfill average s req = .ok (out, s'))
    (hticket : stoi (req.header ticketText) = .ok t') (hne : t ≠ t') : s'.latencies t = s.latencies t := by
  have hspec := fulfill_spec h
  obtain ⟨t₁, ht₁, hcase⟩ := hspec
  obtain rfl := Except.ok.inj (ht₁.symm.trans hticket)
  cases hcase with
  | unbound hb => rfl
  | simple hb hc hs =>
    obtain ⟨heap, heq, -⟩ := erase_spec s t₁
    rw [heq]
  | waiting hb hc hs hid hcollect =>
    obtain ⟨heap, rfl, -⟩ := collect_spec hcollect
    rfl
  | barrier hb hc hs hid hcollect =>
    obtain ⟨heap, rfl, -⟩ := collect_spec hcollect
    obtain ⟨heap', heq, -⟩ := erase_spec { s with heap := heap } t₁
    rw [heq]
  | resolved hb hc hr =>
    obtain ⟨heap, heq, -⟩ := erase_spec s t₁
    rw [heq]
  | ricochet hb hc hr htype =>
    obtain ⟨t₂, ht₂, h⟩ := bind_eq_ok.mp h
    obtain rfl := Except.ok.inj (ht₁.symm.trans ht₂)
    rw [hb] at h
    obtain ⟨ms, -, h⟩ := bind_eq_ok.mp h
    rw [hc] at h
    dsimp only at h
    rw [if_neg (by rw [hr]; exact Bool.false_ne_true), if_pos htype] at h
    exact fulfillRicochet_latencies h hne
  | ignored hb hi => rfl

theorem releaseOld_latencies (s : Bifrost) (old : Option MessageBroker) :
    (releaseOld s old).latencies = s.latencies := by
  obtain ⟨heap, heq, -⟩ := releaseOld_spec s old
  rw [heq]

theorem cleanse_latencies {now : Int} (h : s.cleanse now = .ok s') : s'.latencies = s.latencies := by
  obtain ⟨s₁, hbrokers, hfnfs⟩ := bind_eq_ok.mp h
  have h₁ : s₁.latencies = s.latencies := by
    refine foldlM_ok (P := fun u => u.latencies = s.latencies) (fun u v entry _ hu hv => ?_) hbrokers rfl
    obtain ⟨-, rfl⟩ | rfl := cleanseBroker_spec hv
    · exact (releaseOld_latencies _ _).trans hu
    · exact hu
  refine foldlM_ok (P := fun u => u.latencies = s.latencies) (fun u v a _ hu hv => ?_) hfnfs h₁
  obtain ⟨m, -, ⟨-, rfl⟩ | rfl⟩ := cleanseFnf_spec hv
  · exact hu
  · exact hu

theorem move_latencies {l : Step × Result} (h : Move average s l s')
    (hl : ∀ req, l.1 = .fulfill req → ¬ Carries t req) : s'.latencies t = s.latencies t := by
  obtain ⟨e, r⟩ := l
  cases step_spec h with
  | issue he hf ht hpost =>
    obtain ⟨mq, id, heap, rfl, -⟩ := post_spec hf hpost
    rfl
  | ricochetReply hf hpost =>
    obtain ⟨mq, id, heap, rfl, -⟩ := post_spec hf hpost
    rfl
  | reply hreply =>
    obtain ⟨m, id, rfl, -⟩ := reply_spec hreply
    rfl
  | @fulfill req t' out s₁ n ht hcase hn =>
    have hne : t ≠ t' := fun heq => hl req rfl (heq ▸ ht)
    obtain ⟨x, hjob, hlabel⟩ := map_eq_ok.mp h
    obtain ⟨⟨out₁, s₂⟩, hfulfill, hjob⟩ := bind_eq_ok.mp hjob
    have hsame := fulfill_latencies hfulfill ht hne
    rw [← (Prod.mk.inj hlabel).2, ← Except.ok.inj hjob]
    exact hsame
  | deleteRequest => rfl
  | cleanse hcleanse => exact congrFun (cleanse_latencies hcleanse) t
  | work hcase =>
    cases hcase with
    | idle | publish | refuse | complete | close => rfl
    | unlock hj hp => exact congrFun (releaseOld_latencies _ _) t

end Bifrost
end Jericho.Message
