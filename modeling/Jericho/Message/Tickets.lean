import Jericho.Message.Steps

/-! Tickets: which steps can take a broker out of the table, and how often a ticket resolves. -/
namespace Jericho.Message
open StdText Util Server Runs

/-- A request that carries a ticket. -/
def Carries (t : Int) (req : Request) : Prop := stoi (req.header ticketText) = .ok t

instance (t : Int) (req : Request) : Decidable (Carries t req) := inferInstanceAs (Decidable (_ = _))

/-- The steps that may remove the broker of a ticket. -/
def Step.Removes (t : Int) : Step → Prop
  | .fulfill req => Carries t req
  | .cleanse _ => True
  | _ => False

/-- The step that registers a broker under a ticket it did not issue. -/
def Step.Replaces (t : Int) : Step → Prop
  | .ricochetReply _ _ _ _ _ _ ticket => ticket = t
  | _ => False

instance (t : Int) (e : Step) : Decidable (e.Replaces t) := by
  cases e <;> unfold Step.Replaces <;> infer_instance

/-- A label at which a ticket was issued, registered again, resolved. -/
def issues (t : Int) : Step × Result → Bool
  | (_, .ticket t') => t' = t
  | _ => false

def replaces (t : Int) (l : Step × Result) : Bool := l.1.Replaces t

def resolves (t : Int) : Step × Result → Bool
  | (.fulfill req, .fulfilled out) => Carries t req ∧ out.status = 1
  | _ => false

namespace Bifrost
variable {average : List UInt64 → Bytes}

theorem lookup_erase_of_ne {s : Bifrost} {t t' : Int} (h : t' ≠ t) :
    (s.erase t).brokers.lookup t' = s.brokers.lookup t' := by
  obtain ⟨heap, heq, -⟩ := erase_spec s t
  rw [heq]
  exact AList.lookup_erase_ne h

theorem lookup_erase_self (s : Bifrost) (t : Int) : (s.erase t).brokers.lookup t = none := by
  obtain ⟨heap, heq, -⟩ := erase_spec s t
  rw [heq]
  exact AList.lookup_erase _ _

/-- Nothing was issued, registered or allocated, and no job moved. -/
structure Shrinks (s s' : Bifrost) : Prop where
  ticketId : s'.ticketId = s.ticketId
  nextBroker : s'.nextBroker = s.nextBroker
  next : s'.heap.next = s.heap.next
  jobs : s'.jobs = s.jobs
  lookup : ∀ t, s'.brokers.lookup t = s.brokers.lookup t ∨ s'.brokers.lookup t = none

theorem Shrinks.refl (s : Bifrost) : Shrinks s s := ⟨rfl, rfl, rfl, rfl, fun _ => .inl rfl⟩

theorem Shrinks.trans {s₁ s₂ s₃ : Bifrost} (h : Shrinks s₁ s₂) (h' : Shrinks s₂ s₃) : Shrinks s₁ s₃ := by
  refine ⟨h'.ticketId.trans h.ticketId, h'.nextBroker.trans h.nextBroker, h'.next.trans h.next, h'.jobs.trans h.jobs,
    fun t => ?_⟩
  rcases h'.lookup t with heq | hnone
  · rw [heq]
    exact h.lookup t
  · exact .inr hnone

theorem shrinks_erase (s : Bifrost) (t : Int) : Shrinks s (s.erase t) := by
  have hlookup : ∀ t', (s.erase t).brokers.lookup t' = s.brokers.lookup t' ∨ (s.erase t).brokers.lookup t' = none := by
    intro t'
    by_cases h : t' = t
    · rw [h]
      exact .inr (lookup_erase_self s t)
    · exact .inl (lookup_erase_of_ne h)
  obtain ⟨heap, heq, hnext, -⟩ := erase_spec s t
  refine ⟨?_, ?_, ?_, ?_, hlookup⟩
  all_goals rw [heq]
  exact hnext

theorem Shrinks.owners {s s' : Bifrost} (h : Shrinks s s') {o : MessageBroker} (ho : o ∈ s'.owners) : o ∈ s.owners := by
  rw [mem_owners, h.jobs] at ho
  refine mem_owners.mpr (ho.imp_left ?_)
  rintro ⟨t, ht⟩
  rcases h.lookup t with heq | hnone
  · exact ⟨t, heq.symm.trans ht⟩
  · cases hnone.symm.trans ht

/-- A call of `fulfill` leaves the other tickets alone, and removes its own if it resolves it. -/
theorem fulfill_table {s s₁ : Bifrost} {req : Request} {t : Int} {out : Fulfilled} (h : FulfillCase s req t out s₁) :
    Shrinks s s₁ ∧ (∀ t', t' ≠ t → s₁.brokers.lookup t' = s.brokers.lookup t') ∧
      (out.status = 1 → (s.brokers.lookup t).isSome ∧ s₁.brokers.lookup t = none) := by
  have hstatus : ∀ n : Int, n ≠ 1 → (n = 1 → (s.brokers.lookup t).isSome ∧ s₁.brokers.lookup t = none) :=
    fun n hn h1 => absurd h1 hn
  cases h with
  | unbound hb => exact ⟨.refl s, fun _ _ => rfl, hstatus 0 (by decide)⟩
  | simple hb hc ht =>
    exact ⟨shrinks_erase s t, fun _ => lookup_erase_of_ne, fun _ => ⟨by rw [hb]; rfl, lookup_erase_self s t⟩⟩
  | waiting hb hc ht hid hcollect =>
    obtain ⟨heap, rfl, hnext, -⟩ := collect_spec hcollect
    exact ⟨⟨rfl, rfl, hnext, rfl, fun _ => .inl rfl⟩, fun _ _ => rfl, hstatus 0 (by decide)⟩
  | barrier hb hc ht hid hcollect =>
    obtain ⟨heap, rfl, hnext, -⟩ := collect_spec hcollect
    have hcells : Shrinks s { s with heap := heap } := ⟨rfl, rfl, hnext, rfl, fun _ => .inl rfl⟩
    refine ⟨hcells.trans (shrinks_erase _ t), fun t' h => ?_, fun _ => ⟨by rw [hb]; rfl, lookup_erase_self _ t⟩⟩
    rw [lookup_erase_of_ne h]
  | resolved hb hc hr => exact ⟨shrinks_erase s t, fun _ => lookup_erase_of_ne, hstatus 2 (by decide)⟩
  | ricochet hb hc hr ht => exact ⟨⟨rfl, rfl, rfl, rfl, fun _ => .inl rfl⟩, fun _ _ => rfl, hstatus 2 (by decide)⟩
  | ignored hb => exact ⟨.refl s, fun _ _ => rfl, hstatus 0 (by decide)⟩

theorem cleanse_table {s s' : Bifrost} {now : Int} (h : s.cleanse now = .ok s') : Shrinks s s' := by
  obtain ⟨s₁, hbrokers, hfnfs⟩ := bind_eq_ok.mp h
  have h₁ : Shrinks s s₁ := by
    refine foldlM_ok (fun u v entry _ hu hv => ?_) hbrokers (Shrinks.refl s)
    obtain ⟨-, rfl⟩ | rfl := cleanseBroker_spec hv
    · exact hu.trans (shrinks_erase u _)
    · exact hu
  refine foldlM_ok (fun u v a _ hu hv => ?_) hfnfs h₁
  obtain ⟨m, -, ⟨-, rfl⟩ | rfl⟩ := cleanseFnf_spec hv
  · exact hu.trans ⟨rfl, rfl, rfl, rfl, fun _ => .inl rfl⟩
  · exact hu

theorem mem_owners_setJob {s : Bifrost} {i : Nat} {job : Job} {o : MessageBroker}
    (h : o ∈ (s.setJob i job).owners) : o ∈ s.owners ∨ job.lock = some o := by
  rcases mem_owners.mp h with hb | ⟨x, hx, hlock⟩
  · exact .inl (mem_owners.mpr (.inl hb))
  · rcases List.mem_or_eq_of_mem_set hx with hx | rfl
    · exact .inl (mem_owners.mpr (.inr ⟨x, hx, hlock⟩))
    · exact .inr hlock

theorem mem_owners_of_lockBroker {s : Bifrost} {m : MessageBuffer} {o : MessageBroker}
    (h : s.lockBroker m = some o) : o ∈ s.owners := by
  obtain ⟨k, -, hfind⟩ := Option.bind_eq_some_iff.mp h
  exact List.mem_of_find?_eq_some hfind

/-- A fetch job changes no table and allocates nothing; what it locks has an owner already. -/
theorem work_table {s s' : Bifrost} {i : Nat} {got : FetchResult} (h : WorkCase s i got s') :
    s'.ticketId = s.ticketId ∧ s'.nextBroker = s.nextBroker ∧ s'.heap.next = s.heap.next ∧ s'.brokers = s.brokers ∧
      ∀ o ∈ s'.owners, o ∈ s.owners := by
  have hset : ∀ job : Job, (∀ o, job.lock = some o → o ∈ s.owners) → ∀ o ∈ (s.setJob i job).owners, o ∈ s.owners :=
    fun _ hlock o ho => (mem_owners_setJob ho).elim id (hlock o)
  have hcomplete : ∀ (job : Job) (m : MessageBuffer) (got : FetchResult),
      ∀ o ∈ (s.complete i job m got).owners, o ∈ s.owners :=
    fun job m _ => hset { job with phase := .marking, lock := s.lockBroker m } fun _ => mem_owners_of_lockBroker
  cases h with
  | idle => exact ⟨rfl, rfl, rfl, rfl, fun _ => id⟩
  | publish => exact ⟨rfl, rfl, rfl, rfl, hset _ fun _ => mem_owners_of_lockBroker⟩
  | refuse => exact ⟨rfl, rfl, rfl, rfl, hcomplete _ _ _⟩
  | complete => exact ⟨rfl, rfl, rfl, rfl, hcomplete _ _ _⟩
  | @unlock job phase hj hp =>
    obtain ⟨heap, heq, hnext, -⟩ := releaseOld_spec (s.setJob i { job with phase := phase, lock := none }) job.lock
    unfold unlock
    rw [heq]
    exact ⟨rfl, rfl, hnext, rfl, hset { job with phase := phase, lock := none } fun _ h => nomatch h⟩
  | @close job hj hp =>
    exact ⟨rfl, rfl, rfl, rfl, hset _ fun o ho => mem_owners.mpr (.inr ⟨job, List.mem_of_getElem? hj, ho⟩)⟩

theorem ticketId_step {s s' : Bifrost} {e : Step} {r : Result} (h : StepCase s e r s') : s.ticketId ≤ s'.ticketId := by
  cases h with
  | issue he hf ht h =>
    obtain ⟨mq, id, heap, rfl, -⟩ := post_spec hf h
    dsimp only
    omega
  | ricochetReply hf h =>
    obtain ⟨mq, id, heap, rfl, -⟩ := post_spec hf h
    exact le_rfl
  | reply h =>
    obtain ⟨m, id, rfl, -, hle⟩ := reply_spec h
    exact hle
  | fulfill ht hcase hn => exact (fulfill_table hcase).1.ticketId.ge
  | deleteRequest => exact le_rfl
  | cleanse h => exact (cleanse_table h).ticketId.ge
  | work hcase => exact (work_table hcase).1.ge

/-- An issued ticket is the next number, and bound. -/
theorem issue_step {s s' : Bifrost} {e : Step} {t : Int} (h : StepCase s e (.ticket t) s') :
    t = s.ticketId + 1 ∧ s'.ticketId = t ∧ ∃ b, s'.brokers.lookup t = some b := by
  cases h with
  | issue he hf ht h =>
    obtain ⟨mq, id, heap, rfl, -⟩ := post_spec hf h
    exact ⟨ht, rfl, _, AList.lookup_insert _⟩

/-- The entry of a ticket stays, or a step removes it that names the ticket or cleanses, or the
ticket is issued, or a `ricochet_reply` takes the place. -/
theorem lookup_step {s s' : Bifrost} {e : Step} {r : Result} (h : StepCase s e r s') (t : Int) :
    s'.brokers.lookup t = s.brokers.lookup t ∨ s'.brokers.lookup t = none ∧ e.Removes t ∨
      r = .ticket t ∨ e.Replaces t := by
  cases h with
  | @issue e now t' urls content dumped f s' he hf ht h =>
    obtain ⟨mq, id, heap, rfl, -⟩ := post_spec hf h
    by_cases heq : t = t'
    · exact .inr (.inr (.inl (by rw [heq])))
    · exact .inl (AList.lookup_insert_ne heq)
  | @ricochetReply now t' _ _ _ _ _ _ _ hf h =>
    obtain ⟨mq, id, heap, rfl, -⟩ := post_spec hf h
    by_cases heq : t' = t
    · exact .inr (.inr (.inr heq))
    · exact .inl (AList.lookup_insert_ne (Ne.symm heq))
  | reply h =>
    obtain ⟨m, id, rfl, -, -⟩ := reply_spec h
    exact .inl rfl
  | @fulfill req t' out s₁ n ht hcase hn =>
    obtain ⟨hshrinks, hother, -⟩ := fulfill_table hcase
    by_cases heq : t = t'
    · rcases hshrinks.lookup t with hsame | hnone
      · exact .inl hsame
      · exact .inr (.inl ⟨hnone, by rw [heq]; exact ht⟩)
    · exact .inl (hother t heq)
  | deleteRequest => exact .inl rfl
  | cleanse h =>
    rcases (cleanse_table h).lookup t with hsame | hnone
    · exact .inl hsame
    · exact .inr (.inl ⟨hnone, trivial⟩)
  | work hcase =>
    rw [(work_table hcase).2.2.2.1]
    exact .inl rfl

/-- A step that resolves a ticket finds it bound and leaves it unbound. -/
theorem resolves_step {s s' : Bifrost} {e : Step} {r : Result} (h : StepCase s e r s') {t : Int}
    (hr : resolves t (e, r) = true) : (s.brokers.lookup t).isSome ∧ s'.brokers.lookup t = none := by
  cases h with
  | @fulfill req t' out s₁ n ht hcase hn =>
    obtain ⟨hcarries, hstatus⟩ : Carries t req ∧ out.status = 1 := by simpa [resolves] using hr
    obtain rfl : t = t' := Except.ok.inj (hcarries.symm.trans ht)
    exact (fulfill_table hcase).2.2 hstatus
  | _ => simp [resolves] at hr

/-- A ticket never resolves more often than it was bound, and the present binding is not used up. -/
theorem resolves_le {s u : Bifrost} {ls : List (Step × Result)} (t : Int) (hs : s.brokers.lookup t = none)
    (h : Run (Move average) s ls u) :
    ls.countP (resolves t) + (if (u.brokers.lookup t).isSome then 1 else 0) ≤
      ls.countP (issues t) + ls.countP (replaces t) := by
  refine h.history (P := fun ls u => ls.countP (resolves t) + (if (u.brokers.lookup t).isSome then 1 else 0) ≤
    ls.countP (issues t) + ls.countP (replaces t)) ?_ (by simp [hs])
  intro ls u ⟨e, r⟩ v ih hmove
  have hcase := step_spec hmove
  simp only [List.countP_append, List.countP_singleton]
  by_cases hr : resolves t (e, r) = true
  · obtain ⟨hbound, hnone⟩ := resolves_step hcase hr
    rw [if_pos hbound] at ih
    simp only [hr, hnone, if_true, Option.isSome_none, Bool.false_eq_true, if_false]
    omega
  · rw [if_neg hr]
    rcases lookup_step hcase t with hsame | ⟨hnone, -⟩ | hticket | hreplaces
    · rw [hsame]
      omega
    · rw [hnone]
      simp only [Option.isSome_none, Bool.false_eq_true, if_false]
      omega
    · obtain rfl : r = .ticket t := hticket
      have hi : issues t (e, .ticket t) = true := by simp [issues]
      rw [if_pos hi]
      split_ifs at ih ⊢ <;> omega
    · have hp : replaces t (e, r) = true := by simp [replaces, hreplaces]
      rw [if_pos hp]
      split_ifs at ih ⊢ <;> omega

/-- Every number is issued at most once. -/
theorem issues_le_one {s u : Bifrost} {ls : List (Step × Result)} (t : Int) (h : Run (Move average) s ls u) :
    ls.countP (issues t) ≤ 1 := by
  have hbelow : ls.countP (issues t) + (if u.ticketId < t then 1 else 0) ≤ 1 := by
    refine h.history (P := fun ls u => ls.countP (issues t) + (if u.ticketId < t then 1 else 0) ≤ 1) ?_
      (by rw [List.countP_nil]; split_ifs <;> omega)
    intro ls u ⟨e, r⟩ v ih hmove
    have hcase := step_spec hmove
    have hmono := ticketId_step hcase
    rw [List.countP_append, List.countP_singleton]
    by_cases hi : issues t (e, r) = true
    · obtain rfl : r = .ticket t := by
        cases r with
        | ticket t' => exact congrArg Result.ticket (by simpa [issues] using hi)
        | _ => simp [issues] at hi
      obtain ⟨hnext, hid, -⟩ := issue_step hcase
      rw [if_pos hi]
      rw [if_pos (by omega)] at ih
      rw [if_neg (by omega)]
      omega
    · rw [if_neg hi]
      split_ifs at ih ⊢ <;> omega
  omega

/-- How a request resolves a ticket: by its own type, and without a callback. -/
inductive Resolution (s : Bifrost) (t : Int) (req : Request) (out : Fulfilled) : Prop
  | simple (hc : req.callback = none) (ht : req.header brokerType = lit "simple")
      (hr : out.response = some req.content)
  | broadcast {b : MessageBroker} {id : Int} {s₁ : Bifrost} {responses : List (Bytes × Bytes)}
      (hc : req.callback = none) (ht : req.header brokerType = lit "broadcast") (hb : s.brokers.lookup t = some b)
      (hcollect : collect id req.content b.messages s = .ok (s₁, true, responses))
      (hr : out.response = some (batchSerialize responses))

theorem resolution_step {s s' : Bifrost} {t : Int} {req : Request} {out : Fulfilled}
    (h : StepCase s (.fulfill req) (.fulfilled out) s') (hcarries : Carries t req) (hstatus : out.status = 1) :
    Resolution s t req out := by
  cases h with
  | fulfill ht hcase hn =>
    obtain rfl := Except.ok.inj (hcarries.symm.trans ht)
    cases hcase with
    | simple hb hc htype => exact .simple hc htype rfl
    | barrier hb hc htype hid hcollect => exact .broadcast hc htype hb hcollect rfl
    | _ => simp at hstatus

/-- After its issue nothing but the named steps changes the entry of a ticket. -/
theorem keep_step {s s' : Bifrost} {t : Int} {l : Step × Result} (hissued : t ≤ s.ticketId)
    (h : Move average s l s') : s'.brokers.lookup t = s.brokers.lookup t ∨
      s'.brokers.lookup t = none ∧ l.1.Removes t ∨ l.1.Replaces t := by
  obtain ⟨e, r⟩ := l
  rcases lookup_step (step_spec h) t with hsame | hremoved | hticket | hreplaced
  · exact .inl hsame
  · exact .inr (.inl hremoved)
  · obtain rfl : r = .ticket t := hticket
    exact absurd (issue_step (step_spec h)).1 (by omega)
  · exact .inr (.inr hreplaced)

theorem keep_run {s u : Bifrost} {t : Int} {b : MessageBroker} {ls : List (Step × Result)} (hissued : t ≤ s.ticketId)
    (hb : s.brokers.lookup t = some b) (h : Run (Move average) s ls u) :
    t ≤ u.ticketId ∧ ((∀ l ∈ ls, ¬ l.1.Removes t ∧ ¬ l.1.Replaces t) → u.brokers.lookup t = some b) := by
  refine h.history (P := fun ls u => t ≤ u.ticketId ∧
    ((∀ l ∈ ls, ¬ l.1.Removes t ∧ ¬ l.1.Replaces t) → u.brokers.lookup t = some b)) ?_ ⟨hissued, fun _ => hb⟩
  intro ls v l w ⟨hle, ih⟩ hmove
  refine ⟨hle.trans (ticketId_step (step_spec hmove)), fun hfree => ?_⟩
  have hv := ih fun l' hl' => hfree l' (List.mem_append_left _ hl')
  obtain ⟨hremoves, hreplaces⟩ := hfree l (List.mem_append_right _ (List.mem_singleton_self l))
  rcases keep_step hle hmove with hsame | ⟨-, hremoved⟩ | hreplaced
  · exact hsame.trans hv
  · exact absurd hremoved hremoves
  · exact absurd hreplaced hreplaces

/-- Ticket ownership. The broker registered under an issued ticket stays as it is until a
`fulfill` that carries the ticket or a `cleanse` removes it, or a `ricochet_reply` that names the
ticket replaces it. Which rules resolve a ticket is decided by the type in the request, whatever
sender registered it; and it resolves once, and once more for each `ricochet_reply` that named it. -/
theorem ticket_ownership {host port : Bytes} {ls : List (Step × Result)} {s s₁ : Bifrost} {e : Step} {t : Int}
    (hrun : Run (Move average) (start host port) ls s) (hissue : Move average s (e, .ticket t) s₁) :
    ∃ b, s₁.brokers.lookup t = some b ∧ ∀ ls' u, Run (Move average) s₁ ls' u →
      ((∀ l ∈ ls', ¬ l.1.Removes t ∧ ¬ l.1.Replaces t) → u.brokers.lookup t = some b) ∧
      (∀ l v, Move average u l v → v.brokers.lookup t = u.brokers.lookup t ∨
        v.brokers.lookup t = none ∧ l.1.Removes t ∨ l.1.Replaces t) ∧
      (∀ req out v, Move average u (.fulfill req, .fulfilled out) v → Carries t req → out.status = 1 →
        Resolution u t req out) ∧
      (ls ++ (e, .ticket t) :: ls').countP (resolves t) ≤
        1 + (ls ++ (e, .ticket t) :: ls').countP (replaces t) := by
  obtain ⟨-, hid, b, hb⟩ := issue_step (step_spec hissue)
  refine ⟨b, hb, fun ls' u hrun' => ?_⟩
  obtain ⟨hissued, hbound⟩ := keep_run hid.ge hb hrun'
  have hall : Run (Move average) (start host port) (ls ++ (e, .ticket t) :: ls') u := by
    rw [List.append_cons]
    exact (hrun.snoc hissue).trans hrun'
  have hle := resolves_le t (AList.lookup_empty _) hall
  have hone := issues_le_one t hall
  exact ⟨hbound, fun l v => keep_step hissued, fun req out v hmove => resolution_step (step_spec hmove), by omega⟩

/-- The first message of a node keeps its ticket through every step that does not name it. -/
theorem ticket_ownership_send : ∃ s₁ b,
    Move (fun _ => []) (start (lit "a") (lit "80")) (.sendAsync 0 peer (lit "x") none, .ticket 0) s₁ ∧
    s₁.brokers.lookup 0 = some b ∧ ∀ ls' u, Run (Move fun _ => []) s₁ ls' u →
      (∀ l ∈ ls', ¬ l.1.Removes 0 ∧ ¬ l.1.Replaces 0) → u.brokers.lookup 0 = some b := by
  have hissue : ∃ s₁, Move (fun _ => []) (start (lit "a") (lit "80"))
      (.sendAsync 0 peer (lit "x") none, .ticket 0) s₁ := ⟨_, rfl⟩
  obtain ⟨s₁, hissue⟩ := hissue
  obtain ⟨b, hb, hall⟩ := ticket_ownership .nil hissue
  exact ⟨s₁, b, hissue, hb, fun ls' u hrun => (hall ls' u hrun).1⟩

/-- A `ricochet_reply` with a foreign ticket 0 takes the place of the broker of the own ticket 0; and
a broadcast to two nodes is resolved by the first request that calls itself simple. -/
theorem ticket_taken :
    (∃ s₁ s₂ b b', Move (fun _ => []) (start (lit "a") (lit "80")) (.sendAsync 0 peer (lit "x") none, .ticket 0) s₁ ∧
      Move (fun _ => []) s₁ (.ricochetReply 0 (jobRequest (lit "0") (lit "ricochet") [] []) peer (lit "x") none
        (lit "ricochet") 0, .done) s₂ ∧
      s₁.brokers.lookup 0 = some b ∧ s₂.brokers.lookup 0 = some b' ∧ b ≠ b') ∧
    ∃ s₁ s₂ out, Move (fun _ => []) (start (lit "a") (lit "80"))
        (.broadcastAsync 0 [peer, peer] (lit "x"), .ticket 0) s₁ ∧
      Move (fun _ => []) s₁ (.fulfill (jobRequest (lit "0") (lit "simple") (lit "0") (lit "y")), .fulfilled out) s₂ ∧
      out.status = 1 :=
  ⟨⟨_, _, ⟨0, [some 0]⟩, ⟨1, [some 1]⟩, rfl, rfl, rfl, rfl, by decide⟩, _, _, _, rfl, rfl, rfl⟩

end Bifrost
end Jericho.Message
