import Jericho.Library.Runs
import Jericho.Message.Bounce

/-! The ricochet between the node that started it and its peer. -/
namespace Jericho.Message
open StdText Util Server Runs

inductive Side where
  | originator
  | peer
  deriving DecidableEq

def Side.other : Side → Side
  | .originator => .peer
  | .peer => .originator

@[simp] theorem Side.other_other (side : Side) : side.other.other = side := by cases side <;> rfl

/-- `PingRicochet`, while the callback is not resolved. -/
def pingRicochet (s : Bifrost) (now : Int) (req : Request) (callback : Callback) : Exec Bifrost := do
  let ticket ← stoi (req.header ticketText)
  s.ricochetReply now req (req.reply (lit "job") callback.endpoint) (lit "null") (some callback)
    (lit "ricochet") ticket

theorem pingRicochet_spec {s s' : Bifrost} {now t : Int} {req : Request} {callback : Callback} {m : MessageBuffer}
    (hreq : Bringing t callback req) (ht : inInt t) (hcount : inInt callback.count) (hlimit : inInt callback.limit)
    (h : pingRicochet s now req callback = .ok s') (hposted : s'.posted t = some m) :
    Carrying t callback m ∧ s'.latencies = s.latencies := by
  obtain ⟨ticket, hticket, h⟩ := bind_eq_ok.mp h
  rw [hreq.ticket, stoi_toText ht] at hticket
  obtain rfl := Except.ok.inj hticket
  constructor
  · obtain ⟨m₀, rfl⟩ := Bifrost.post_posted (by decide) h hposted
    refine carrying_fill _ ?_ rfl hcount hlimit m₀
    rw [hreq.ticket]
    rfl
  · obtain ⟨mq, id, heap, rfl, -⟩ := Bifrost.post_spec (Bifrost.fills_fill _ _ _ _) h
    rfl

theorem ricochetAsync_spec {s s' : Bifrost} {now t : Int} {url content : Bytes} {callback : Callback}
    {m : MessageBuffer}
    (hcontent : content ≠ []) (hcount : inInt callback.count) (hlimit : inInt callback.limit)
    (h : s.ricochetAsync now url content (some callback) = .ok (t, s')) (hposted : s'.posted t = some m) :
    inInt t ∧ Carrying t callback m ∧ s'.latencies = s.latencies := by
  obtain ⟨ticket, hticket, h⟩ := bind_eq_ok.mp h
  obtain ⟨s₁, hpost, h⟩ := bind_eq_ok.mp h
  obtain ⟨rfl, rfl⟩ := Prod.mk.inj (Except.ok.inj h)
  refine ⟨(Bifrost.increment_spec hticket).2, ?_, ?_⟩
  · obtain ⟨m₀, rfl⟩ := Bifrost.post_posted hcontent hpost hposted
    exact carrying_fill _ rfl rfl hcount hlimit m₀
  · obtain ⟨mq, id, heap, rfl, -⟩ := Bifrost.post_spec (Bifrost.fills_fill _ _ _ _) hpost
    rfl

/-- The two nodes, the messages on their way to each of them, and the requests each has still to
answer. -/
structure Exchange where
  node : Side → Bifrost
  flight : Side → List MessageBuffer := fun _ => []
  owed : Side → List Request := fun _ => []

namespace Exchange

inductive Event where
  | fulfill (side : Side) (req : Request) (out : Fulfilled)
  | reply (side : Side)
  | other (side : Side) (l : Message.Step × Result)

/-- With status 2 a request is served, and one whose callback is not resolved is answered. -/
def owes (out : Fulfilled) : List Request :=
  match out.request.callback with
  | some callback => if out.status = 2 ∧ callback.resolved = false then [out.request] else []
  | none => []

variable (average : List UInt64 → Bytes) (t : Int)

/-- Messages come in order, to a node that has a broker for the ticket; what is left to answer is
answered. Between these steps the nodes may do anything but take requests with the ticket. -/
inductive Step (p : Exchange) : Event → Exchange → Prop
  | fulfill {side : Side} {m : MessageBuffer} {rest : List MessageBuffer} {req : Request} {out : Fulfilled}
      {s' : Bifrost} (hflight : p.flight side = m :: rest) (harrived : Delivered m req)
      (hholds : (p.node side).Holds t) (h : (p.node side).job average req = .ok (out, s')) :
      Step p (.fulfill side req out)
        { node := Function.update p.node side s'
          flight := Function.update p.flight side rest
          owed := Function.update p.owed side (p.owed side ++ owes out) }
  | reply {side : Side} {req : Request} {rest : List Request} {now : Int} {callback : Callback} {s' : Bifrost}
      {m : MessageBuffer} (howed : p.owed side = req :: rest) (hc : req.callback = some callback)
      (h : pingRicochet (p.node side) now req callback = .ok s') (hposted : s'.posted t = some m) :
      Step p (.reply side)
        { node := Function.update p.node side s'
          flight := Function.update p.flight side.other (p.flight side.other ++ [m])
          owed := Function.update p.owed side rest }
  | other {side : Side} {l : Message.Step × Result} {s' : Bifrost} (h : Bifrost.Move average (p.node side) l s')
      (hl : ∀ req, l.1 = .fulfill req → ¬ Carries t req) :
      Step p (.other side l) { p with node := Function.update p.node side s' }

/-- The originator has called `ricochet_async`, and its message is on the way. -/
inductive Start (callback : Callback) : Exchange → Prop
  | ricochetAsync {s s' peer : Bifrost} {now : Int} {url content : Bytes} {m : MessageBuffer} (hcontent : content ≠ [])
      (hnone : s.latencies t = []) (h : s.ricochetAsync now url content (some callback) = .ok (t, s'))
      (hposted : s'.posted t = some m) :
      Start callback
        { node := fun side => match side with | .originator => s' | .peer => peer
          flight := Function.update (fun _ => []) .peer [m] }

/-- The calls of `fulfill` in a run, in order. -/
def bounce : Event → Option (Side × Request × Fulfilled)
  | .fulfill side req out => some (side, req, out)
  | _ => none

def bounces (ls : List Event) : List (Side × Request × Fulfilled) := ls.filterMap bounce

/-- Whose turn it is after a number of bounces. -/
def turn (k : Nat) : Side := if k % 2 = 0 then .peer else .originator

theorem turn_succ (k : Nat) : turn (k + 1) = (turn k).other := by
  unfold turn
  rcases Nat.mod_two_eq_zero_or_one k with hk | hk
  · have hnext : (k + 1) % 2 = 1 := by omega
    rw [hk, hnext]
    rfl
  · have hnext : (k + 1) % 2 = 0 := by omega
    rw [hk, hnext]
    rfl

variable {average t} {callback : Callback} {L k : Nat} {p q : Exchange}

/-- Where the callback is after `k` bounces: on its way to the next node, at the last one, or
nowhere any more. -/
inductive Ball (t : Int) (callback : Callback) (L k : Nat) (p : Exchange) : Prop
  | flying {m : MessageBuffer} (hk : k < 2 * L) (hm : Carrying t (ball callback k) m)
      (hflight : p.flight = Function.update (fun _ => []) (turn k) [m]) (howed : p.owed = fun _ => [])
  | held {req : Request} (hk : k < 2 * L) (hreq : Bringing t (ball callback k) req) (hflight : p.flight = fun _ => [])
      (howed : p.owed = Function.update (fun _ => []) (turn k).other [req])
  | gone (hk : k = 2 * L) (hflight : p.flight = fun _ => []) (howed : p.owed = fun _ => [])

/-- What is known of a bounce: it has its number. -/
structure Bounced (callback : Callback) (L i : Nat) (b : Side × Request × Fulfilled) : Prop where
  side : b.1 = turn i
  status : b.2.2.status = 2
  before : b.2.1.callback = some (ball callback i)
  after : b.2.2.request.callback =
    some (if i + 1 = 2 * L then { ball callback i with resolved := true } else ball callback (i + 1))

/-- The invariant of a run. -/
structure Tally (average : List UInt64 → Bytes) (t : Int) (callback : Callback) (L : Nat)
    (bs : List (Side × Request × Fulfilled)) (p : Exchange) : Prop where
  place : Ball t callback L bs.length p
  bounced : ∀ i b, bs[i]? = some b → Bounced callback L i b
  latencies : ((p.node .originator).latencies t).length = bs.length / 2
  average : bs.length = 2 * L → callback.fn = lit "AVG" →
    ∀ b, bs[2 * L - 1]? = some b → b.2.2.request.content = average ((p.node .originator).latencies t)

variable {bs : List (Side × Request × Fulfilled)} {e : Event}

theorem bounced_snoc (h : ∀ i b, bs[i]? = some b → Bounced callback L i b) {b : Side × Request × Fulfilled}
    (hlast : Bounced callback L bs.length b) (i : Nat) (b' : Side × Request × Fulfilled)
    (hi : (bs ++ [b])[i]? = some b') : Bounced callback L i b' := by
  rcases Nat.lt_trichotomy i bs.length with hlt | heq | hgt
  · rw [List.getElem?_append_left hlt] at hi
    exact h i b' hi
  · rw [heq, List.getElem?_concat_length] at hi
    obtain rfl := Option.some.inj hi
    rw [heq]
    exact hlast
  · rw [List.getElem?_eq_none (by rw [List.length_append, List.length_singleton]; omega)] at hi
    cases hi

theorem Ball.flying_of_cons (h : Ball t callback L k p) {side : Side} {m : MessageBuffer} {rest : List MessageBuffer}
    (hflight : p.flight side = m :: rest) :
    k < 2 * L ∧ side = turn k ∧ rest = [] ∧ Carrying t (ball callback k) m ∧
      p.flight = Function.update (fun _ => []) (turn k) [m] ∧ p.owed = fun _ => [] := by
  cases h with
  | @flying m' hk hm hall howed =>
    rw [hall] at hflight
    by_cases hside : side = turn k
    · rw [hside, Function.update_self] at hflight
      obtain ⟨rfl, rfl⟩ := List.cons_eq_cons.mp hflight
      exact ⟨hk, hside, rfl, hm, hall, howed⟩
    · rw [Function.update_of_ne hside] at hflight
      cases hflight
  | held hk hreq hall howed | gone hk hall howed =>
    rw [hall] at hflight
    cases hflight

theorem Ball.held_of_cons (h : Ball t callback L k p) {side : Side} {req : Request} {rest : List Request}
    (howed : p.owed side = req :: rest) :
    k < 2 * L ∧ side = (turn k).other ∧ rest = [] ∧ Bringing t (ball callback k) req ∧
      (p.flight = fun _ => []) ∧ p.owed = Function.update (fun _ => []) (turn k).other [req] := by
  cases h with
  | @held req' hk hreq hall hsome =>
    rw [hsome] at howed
    by_cases hside : side = (turn k).other
    · rw [hside, Function.update_self] at howed
      obtain ⟨rfl, rfl⟩ := List.cons_eq_cons.mp howed
      exact ⟨hk, hside, rfl, hreq, hall, hsome⟩
    · rw [Function.update_of_ne hside] at howed
      cases howed
  | flying hk hm hall hnone | gone hk hall hnone =>
    rw [hnone] at howed
    cases howed

/-- The numbers of a ricochet. -/
structure Limits (t : Int) (callback : Callback) (L : Nat) : Prop where
  ticket : inInt t
  limit : callback.limit = L
  range : inInt L
  unresolved : callback.resolved = false

theorem Limits.ball_count (h : Limits t callback L) (hk : k < 2 * L) : inInt (ball callback k).count := by
  have hrange := h.range
  unfold ball inInt at *
  dsimp only
  omega

theorem count_eq_limit (h : Limits t callback L) (hk : k < 2 * L) :
    (ball callback k).count = (ball callback k).limit ↔ k + 1 = 2 * L := by
  have hcount : (ball callback k).count = ((k + 1) / 2 : Nat) := rfl
  have hlimit : (ball callback k).limit = L := h.limit
  rw [hcount, hlimit]
  omega

theorem owes_resolved {out : Fulfilled} (h : out.request.callback = some callback)
    (hresolved : callback.resolved = true) :
    owes out = [] := by
  unfold owes
  rw [h]
  exact if_neg fun hboth => Bool.false_ne_true (hboth.2.symm.trans hresolved)

theorem owes_unresolved {out : Fulfilled} (h : out.request.callback = some callback) (hopen : callback.resolved = false)
    (hstatus : out.status = 2) : owes out = [out.request] := by
  unfold owes
  rw [h]
  exact if_pos ⟨hstatus, hopen⟩

private theorem update_nil {α : Type} (side : Side) :
    Function.update (fun _ : Side => ([] : List α)) side [] = fun _ => [] :=
  Function.update_eq_self side _

/-- The nodes take turns, so half of the bounces are the originator's. -/
theorem latencies_turn {node : Side → Bifrost} {s' : Bifrost} {latency : UInt64}
    (h : ((node .originator).latencies t).length = k / 2)
    (hlatencies : s'.latencies t = (node (turn k)).latencies t ++ [latency]) :
    ((Function.update node (turn k) s' .originator).latencies t).length = (k + 1) / 2 := by
  unfold turn at *
  rcases Nat.mod_two_eq_zero_or_one k with hk | hk
  · rw [if_pos hk, Function.update_of_ne (by decide), h]
    omega
  · rw [if_neg (by omega)] at hlatencies ⊢
    rw [Function.update_self, hlatencies, List.length_append, h, List.length_singleton]
    omega

theorem turn_last (hk : k + 1 = 2 * L) : turn k = .originator := by
  unfold turn
  rw [if_neg (by omega)]

theorem Tally.fulfill (hl : Limits t callback L) (h : Tally average t callback L bs p) {side : Side} {req : Request}
    {out : Fulfilled} (hstep : Step average t p (.fulfill side req out) q) :
    Tally average t callback L (bs ++ [(side, req, out)]) q := by
  cases hstep with
  | @fulfill _ m rest _ _ s' hflight harrived hholds hjob =>
    obtain ⟨hk, rfl, rfl, hm, hall, hnone⟩ := h.place.flying_of_cons hflight
    have hreq := harrived.bringing hm
    obtain ⟨latency, hlatencies, hstatus, hagain, hdone⟩ := Bifrost.job_ricochet hreq hl.ticket hl.unresolved hholds hjob
    have hlength : (bs ++ [(turn bs.length, req, out)]).length = bs.length + 1 := List.length_append
    have hempty : Function.update p.flight (turn bs.length) [] = fun _ => [] := by
      rw [hall, Function.update_idem, update_nil]
    by_cases hlast : bs.length + 1 = 2 * L
    · obtain ⟨hafter, haverage⟩ := hdone ((count_eq_limit hl hk).mpr hlast)
      have howes := owes_resolved hafter rfl
      refine ⟨?_, bounced_snoc h.bounced ⟨rfl, hstatus, hreq.callback, ?_⟩, ?_, ?_⟩
      · rw [hlength]
        refine .gone hlast hempty ?_
        rw [howes, hnone]
        exact update_nil _
      · rw [if_pos hlast]
        exact hafter
      · rw [hlength]
        exact latencies_turn h.latencies hlatencies
      · intro _ hfn b hb
        have hindex : 2 * L - 1 = bs.length := by omega
        rw [hindex, List.getElem?_concat_length] at hb
        obtain rfl := Option.some.inj hb
        rw [turn_last hlast]
        dsimp only
        rw [Function.update_self]
        exact haverage hfn
    · obtain ⟨callback', hbounced, hrequest⟩ := hagain (mt (count_eq_limit hl hk).mp hlast)
      obtain rfl := Bifrost.bounced_ball hbounced
      have hafter : out.request.callback = some (ball callback (bs.length + 1)) := by rw [hrequest]
      have howes := owes_unresolved hafter hl.unresolved hstatus
      refine ⟨?_, bounced_snoc h.bounced ⟨rfl, hstatus, hreq.callback, ?_⟩, ?_, ?_⟩
      · rw [hlength]
        have hbrings : Bringing t (ball callback (bs.length + 1)) out.request := by
          rw [hrequest]
          exact ⟨hreq.ticket, hreq.type, rfl⟩
        refine .held (by omega) hbrings hempty ?_
        rw [howes, hnone, turn_succ, Side.other_other]
        rfl
      · rw [if_neg hlast]
        exact hafter
      · rw [hlength]
        exact latencies_turn h.latencies hlatencies
      · intro hend
        rw [hlength] at hend
        exact absurd hend hlast

theorem Tally.reply (hl : Limits t callback L) (h : Tally average t callback L bs p) {side : Side}
    (hstep : Step average t p (.reply side) q) : Tally average t callback L bs q := by
  cases hstep with
  | @reply _ req rest now callback' s' m howed hc hping hposted =>
    obtain ⟨hk, rfl, rfl, hreq, hempty, hall⟩ := h.place.held_of_cons howed
    obtain rfl := Option.some.inj (hreq.callback.symm.trans hc)
    have hlimit : inInt (ball callback bs.length).limit := by
      have hsame : (ball callback bs.length).limit = L := hl.limit
      rw [hsame]
      exact hl.range
    obtain ⟨hm, hlatencies⟩ := pingRicochet_spec hreq hl.ticket (hl.ball_count hk) hlimit hping hposted
    have hnode : ∀ side,
        (Function.update p.node (turn bs.length).other s' side).latencies = (p.node side).latencies := by
      intro side
      by_cases hside : side = (turn bs.length).other
      · rw [hside, Function.update_self, hlatencies]
      · rw [Function.update_of_ne hside]
    refine ⟨.flying hk hm ?_ ?_, h.bounced, ?_, ?_⟩
    · rw [hempty, Side.other_other]
      rfl
    · rw [hall, Function.update_idem, update_nil]
    · rw [hnode]
      exact h.latencies
    · rw [hnode]
      exact h.average

theorem Tally.other (h : Tally average t callback L bs p) {side : Side} {l : Message.Step × Result}
    (hstep : Step average t p (.other side l) q) : Tally average t callback L bs q := by
  cases hstep with
  | @other _ _ s' hmove hfree =>
    have hnode : ∀ side', (Function.update p.node side s' side').latencies t = (p.node side').latencies t := by
      intro side'
      by_cases hside : side' = side
      · rw [hside, Function.update_self]
        exact Bifrost.move_latencies hmove hfree
      · rw [Function.update_of_ne hside]
    refine ⟨?_, h.bounced, ?_, ?_⟩
    · cases h.place with
      | flying hk hm hflight howed => exact .flying hk hm hflight howed
      | held hk hreq hflight howed => exact .held hk hreq hflight howed
      | gone hk hflight howed => exact .gone hk hflight howed
    · rw [hnode]
      exact h.latencies
    · rw [hnode]
      exact h.average

theorem Tally.start (hL : 1 ≤ L) (hcount : callback.count = 0) (hsatellite : callback.satellite = false)
    (hlimit : callback.limit = L) (hrange : inInt L) (hopen : callback.resolved = false) (h : Start t callback p) :
    Limits t callback L ∧ Tally average t callback L [] p := by
  cases h with
  | ricochetAsync hcontent hnone hsend hposted =>
    obtain ⟨ht, hm, hlatencies⟩ := ricochetAsync_spec hcontent (by rw [hcount]; decide) (by rw [hlimit]; exact hrange)
      hsend hposted
    refine ⟨⟨ht, hlimit, hrange, hopen⟩, ?_, fun i b hb => (nomatch hb), ?_, fun hzero => ?_⟩
    · refine .flying (by rw [List.length_nil]; omega) ?_ rfl rfl
      rw [List.length_nil, ball_zero hcount hsatellite]
      exact hm
    · dsimp only
      rw [hlatencies, hnone]
      rfl
    · rw [List.length_nil] at hzero
      omega

theorem tally_run (hl : Limits t callback L) (h0 : Tally average t callback L [] p) {ls : List Event}
    (h : Run (Step average t) p ls q) : Tally average t callback L (bounces ls) q := by
  refine Run.history (P := fun ls q => Tally average t callback L (bounces ls) q) ?_ h0 h
  intro ls p e q htally hstep
  have hsnoc : bounces (ls ++ [e]) = bounces ls ++ (bounce e).toList := by
    unfold bounces
    rw [List.filterMap_append]
    cases hb : bounce e <;> simp [hb]
  rw [hsnoc]
  cases e with
  | fulfill side req out => exact htally.fulfill hl hstep
  | reply side =>
    rw [show (bounce (.reply side)).toList = [] from rfl, List.append_nil]
    exact htally.reply hl hstep
  | other side l =>
    rw [show (bounce (.other side l)).toList = [] from rfl, List.append_nil]
    exact htally.other hstep

/-- What a ricochet with a limit does: at most twice as many bounces, the peer first and then in
turn; the peer counts, and the last bounce, at the originator, resolves the callback and means the
latencies of all round trips; until then the next bounce can be made. -/
structure Ricochets (average : List UInt64 → Bytes) (t : Int) (callback : Callback) (L : Nat) (ls : List Event)
    (p : Exchange) : Prop where
  bound : (bounces ls).length ≤ 2 * L
  bounced : ∀ i side req out, (bounces ls)[i]? = some (side, req, out) → side = turn i ∧ out.status = 2 ∧
    ∃ before after : Callback, req.callback = some before ∧ out.request.callback = some after ∧
      before.count = ((i + 1) / 2 : Nat) ∧
      after.count = (if side = .peer then before.count + 1 else before.count) ∧ after.count ≤ L ∧
      before.resolved = false ∧ (after.resolved = true ↔ i + 1 = 2 * L) ∧
      (after.resolved = true → side = .originator)
  mean : (bounces ls).length = 2 * L → ((p.node .originator).latencies t).length = L ∧
    ∃ req out, (bounces ls)[2 * L - 1]? = some (.originator, req, out) ∧
      (callback.fn = lit "AVG" → out.request.content = average ((p.node .originator).latencies t))
  goesOn : (bounces ls).length < 2 * L → (∃ side req, p.owed side = [req]) ∨
    ∃ side m, p.flight side = [m] ∧ ∀ req, Delivered m req → (p.node side).Holds t →
      ∃ out s', (p.node side).job average req = .ok (out, s')

theorem Bounced.counts (hl : Limits t callback L) {i : Nat} {side : Side} {req : Request} {out : Fulfilled}
    (hi : i < 2 * L) (h : Bounced callback L i (side, req, out)) :
    ∃ before after : Callback, req.callback = some before ∧ out.request.callback = some after ∧
      before.count = ((i + 1) / 2 : Nat) ∧
      after.count = (if side = .peer then before.count + 1 else before.count) ∧ after.count ≤ L ∧
      before.resolved = false ∧ (after.resolved = true ↔ i + 1 = 2 * L) ∧
      (after.resolved = true → side = .originator) := by
  have hside : side = turn i := h.side
  by_cases hlast : i + 1 = 2 * L
  · have hafter := h.after
    rw [if_pos hlast] at hafter
    have horiginator : side = .originator := hside.trans (turn_last hlast)
    refine ⟨_, _, h.before, hafter, rfl, ?_, ?_, hl.unresolved, iff_of_true rfl hlast, fun _ => horiginator⟩
    · rw [horiginator]
      rfl
    · unfold ball
      dsimp only
      omega
  · have hafter := h.after
    rw [if_neg hlast] at hafter
    have hopen : (ball callback (i + 1)).resolved = false := hl.unresolved
    refine ⟨_, _, h.before, hafter, rfl, ?_, ?_, hl.unresolved, iff_of_false ?_ hlast, fun hresolved => ?_⟩
    · rcases Nat.mod_two_eq_zero_or_one i with hmod | hmod
      · have hpeer : turn i = .peer := if_pos hmod
        rw [hside, hpeer, if_pos rfl]
        unfold ball
        dsimp only
        omega
      · have horiginator : turn i = .originator := if_neg (by omega)
        rw [hside, horiginator, if_neg (by decide)]
        unfold ball
        dsimp only
        omega
    · unfold ball
      dsimp only
      omega
    · rw [hopen]
      exact Bool.false_ne_true
    · exact absurd (hopen.symm.trans hresolved) Bool.false_ne_true

theorem Tally.ricochets (hl : Limits t callback L) {ls : List Event} (hL : 1 ≤ L)
    (h : Tally average t callback L (bounces ls) p) : Ricochets average t callback L ls p := by
  have hbound : (bounces ls).length ≤ 2 * L := by
    cases h.place with
    | flying hk | held hk => exact hk.le
    | gone hk => exact hk.le
  refine ⟨hbound, ?_, ?_, ?_⟩
  · intro i side req out hi
    have hb := h.bounced i _ hi
    refine ⟨hb.side, hb.status, hb.counts hl ?_⟩
    exact (List.getElem?_eq_some_iff.mp hi).1.trans_le hbound
  · intro hall
    refine ⟨?_, ?_⟩
    · rw [h.latencies, hall, Nat.mul_div_cancel_left L Nat.two_pos]
    · have hlt : 2 * L - 1 < (bounces ls).length := by omega
      have hlast : (bounces ls)[2 * L - 1]? = some (bounces ls)[2 * L - 1] := List.getElem?_eq_getElem hlt
      have hside := (h.bounced _ _ hlast).side
      have horiginator : turn (2 * L - 1) = .originator := turn_last (L := L) (by omega)
      rw [horiginator] at hside
      refine ⟨(bounces ls)[2 * L - 1].2.1, (bounces ls)[2 * L - 1].2.2, ?_, fun hfn => h.average hall hfn _ hlast⟩
      rw [hlast, ← hside]
  · intro hmore
    cases h.place with
    | @held req hk hreq hflight howed =>
      refine .inl ⟨(turn (bounces ls).length).other, req, ?_⟩
      rw [howed, Function.update_self]
    | @flying m hk hm hflight howed =>
      refine .inr ⟨turn (bounces ls).length, m, by rw [hflight, Function.update_self], fun req harrived hholds => ?_⟩
      refine Bifrost.job_returns (harrived.bringing hm) hl.ticket hl.unresolved hholds fun hcount _ => ?_
      have hmore := mt (count_eq_limit hl hk).mpr hcount
      have hrange := hl.range
      unfold ball inInt at *
      dsimp only
      omega
    | gone hk => exact absurd hk hmore.ne

/-- A ricochet started by `ricochet_async` with a limit. -/
theorem ricochet_bounces (hL : 1 ≤ L) (hrange : inInt L) (hlimit : callback.limit = L) (hcount : callback.count = 0)
    (hsatellite : callback.satellite = false) (hopen : callback.resolved = false) (hstart : Start t callback p)
    {ls : List Event} (hrun : Run (Step average t) p ls q) : Ricochets average t callback L ls q := by
  obtain ⟨hl, h0⟩ : Limits t callback L ∧ Tally average t callback L [] p :=
    Tally.start hL hcount hsatellite hlimit hrange hopen hstart
  exact (tally_run hl h0 hrun).ricochets hl hL

/-- The callback of a single round trip. -/
def onceCallback : Callback :=
  { url := lit "a:80", endpoint := lit "/ping-ricochet", type := lit "LATENCY", satellite := false, fn := lit "AVG"
    count := 0, limit := 1 }

def onceRequest (callback : Callback) : Request :=
  { jobRequest (toText 0) (lit "ricochet") [] [] with host := lit "a:80", callback := some callback }

theorem onceRequest_delivered {m : MessageBuffer} (hm : Carrying 0 callback m) :
    Delivered m (onceRequest callback) where
  ticket := hm.ticket.symm
  type := hm.type.symm
  callback := ⟨callback, hm.callback, rfl⟩

/-- A peer with a broker of its own under the ticket. -/
theorem oncePeer : ∃ (s s' s'' : Bifrost) (out : Fulfilled) (m : MessageBuffer),
    (Bifrost.start (lit "b") (lit "81")).sendAsync 0 peer (lit "null") none = .ok (0, s) ∧ s.Holds 0 ∧
      s.job (fun _ => []) (onceRequest onceCallback) = .ok (out, s') ∧
      owes out = [onceRequest (ball onceCallback 1)] ∧
      pingRicochet s' 0 (onceRequest (ball onceCallback 1)) (ball onceCallback 1) = .ok s'' ∧
      s''.posted 0 = some m :=
  ⟨_, _, _, _, _, rfl, ⟨_, _, rfl, rfl, List.cons_ne_nil _ _⟩, rfl, rfl, rfl, rfl⟩

/-- One round trip. -/
theorem ricochet_bounces_once : ∃ (p : Exchange) (ls : List Event) (q : Exchange),
    Start 0 onceCallback p ∧ Run (Step (fun _ => []) 0) p ls q ∧ (bounces ls).length = 2 ∧
      Ricochets (fun _ => []) 0 onceCallback 1 ls q := by
  have hsend : ∃ (s : Bifrost) (m : MessageBuffer),
      (Bifrost.start (lit "a") (lit "80")).ricochetAsync 0 peer (lit "null") (some onceCallback) = .ok (0, s) ∧
      s.posted 0 = some m ∧ s.Holds 0 := ⟨_, _, rfl, rfl, _, _, rfl, rfl, List.cons_ne_nil _ _⟩
  obtain ⟨s, m, hsend, hposted, hholds⟩ := hsend
  obtain ⟨u, u', u'', out, m', -, hpeer, hjob, howes, hping, hposted'⟩ := oncePeer
  obtain ⟨-, hm, -⟩ := ricochetAsync_spec (by decide) (by decide) (by decide) hsend hposted
  obtain ⟨hm', -⟩ := pingRicochet_spec ⟨rfl, rfl, rfl⟩ (by decide) (by decide) (by decide) hping hposted'
  have hback : Bringing 0 (ball onceCallback 1) (onceRequest (ball onceCallback 1)) := ⟨rfl, rfl, rfl⟩
  have hreturns : ∃ out' s', s.job (fun _ => []) (onceRequest (ball onceCallback 1)) = .ok (out', s') :=
    Bifrost.job_returns hback (by decide) rfl hholds (by decide)
  obtain ⟨out', s', hjob'⟩ := hreturns
  have hstart : Start 0 onceCallback
      { node := fun side => match side with | .originator => s | .peer => u
        flight := Function.update (fun _ => []) .peer [m] } := .ricochetAsync (by decide) rfl hsend hposted
  generalize hp : ({ node := fun side => match side with | .originator => s | .peer => u
                     flight := Function.update (fun _ => []) .peer [m] } : Exchange) = p at hstart
  have hpnode : p.node .peer = u := by rw [← hp]
  have honode : p.node .originator = s := by rw [← hp]
  have hpflight : p.flight = Function.update (fun _ => []) .peer [m] := by rw [← hp]
  have hpowed : p.owed = fun _ => [] := by rw [← hp]
  have hfirst : ∃ q, Step (fun _ => []) 0 p (.fulfill .peer (onceRequest onceCallback) out) q ∧ q.node .peer = u' ∧
      q.node .originator = s ∧ (q.flight = fun _ => []) ∧
      q.owed = Function.update (fun _ => []) .peer [onceRequest (ball onceCallback 1)] := by
    refine ⟨_, .fulfill (by rw [hpflight, Function.update_self]) (onceRequest_delivered hm) (hpnode ▸ hpeer)
      (by rw [hpnode]; exact hjob), rfl, honode, ?_, ?_⟩
    · dsimp only
      rw [hpflight, Function.update_idem, update_nil]
    · dsimp only
      rw [hpowed, howes]
      rfl
  obtain ⟨q, hfirst, hqpeer, hqorig, hqflight, hqowed⟩ := hfirst
  have hreply : ∃ r, Step (fun _ => []) 0 q (.reply .peer) r ∧ r.node .originator = s ∧
      r.flight .originator = [m'] := by
    refine ⟨_, .reply (by rw [hqowed, Function.update_self]) rfl (hqpeer ▸ hping) hposted', hqorig, ?_⟩
    dsimp only [Side.other]
    rw [Function.update_self, hqflight]
    rfl
  obtain ⟨r, hreply, hrorig, hrflight⟩ := hreply
  have hlast : ∃ v, Step (fun _ => []) 0 r (.fulfill .originator (onceRequest (ball onceCallback 1)) out') v :=
    ⟨_, .fulfill hrflight (onceRequest_delivered hm') (hrorig ▸ hholds) (by rw [hrorig]; exact hjob')⟩
  obtain ⟨v, hlast⟩ := hlast
  have hrun := ((Run.nil.snoc hfirst).snoc hreply).snoc hlast
  exact ⟨p, _, _, hstart, hrun, rfl, ricochet_bounces (by decide) (by decide) rfl rfl rfl rfl hstart hrun⟩

end Exchange
end Jericho.Message
