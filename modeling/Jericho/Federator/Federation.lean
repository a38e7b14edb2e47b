import Jericho.Federator.Quorum
import Jericho.Library.SynchronousCalls
import Jericho.Message.RemoteCall

/-! The federation: nodes that train send their weights to one aggregator, which tells its parent. Every request of
a handler goes through `Bifrost::send` or `Bifrost::broadcast`, which wait until `fetch` has the answer or gives up.
Nothing is sent before the loop of the target accepts the connection (`SSL_accept`). -/
namespace Jericho.Federator
open StdText Util Runs SynchronousCalls Message Server Crypt

/-- `JFS::readBinary`. The size of a missing file is -1; the length of the text in the array is logged. -/
def readBinary (disk : Bytes → Option Bytes) (path : Bytes) : Exec Bytes :=
  match disk (cstr path) with
  | none => .error .undefined
  | some content =>
    if content = [] then .ok []
    else if content.length < 2 ^ 31 ∧ 0 ∈ content then .ok content else .error .undefined

/-- What the requests of the handlers rest on: the base64 library, the files, how many bytes the headers of a message
leave in the buffer of `send_request`, and how many are free behind the `int` of `joinThread`. -/
structure Site where
  bio : Base64Filter
  disk : Bytes → Option Bytes
  room : Nat
  spare : Nat

/-- What another node reads of the model that the hub has in a file. The message is binary and stays encoded, and
`buffer` has put a text in place of no content. -/
def Site.arriving (site : Site) (path : Bytes) : Exec Bytes := do
  let content ← readBinary site.disk path
  let text := encodeUrl site.bio (if content = [] then lit "Ping from 8081" else content)
  if text.length < site.room then .ok text else .error .undefined

/-- The model can be sent, and joining a thread does no harm. -/
structure Site.Works (site : Site) (path : Bytes) : Prop where
  model : ∃ text, site.arriving path = .ok text
  join : 4 ≤ site.spare

/-- The federator of a node; an aggregator with the path of its model. -/
inductive FedNode where
  | null
  | aggregator (a : Aggregator) (model : Bytes)
  | trainer (weights : Bytes)

/-- The requests of the federation, with their content where the handler reads it. -/
inductive Request where
  | train
  | joinNetwork
  | aggregateModel (content : Bytes)
  | newModel (content : Bytes)
  deriving DecidableEq

/-- What a handler goes on with; a node that trains for the first time makes a trainer. -/
inductive Frame where
  | joining
  | delivering (made : Bool)
  | onward

abbrev Reaction := FedNode × Next Bytes Request Frame Bytes

/-- The node that `Train` sends to, and the one that `AggregateModel` tells. -/
def hub : Bytes := lit "127.0.0.1:8081"
def dad : Bytes := lit "127.0.0.1:8080"

/-- `Trainer::train`: the text up to its first NUL. -/
def trainedWeights : Bytes := lit "dfddfsdfsdfsdf"

namespace FedNode

/-- `static_cast<Aggregator*>` of a federator that may be null. -/
def asAggregator : FedNode → Exec (Option Aggregator)
  | null => .ok none
  | aggregator a _ => .ok (some a)
  | trainer _ => .error .undefined

def model : FedNode → Bytes
  | aggregator _ model => model
  | _ => []

def put (fed : FedNode) : Option Aggregator → FedNode
  | none => null
  | some a => aggregator a fed.model

/-- `JoinNetwork` -/
def join (fed : FedNode) (hostname : Bytes) : Exec Reaction := do
  let a ← fed.asAggregator
  let (a, reply) := Aggregator.joinNetwork a hostname
  return (fed.put a, .answer (sentText reply))

/-- The request that `AggregateModel` sends, or its answer. -/
def tell (site : Site) (path reply : Bytes) : Aggregator.Onward → Exec (Next Bytes Request Frame Bytes)
  | .none => .ok (.answer (sentText reply))
  | .dad => (site.arriving path).map fun model => .call dad (.aggregateModel model) .onward
  | .newModel => (site.arriving path).map fun model => .call hub (.newModel model) .onward

/-- `AggregateModel` up to the request that it sends, if it does. -/
def aggregateModel (site : Site) (fed : FedNode) (hostname content : Bytes) : Exec Reaction := do
  let a ← fed.asAggregator
  let (a, onward, reply) := Aggregator.aggregateModel a hostname content
  let next ← tell site fed.model reply onward
  return (fed.put a, next)

/-- `NewModel`, whose `stop` is always true. The federator is not tested for null. -/
def newModel (content : Bytes) : FedNode → Exec Reaction
  | aggregator a _ => .ok (aggregator a content, .answer (sentText (lit "COMPLETE")))
  | _ => .error .undefined

/-- A handler starts on a request; the `Host` header is the name of the node that sends it. -/
def start (site : Site) (fed : FedNode) (client : Option Bytes) : Request → Exec Reaction
  | .train => .ok (fed, .call hub .joinNetwork .joining)
  | .joinNetwork => fed.join (client.getD [])
  | .aggregateModel content => fed.aggregateModel site (client.getD []) content
  | .newModel content => newModel content fed

/-- `Train` and `AggregateModel` behind `send`. -/
def goOn (fed : FedNode) : Frame → Exec Reaction
  | .joining =>
    match fed with
    | null => .ok (null, .call hub (.aggregateModel trainedWeights) (.delivering true))
    | trainer _ => .ok (trainer trainedWeights, .call hub (.aggregateModel trainedWeights) (.delivering false))
    | aggregator .. => .error .undefined
  | .delivering made => .ok (if made then trainer trainedWeights else fed, .answer (sentText (lit "COMPLETE")))
  | .onward => .ok (fed, .answer (sentText (lit "COMPLETE")))

/-- A handler after an answer, of which it uses nothing. -/
def resume (site : Site) (fed : FedNode) (frame : Frame) (_answer : Bytes) : Exec Reaction := do
  Bifrost.joinThread site.spare
  fed.goOn frame

theorem resume_eq_ok {site : Site} {fed : FedNode} {frame : Frame} {answer : Bytes} {r : Reaction} :
    fed.resume site frame answer = .ok r ↔ 4 ≤ site.spare ∧ fed.goOn frame = .ok r := by
  unfold resume Bifrost.joinThread
  split_ifs with hspare
  · exact (and_iff_right (by omega)).symm
  · exact iff_of_false nofun fun h => hspare (by omega)

/-- An aggregator stores the weights and keeps the path of its model. -/
theorem aggregateModel_eq_ok {site : Site} {a : Aggregator} {path hostname content : Bytes} {r : Reaction} :
    (aggregator a path).aggregateModel site hostname content = .ok r ↔
      ∃ next, tell site path (lit "COMPLETE") (a.storeWeights hostname content).onward = .ok next ∧
        r = (aggregator (a.storeWeights hostname content) path, next) := by
  have hbind : (aggregator a path).aggregateModel site hostname content =
      (tell site path (lit "COMPLETE") (a.storeWeights hostname content).onward).bind fun next =>
        .ok (aggregator (a.storeWeights hostname content) path, next) := rfl
  rw [hbind]
  exact bind_eq_ok.trans (exists_congr fun next => and_congr_right fun _ => ⟨fun h => (Except.ok.inj h).symm,
    fun h => congrArg Except.ok h.symm⟩)

end FedNode

/-- The nodes of a federation. -/
def federation (site : Site) : Program Bytes Request Frame Bytes FedNode Fault where
  start := FedNode.start site
  resume := FedNode.resume site

abbrev Federation := Net Bytes Request Frame Bytes FedNode
abbrev FedEvent := Event Bytes Request Bytes

/-- The network with its federators, before any request. -/
def configured (fed : Bytes → FedNode) : Federation := fun n => { state := fed n }

/-- A configuration: nobody trained, the aggregator at the hub is new, with its parents and the path of its model,
and if its parent is an aggregator nobody has joined that. -/
structure Fresh (fed : Bytes → FedNode) (parents : List Bytes) (model : Bytes) : Prop where
  hub : fed hub = .aggregator { parents := parents } model
  dad : ∀ a path, fed dad = .aggregator a path → a.clients = []
  trainers : ∀ n weights, fed n ≠ .trainer weights

/-- The nodes that may train. -/
def Worker (fed : Bytes → FedNode) (n : Bytes) : Prop := n ≠ hub ∧ n ≠ dad ∧ ∀ a model, fed n ≠ .aggregator a model

/-- The requests from outside: the nodes are told to train. An aggregator without parents sends a new model to the
hub, which it is itself. -/
def contract (fed : Bytes → FedNode) (parents : List Bytes) (model : Bytes) : Contract Bytes Request Frame FedNode where
  Local n s :=
    (∀ a path, s = .aggregator a path →
      ¬ Worker fed n ∧ (n = hub → a.parents = parents ∧ path = model) ∧ (n = dad → a.clients = [])) ∧
      ∀ weights, s = .trainer weights → Worker fed n
  Comes n request := request = .train ∧ Worker fed n
  Sends c n request :=
    match request with
    | .train => False
    | .joinNetwork => n = hub ∧ Worker fed c
    | .aggregateModel _ => n = hub ∧ Worker fed c ∨ n = dad ∧ c = hub
    | .newModel _ => n = hub ∧ c = hub ∧ parents = []
  Keeps n frame :=
    match frame with
    | .onward => n = hub
    | _ => Worker fed n

variable {fed : Bytes → FedNode} {site : Site} {parents : List Bytes} {model : Bytes}

theorem Fresh.holds (h : Fresh fed parents model) : (contract fed parents model).Holds (configured fed) where
  accepted n w hw := nomatch hw
  strays n x hx := nomatch hx
  taken n w hw := nomatch hw
  locals n := by
    refine ⟨fun a path ha => ⟨fun hworker => hworker.2.2 a path ha, ?_, ?_⟩, fun weights hweights => ?_⟩
    · rintro rfl
      have hhub : FedNode.aggregator { parents := parents } model = .aggregator a path := h.hub.symm.trans ha
      cases hhub
      exact ⟨rfl, rfl⟩
    · rintro rfl
      exact h.dad a path ha
    · exact absurd hweights (h.trainers n weights)
  sends n w hw := nomatch hw
  sent n x hx := nomatch hx

theorem not_worker_hub : ¬ Worker fed hub := fun h => h.1 rfl

theorem not_worker_dad : ¬ Worker fed dad := fun h => h.2.1 rfl

theorem hub_ne_dad : hub ≠ dad := by decide

/-- A node that is no worker is no trainer. -/
theorem asAggregator_ok {n : Bytes} {s : FedNode} (hs : (contract fed parents model).Local n s) (hn : ¬ Worker fed n) :
    s = .null ∨ ∃ a path, s = .aggregator a path := by
  cases s with
  | null => exact .inl rfl
  | aggregator a path => exact .inr ⟨a, path, rfl⟩
  | trainer weights => exact absurd (hs.2 weights rfl) hn

section Kept
variable {n c content : Bytes} {s : FedNode}

theorem local_trainer (h : Worker fed n) (weights : Bytes) : (contract fed parents model).Local n (.trainer weights) := by
  refine ⟨fun a path heq => ?_, fun _ _ => h⟩
  cases heq

theorem local_aggregator {a : Aggregator} {path : Bytes} (h : ¬ Worker fed n)
    (hhub : n = hub → a.parents = parents ∧ path = model) (hdad : n = dad → a.clients = []) :
    (contract fed parents model).Local n (.aggregator a path) := by
  refine ⟨fun b path' heq => ?_, fun weights heq => ?_⟩
  · cases heq
    exact ⟨h, hhub, hdad⟩
  · cases heq

theorem result_answer (hs : (contract fed parents model).Local n s) (a : Bytes) :
    (contract fed parents model).Result n ((s, .answer a) : Reaction) := by
  refine ⟨hs, fun target request frame heq => ?_⟩
  cases heq

theorem result_call (hs : (contract fed parents model).Local n s) {target : Bytes} {request : Request} {frame : Frame}
    (hsends : (contract fed parents model).Sends n target request) (hkeeps : (contract fed parents model).Keeps n frame) :
    (contract fed parents model).Result n ((s, .call target request frame) : Reaction) := by
  refine ⟨hs, fun target' request' frame' heq => ?_⟩
  cases heq
  exact ⟨hsends, hkeeps⟩

theorem join_result (hs : (contract fed parents model).Local hub s) (hostname : Bytes) :
    ∃ r, s.join hostname = .ok r ∧ (contract fed parents model).Result hub r := by
  rcases asAggregator_ok hs not_worker_hub with rfl | ⟨a, path, rfl⟩
  · exact ⟨_, rfl, result_answer hs _⟩
  · have hlocal : (contract fed parents model).Local hub (.aggregator (a.addClient hostname) path) :=
      local_aggregator not_worker_hub (hs.1 a path rfl).2.1 fun h => absurd h hub_ne_dad
    exact ⟨_, rfl, result_answer hlocal _⟩

/-- The hub sends on what it fused; the parent, which nobody joined, never fuses. -/
theorem aggregateModel_result (hworks : site.Works model) (hs : (contract fed parents model).Local n s)
    (hn : n = hub ∨ n = dad) (hostname content : Bytes) :
    ∃ r, s.aggregateModel site hostname content = .ok r ∧ (contract fed parents model).Result n r := by
  have hworker : ¬ Worker fed n := by
    rcases hn with rfl | rfl
    · exact not_worker_hub
    · exact not_worker_dad
  rcases asAggregator_ok hs hworker with rfl | ⟨a, path, rfl⟩
  · exact ⟨_, rfl, result_answer hs _⟩
  obtain ⟨-, hhub, hdad⟩ := hs.1 a path rfl
  have hlocal : (contract fed parents model).Local n (.aggregator (a.storeWeights hostname content) path) :=
    local_aggregator hworker hhub hdad
  by_cases hfuse : (a.storeWeights hostname content).fuse = true
  · have hn : n = hub := by
      refine hn.resolve_right fun h => ?_
      unfold Aggregator.fuse Aggregator.quorumMet Aggregator.storeWeights at hfuse
      rw [hdad h] at hfuse
      exact absurd hfuse Bool.false_ne_true
    obtain ⟨hparents, rfl⟩ := hhub hn
    obtain ⟨text, htext⟩ := hworks.model
    cases hhas : (a.storeWeights hostname content).hasAggregator with
    | true =>
      have honward : (a.storeWeights hostname content).onward = .dad := by
        unfold Aggregator.onward
        rw [if_pos hfuse, if_pos hhas]
      have htell : FedNode.tell site path (lit "COMPLETE") (a.storeWeights hostname content).onward =
          .ok (.call dad (.aggregateModel text) .onward) := by
        rw [honward]
        exact map_eq_ok.mpr ⟨text, htext, rfl⟩
      exact ⟨_, FedNode.aggregateModel_eq_ok.mpr ⟨_, htell, rfl⟩, result_call hlocal (.inr ⟨rfl, hn⟩) hn⟩
    | false =>
      have honward : (a.storeWeights hostname content).onward = .newModel := by
        unfold Aggregator.onward
        rw [if_pos hfuse, hhas]
        rfl
      have hempty : parents = [] := by
        rw [← hparents]
        simpa [Aggregator.hasAggregator, Aggregator.storeWeights] using hhas
      have htell : FedNode.tell site path (lit "COMPLETE") (a.storeWeights hostname content).onward =
          .ok (.call hub (.newModel text) .onward) := by
        rw [honward]
        exact map_eq_ok.mpr ⟨text, htext, rfl⟩
      exact ⟨_, FedNode.aggregateModel_eq_ok.mpr ⟨_, htell, rfl⟩, result_call hlocal ⟨rfl, hn, hempty⟩ hn⟩
  · have honward : (a.storeWeights hostname content).onward = .none := if_neg hfuse
    have htell : FedNode.tell site path (lit "COMPLETE") (a.storeWeights hostname content).onward =
        .ok (.answer (sentText (lit "COMPLETE"))) := by
      rw [honward]
      rfl
    exact ⟨_, FedNode.aggregateModel_eq_ok.mpr ⟨_, htell, rfl⟩, result_answer hlocal _⟩

theorem goOn_result (hs : (contract fed parents model).Local n s) {frame : Frame}
    (hkeeps : (contract fed parents model).Keeps n frame) :
    ∃ r, s.goOn frame = .ok r ∧ (contract fed parents model).Result n r := by
  cases frame with
  | joining =>
    have hworker : Worker fed n := hkeeps
    cases s with
    | null => exact ⟨_, rfl, result_call hs (.inl ⟨rfl, hworker⟩) hworker⟩
    | trainer weights => exact ⟨_, rfl, result_call (local_trainer hworker _) (.inl ⟨rfl, hworker⟩) hworker⟩
    | aggregator b path => exact absurd hworker (hs.1 b path rfl).1
  | delivering made =>
    refine ⟨_, rfl, result_answer ?_ _⟩
    split
    · exact local_trainer hkeeps _
    · exact hs
  | onward => exact ⟨_, rfl, result_answer hs _⟩

theorem contract_kept (hworks : site.Works model) : (contract fed parents model).Kept (federation site) where
  outside n s request hs hrequest := by
    obtain ⟨rfl, hworker⟩ := hrequest
    exact ⟨_, rfl, result_call hs ⟨rfl, hworker⟩ hworker⟩
  inside n s c request hs hsends hne := by
    cases request with
    | train => exact absurd hsends id
    | joinNetwork =>
      obtain ⟨rfl, -⟩ := hsends
      exact join_result hs c
    | aggregateModel content => exact aggregateModel_result hworks hs (hsends.imp And.left And.left) c content
    | newModel content =>
      obtain ⟨rfl, rfl, -⟩ := hsends
      exact absurd rfl hne
  resume n s frame a hs hkeeps := by
    obtain ⟨r, hr, hresult⟩ := goOn_result hs hkeeps
    have hresume : s.resume site frame a = .ok r := FedNode.resume_eq_ok.mpr ⟨hworks.join, hr⟩
    exact ⟨r, hresume, hresult⟩

end Kept

/-- Who joins at the hub in a step, and who delivers weights there. -/
def joined : FedEvent → Option Bytes
  | .serve n c .joinNetwork => if n = hub then some c else none
  | .late n c .joinNetwork => if n = hub then some c else none
  | _ => none

def delivered : FedEvent → Option Bytes
  | .serve n c (.aggregateModel _) => if n = hub then some c else none
  | .late n c (.aggregateModel _) => if n = hub then some c else none
  | _ => none

def joins (es : List FedEvent) : List Bytes := es.filterMap joined

def deliveries (es : List FedEvent) : List Bytes := es.filterMap delivered

/-- The aggregator of the hub after what was served there: with the parents that it was configured with, a client
for each request to join, and weights of everyone who delivered some. -/
structure Tally (parents : List Bytes) (es : List FedEvent) (a : Aggregator) : Prop where
  clients : a.clients = joins es
  weights : ∀ key, key ∈ a.weights ↔ key ∈ deliveries es
  quorum : a.quorum = 13421773 / 16777216
  parents : a.parents = parents

section Tally
variable {es : List FedEvent} {e : FedEvent} {net net' mid : Federation} {client : Option Bytes} {r : Reaction}
  {a : Aggregator} {c content path : Bytes}

theorem joins_concat (es : List FedEvent) (e : FedEvent) : joins (es ++ [e]) = joins es ++ (joined e).toList := by
  unfold joins
  rw [List.filterMap_append]
  cases hj : joined e with
  | none => rw [List.filterMap_cons_none hj]; rfl
  | some c => rw [List.filterMap_cons_some hj]; rfl

theorem deliveries_concat (es : List FedEvent) (e : FedEvent) :
    deliveries (es ++ [e]) = deliveries es ++ (delivered e).toList := by
  unfold deliveries
  rw [List.filterMap_append]
  cases hd : delivered e with
  | none => rw [List.filterMap_cons_none hd]; rfl
  | some c => rw [List.filterMap_cons_some hd]; rfl

theorem joined_elsewhere (he : e.node ≠ hub) : joined e = none := by
  cases e with
  | serve n c request =>
    have hn : n ≠ hub := he
    cases request <;> simp [joined, hn]
  | late n c request =>
    have hn : n ≠ hub := he
    cases request <;> simp [joined, hn]
  | _ => rfl

theorem delivered_elsewhere (he : e.node ≠ hub) : delivered e = none := by
  cases e with
  | serve n c request =>
    have hn : n ≠ hub := he
    cases request <;> simp [delivered, hn]
  | late n c request =>
    have hn : n ≠ hub := he
    cases request <;> simp [delivered, hn]
  | _ => rfl

/-- A step that neither joins nor delivers. -/
theorem Tally.other (h : Tally parents es a) (hj : joined e = none) (hd : delivered e = none) :
    Tally parents (es ++ [e]) a where
  clients := by rw [joins_concat, hj, h.clients, Option.toList_none, List.append_nil]
  weights key := by rw [deliveries_concat, hd, h.weights, Option.toList_none, List.append_nil]
  quorum := h.quorum
  parents := h.parents

theorem Tally.addClient (h : Tally parents es a) (hj : joined e = some c) (hd : delivered e = none) :
    Tally parents (es ++ [e]) (a.addClient c) where
  clients := by rw [joins_concat, hj, Aggregator.addClient, h.clients, Option.toList_some]
  weights key := by rw [deliveries_concat, hd, Aggregator.addClient, h.weights, Option.toList_none, List.append_nil]
  quorum := h.quorum
  parents := h.parents

theorem Tally.storeWeights (h : Tally parents es a) (hj : joined e = none) (hd : delivered e = some c) :
    Tally parents (es ++ [e]) (a.storeWeights c content) where
  clients := by
    rw [joins_concat, hj, Option.toList_none, List.append_nil]
    exact h.clients
  weights key := by
    rw [deliveries_concat, hd, Option.toList_some, Aggregator.storeWeights, AList.mem_insert, h.weights,
      List.mem_append, List.mem_singleton]
    exact or_comm
  quorum := h.quorum
  parents := h.parents

/-- What is served at the hub, be it late: a request to join or a delivery. -/
theorem served_hub (hholds : (contract fed parents path).Holds net) {x : Except Fault Reaction} {request : Request}
    (hacts : Acts (federation site) net e client x mid) (he : e = .serve hub c request ∨ e = .late hub c request) :
    request = .joinNetwork ∨ ∃ content, request = .aggregateModel content := by
  obtain ⟨hsends, hne⟩ := hholds.served hacts he
  cases request with
  | joinNetwork => exact .inl rfl
  | aggregateModel content => exact .inr ⟨content, rfl⟩
  | train => exact absurd hsends id
  | newModel content => exact absurd hsends.2.1 hne

theorem Tally.start (h : Tally parents es a) {request : Request}
    (hr : (FedNode.aggregator a path).start site (some c) request = .ok r)
    (he : e = .serve hub c request ∨ e = .late hub c request)
    (hrequest : request = .joinNetwork ∨ ∃ content, request = .aggregateModel content) :
    ∃ b, r.1 = .aggregator b path ∧ Tally parents (es ++ [e]) b := by
  rcases hrequest with rfl | ⟨content, rfl⟩
  · cases hr
    refine ⟨_, rfl, h.addClient ?_ ?_⟩
    · rcases he with rfl | rfl <;> rfl
    · rcases he with rfl | rfl <;> rfl
  · obtain ⟨next, -, rfl⟩ := FedNode.aggregateModel_eq_ok.mp hr
    refine ⟨_, rfl, h.storeWeights ?_ ?_⟩
    · rcases he with rfl | rfl <;> rfl
    · rcases he with rfl | rfl <;> rfl

/-- What the hub waits for changes nothing at the hub. -/
theorem resume_hub (hholds : (contract fed parents path).Holds net) {w : Waiting Bytes Request Frame Bytes} {a : Bytes}
    (hw : (net hub).waiting = some w) (hr : (net hub).state.resume site w.frame a = .ok r) : r.1 = (net hub).state := by
  have hkeeps := (hholds.sends hub w hw).2
  obtain ⟨-, hr⟩ := FedNode.resume_eq_ok.mp hr
  obtain ⟨frame, target, request, status, client⟩ := w
  cases frame with
  | onward =>
    cases hr
    rfl
  | _ => exact absurd hkeeps not_worker_hub

/-- The hub, in a network. -/
def Counts (parents : List Bytes) (path : Bytes) (es : List FedEvent) (net : Federation) : Prop :=
  ∃ a, (net hub).state = .aggregator a path ∧ Tally parents es a

theorem Counts.of_state (h : Counts parents path es net) (hj : joined e = none) (hd : delivered e = none)
    (hstate : (net' hub).state = (net hub).state) : Counts parents path (es ++ [e]) net' := by
  obtain ⟨a, ha, htally⟩ := h
  exact ⟨a, hstate.trans ha, htally.other hj hd⟩

theorem Counts.move (h : Counts parents path es net) (hholds : (contract fed parents path).Holds net)
    (hallows : (contract fed parents path).Allows e) (hmove : Move (federation site) net e net') :
    Counts parents path (es ++ [e]) net' := by
  by_cases he : e.node = hub
  · cases hmove with
    | accept => exact h.of_state rfl rfl (setStatus_state ..)
    | @act _ client r mid hacts =>
      have hserved : ∀ c request, e = .serve hub c request ∨ e = .late hub c request →
          request = .joinNetwork ∨ ∃ content, request = .aggregateModel content :=
        fun c request => served_hub hholds hacts
      cases hacts with
      | @arrive n request x hidle hx =>
        obtain rfl : n = hub := he
        exact absurd hallows.2 not_worker_hub
      | @serve n c w x hidle hw htarget hsent hx =>
        obtain rfl : n = hub := he
        obtain ⟨a, ha, htally⟩ := h
        rw [ha] at hx
        obtain ⟨b, hb, htally⟩ := htally.start hx (.inl rfl) (hserved c w.request (.inl rfl))
        exact ⟨b, (proceed_state ..).trans hb, htally⟩
      | @late n c request before after x hidle hstrays hx =>
        obtain rfl : n = hub := he
        obtain ⟨a, ha, htally⟩ := h
        rw [ha] at hx
        obtain ⟨b, hb, htally⟩ := htally.start hx (.inr rfl) (hserved c request (.inr rfl))
        exact ⟨b, (proceed_state ..).trans hb, htally⟩
      | @resume n w a x hw ha hx =>
        obtain rfl : n = hub := he
        exact h.of_state rfl rfl ((proceed_state ..).trans (resume_hub (a := a) hholds hw hx))
      | @giveUp n w a x hw hopen hx =>
        obtain rfl : n = hub := he
        exact h.of_state rfl rfl ((proceed_state ..).trans (resume_hub (a := a) hholds hw hx))
  · exact h.of_state (joined_elsewhere he) (delivered_elsewhere he) (hmove.state_of_ne (Ne.symm he))

theorem counts_run (h : Fresh fed parents path) (hworks : site.Works path) (hes : ∀ e ∈ es, (contract fed parents path).Allows e)
    (hrun : Run (Move (federation site)) (configured fed) es net) :
    (contract fed parents path).Holds net ∧ Counts parents path es net := by
  induction hrun with
  | nil =>
    refine ⟨h.holds, _, h.hub, rfl, fun key => ?_, rfl, rfl⟩
    exact iff_of_false (AList.notMem_empty key) List.not_mem_nil
  | snoc hrun hmove ih =>
    obtain ⟨hprior, hlast⟩ := List.forall_mem_append.mp hes
    obtain ⟨hholds, hcounts⟩ := ih hprior
    have hallows := hlast _ (List.mem_singleton_self _)
    exact ⟨(contract_kept hworks).move hholds hallows hmove, hcounts.move hholds hallows hmove⟩

/-- Weights are stored as often as there are distinct nodes that delivered. -/
theorem Tally.length_keys (h : Tally parents es a) : a.weights.keys.length = (deliveries es).dedup.length := by
  refine List.Perm.length_eq ((List.perm_ext_iff_of_nodup a.weights.keys_nodup (List.nodup_dedup _)).mpr fun key => ?_)
  rw [List.mem_dedup]
  exact h.weights key

/-- When the aggregator of the hub fuses. -/
theorem Tally.fuse_iff (h : Tally parents es a) :
    a.fuse ↔ joins es ≠ [] ∧ (joins es).length ≤ (deliveries es).dedup.length := by
  have h0 : 0 ≤ a.quorum := by rw [h.quorum]; norm_num
  have h1 : a.quorum < 1 := by rw [h.quorum]; norm_num
  unfold Aggregator.fuse
  rw [Aggregator.quorumMet_iff h0 h1, h.length_keys, h.clients, ne_eq, List.length_eq_zero_iff]

theorem tell_calls {reply : Bytes} {onward : Aggregator.Onward} {next : Next Bytes Request Frame Bytes}
    (h : FedNode.tell site path reply onward = .ok next) :
    (∃ target request frame, next = .call target request frame) ↔ onward ≠ .none := by
  cases onward with
  | none =>
    obtain rfl := Except.ok.inj h
    refine iff_of_false ?_ fun hne => hne rfl
    rintro ⟨target, request, frame, heq⟩
    cases heq
  | dad =>
    obtain ⟨text, -, rfl⟩ := map_eq_ok.mp h
    exact iff_of_true ⟨_, _, _, rfl⟩ nofun
  | newModel =>
    obtain ⟨text, -, rfl⟩ := map_eq_ok.mp h
    exact iff_of_true ⟨_, _, _, rfl⟩ nofun

theorem onward_ne_none (a : Aggregator) : a.onward ≠ .none ↔ a.fuse := by
  unfold Aggregator.onward
  split_ifs with hfuse
  · exact iff_of_true nofun hfuse
  · exact iff_of_true nofun hfuse
  · exact iff_of_false (fun hne => hne rfl) hfuse

/-- The hub sends something on when it fuses, and only then. -/
theorem calls_iff (hr : (FedNode.aggregator a path).start site (some c) (.aggregateModel content) = .ok r) :
    (∃ target request frame, r.2 = .call target request frame) ↔ (a.storeWeights c content).fuse := by
  obtain ⟨next, hnext, rfl⟩ := FedNode.aggregateModel_eq_ok.mp hr
  exact (tell_calls hnext).trans (onward_ne_none _)

/-- The new model is served nowhere: the node that sends it is the one it sends it to. -/
theorem newModel_not_served (hholds : (contract fed parents path).Holds net) (hmove : Move (federation site) net e net')
    (n : Bytes) : e ≠ .serve n c (.newModel content) ∧ e ≠ .late n c (.newModel content) := by
  cases hmove with
  | accept => exact ⟨nofun, nofun⟩
  | act hacts =>
    have hserved : ¬ (e = .serve n c (.newModel content) ∨ e = .late n c (.newModel content)) := by
      intro he
      obtain ⟨⟨hn, hc, -⟩, hne⟩ := hholds.served hacts he
      exact hne (hc.trans hn.symm)
    exact not_or.mp hserved

theorem newModel_notMem (h : Fresh fed parents path) (hworks : site.Works path) (hes : ∀ e ∈ es, (contract fed parents path).Allows e)
    (hrun : Run (Move (federation site)) (configured fed) es net) (n : Bytes) :
    .serve n c (.newModel content) ∉ es ∧ .late n c (.newModel content) ∉ es := by
  induction hrun with
  | nil => exact ⟨List.not_mem_nil, List.not_mem_nil⟩
  | snoc hrun hmove ih =>
    obtain ⟨hprior, -⟩ := List.forall_mem_append.mp hes
    obtain ⟨hserve, hlate⟩ := newModel_not_served (counts_run h hworks hprior hrun).1 hmove n
    obtain ⟨hserves, hlates⟩ := ih hprior
    constructor
    · intro hmem
      exact (List.mem_append.mp hmem).elim hserves fun hlast => hserve (List.mem_singleton.mp hlast).symm
    · intro hmem
      exact (List.mem_append.mp hmem).elim hlates fun hlast => hlate (List.mem_singleton.mp hlast).symm

/-- The parent keeps no frame. -/
theorem dad_idle (hholds : (contract fed parents path).Holds net) : (net dad).waiting = none := by
  refine Option.eq_none_iff_forall_ne_some.mpr fun w hw => ?_
  have hkeeps := (hholds.sends dad w hw).2
  obtain ⟨frame, target, request, status, client⟩ := w
  cases frame with
  | onward => exact hub_ne_dad hkeeps.symm
  | joining => exact not_worker_dad hkeeps
  | delivering made => exact not_worker_dad hkeeps

/-- A node that serves a delivery at the hub. -/
theorem Tally.fuses_iff (h : Tally parents es a)
    (hr : (FedNode.aggregator a path).start site (some c) (.aggregateModel content) = .ok r)
    (client : Option Bytes) :
    (mid.proceed hub client r hub).waiting.isSome ↔
      joins es ≠ [] ∧ (joins es).length ≤ (deliveries es ++ [c]).dedup.length := by
  have hstored : Tally parents (es ++ [.serve hub c (.aggregateModel content)]) (a.storeWeights c content) :=
    h.storeWeights rfl rfl
  have hjoins : joins (es ++ [.serve hub c (.aggregateModel content)]) = joins es := by
    rw [joins_concat]
    exact List.append_nil _
  have hdeliveries : deliveries (es ++ [.serve hub c (.aggregateModel content)]) = deliveries es ++ [c] :=
    deliveries_concat es _
  rw [proceed_waits, calls_iff hr, hstored.fuse_iff, hjoins, hdeliveries]

/-- A delivery at the hub. -/
theorem Counts.fuses_iff (h : Counts parents path es net)
    (he : e = .serve hub c (.aggregateModel content) ∨ e = .late hub c (.aggregateModel content))
    (hmove : Move (federation site) net e net') :
    (net' hub).waiting.isSome ↔ joins es ≠ [] ∧ (joins es).length ≤ (deliveries es ++ [c]).dedup.length := by
  obtain ⟨a, ha, htally⟩ := h
  cases hmove with
  | accept => rcases he with heq | heq <;> cases heq
  | @act _ client r mid hacts =>
    generalize hresult : (Except.ok r : Exec Reaction) = x at hacts
    cases hacts with
    | @serve n c w x hidle hw htarget hsent hx =>
      rcases he with heq | heq
      · injection heq with hn hc hrequest
        subst hn hc
        rw [ha, hrequest] at hx
        exact htally.fuses_iff (hx.trans hresult.symm) _
      · cases heq
    | @late n c request before after x hidle hstrays hx =>
      rcases he with heq | heq
      · cases heq
      · injection heq with hn hc hrequest
        subst hn hc hrequest
        rw [ha] at hx
        exact htally.fuses_iff (hx.trans hresult.symm) _
    | _ => rcases he with heq | heq <;> cases heq

end Tally

/-- A federation with one aggregator, where a node trains, joins and delivers. -/
def plan (n : Bytes) : FedNode := if n = hub then .aggregator {} (lit "m") else .null

def planned : List FedEvent :=
  [.arrive (lit "a") .train, .accept hub (lit "a"), .serve hub (lit "a") .joinNetwork, .resume (lit "a"),
    .accept hub (lit "a")]

def plannedSite : Site where
  bio := Base64Filter.reference
  disk _ := some [0]
  room := 4096
  spare := 4

def delivery : FedEvent := .serve hub (lit "a") (.aggregateModel trainedWeights)

theorem plan_fresh : Fresh plan [] (lit "m") where
  hub := rfl
  dad a path h := by cases h
  trainers n weights h := by
    unfold plan at h
    split_ifs at h

theorem plannedSite_works : plannedSite.Works (lit "m") := ⟨⟨_, rfl⟩, le_refl 4⟩

theorem plan_worker : Worker plan (lit "a") := by
  refine ⟨by decide, by decide, fun a path h => ?_⟩
  cases h

theorem planned_allows : ∀ e ∈ planned ++ [delivery], (contract plan [] (lit "m")).Allows e := by
  simp [Contract.Allows, contract, plan_worker, planned, delivery]

theorem planned_run : ∃ net w, Run (Move (federation plannedSite)) (configured plan) (planned ++ [delivery]) net ∧
    (net hub).waiting = some w := by
  have htrain : Run (Move (federation plannedSite)) (configured plan) [.arrive (lit "a") .train] _ :=
    .single (.act (.arrive rfl rfl))
  have hasked := htrain.snoc (.accept (n := hub) (c := lit "a") rfl rfl rfl rfl)
  have hserved := hasked.snoc (.act (.serve (n := hub) (c := lit "a") rfl rfl rfl rfl rfl))
  have hresumed := hserved.snoc (.act (.resume (n := lit "a") rfl rfl rfl))
  have haccepted := hresumed.snoc (.accept (n := hub) (c := lit "a") rfl rfl rfl rfl)
  have hprior := (List.forall_mem_append.mp planned_allows).1
  have hholds := (counts_run plan_fresh plannedSite_works hprior haccepted).1
  obtain ⟨r, hr, -⟩ := (contract_kept plannedSite_works).inside hub _ (lit "a") (.aggregateModel trainedWeights)
    (hholds.locals hub) (.inl ⟨rfl, plan_worker⟩) (by decide)
  have hdelivered := haccepted.snoc (.act (.serve (n := hub) (c := lit "a") rfl rfl rfl rfl hr))
  obtain ⟨net, hprior, hmove⟩ := hdelivered.of_snoc
  obtain ⟨-, hcounts⟩ := counts_run plan_fresh plannedSite_works (List.forall_mem_append.mp planned_allows).1 hprior
  have hwaits := (hcounts.fuses_iff (.inl rfl) hmove).mpr (by decide)
  obtain ⟨w, hw⟩ := Option.isSome_iff_exists.mp hwaits
  exact ⟨_, w, hdelivered, hw⟩

/-- Whatever nodes are told to train, and whatever they give up, no step of a federation fails. The new model that
an aggregator without parents sends is served nowhere, so the hub keeps the path of its model. The parent asks
nobody, for it never fuses. -/
theorem federation_safe {es : List FedEvent} {net : Federation} {path : Bytes} (h : Fresh fed parents path) (hworks : site.Works path)
    (hes : ∀ e ∈ es, (contract fed parents path).Allows e)
    (hrun : Run (Move (federation site)) (configured fed) es net) :
    (∀ e, (contract fed parents path).Allows e → ¬ Fails (federation site) net e) ∧
      (∀ n c content, .serve n c (.newModel content) ∉ es ∧ .late n c (.newModel content) ∉ es) ∧
      (∃ a, (net hub).state = .aggregator a path) ∧ (net dad).waiting = none := by
  obtain ⟨hholds, a, ha, -⟩ := counts_run h hworks hes hrun
  refine ⟨fun e he => (contract_kept hworks).not_fails hholds he, fun n c content => ?_, ⟨a, ha⟩, ?_⟩
  · exact newModel_notMem h hworks hes hrun n
  · exact dad_idle hholds

theorem federation_safe_plan : ∃ net,
    Run (Move (federation plannedSite)) (configured plan) (planned ++ [delivery]) net ∧
    (∀ e, (contract plan [] (lit "m")).Allows e → ¬ Fails (federation plannedSite) net e) ∧
      (∃ a, (net hub).state = .aggregator a (lit "m")) ∧ (net dad).waiting = none := by
  obtain ⟨net, -, hrun, -⟩ := planned_run
  obtain ⟨hsafe, -, hhub, hdad⟩ := federation_safe plan_fresh plannedSite_works planned_allows hrun
  exact ⟨net, hrun, hsafe, hhub, hdad⟩

/-- A delivery at the hub, be it late, makes it fuse when some node joined and there are at least as many distinct
nodes that delivered as requests to join. -/
theorem hub_fuses_iff {es : List FedEvent} {e : FedEvent} {net net' : Federation} {path c content : Bytes}
    (h : Fresh fed parents path) (hworks : site.Works path) (hes : ∀ e ∈ es, (contract fed parents path).Allows e)
    (hrun : Run (Move (federation site)) (configured fed) es net)
    (he : e = .serve hub c (.aggregateModel content) ∨ e = .late hub c (.aggregateModel content))
    (hmove : Move (federation site) net e net') :
    (net' hub).waiting.isSome ↔ joins es ≠ [] ∧ (joins es).length ≤ (deliveries es ++ [c]).dedup.length :=
  (counts_run h hworks hes hrun).2.fuses_iff he hmove

theorem hub_fuses_iff_plan : ∃ net net', Run (Move (federation plannedSite)) (configured plan) planned net ∧
    Move (federation plannedSite) net delivery net' ∧ (net' hub).waiting.isSome := by
  obtain ⟨net', -, hrun, -⟩ := planned_run
  obtain ⟨net, hprior, hmove⟩ := hrun.of_snoc
  have hallows := (List.forall_mem_append.mp planned_allows).1
  exact ⟨net, net', hprior, hmove, (hub_fuses_iff plan_fresh plannedSite_works hallows hprior (.inl rfl) hmove).mpr (by decide)⟩

/-- How far a node is that trains: it delivers only after its request to join was served. -/
def Stage (es : List FedEvent) (n : Bytes) (w : Waiting Bytes Request Frame Bytes) : Prop :=
  w.frame = .joining ∧ w.request = .joinNetwork ∧ (w.status = .connecting ∨ w.status = .sent ∨ n ∈ joins es) ∨
    (∃ made content, w.frame = .delivering made ∧ w.request = .aggregateModel content) ∧ n ∈ joins es

/-- A network where no node that trains gave anything up: everyone who delivered weights had joined. -/
structure Ordered (fed : Bytes → FedNode) (es : List FedEvent) (net : Federation) : Prop where
  strays : ∀ n, Worker fed n → (net n).strays = []
  stages : ∀ n w, Worker fed n → (net n).waiting = some w → Stage es n w
  delivered : ∀ c ∈ deliveries es, c ∈ joins es

section Ordered
variable {es : List FedEvent} {e : FedEvent} {net net' mid : Federation} {client : Option Bytes} {r : Reaction}
  {x : Exec Reaction} {n c path : Bytes} {w : Waiting Bytes Request Frame Bytes}

theorem mem_joins_concat (h : n ∈ joins es) (e : FedEvent) : n ∈ joins (es ++ [e]) := by
  rw [joins_concat]
  exact List.mem_append_left _ h

theorem Stage.concat (h : Stage es n w) (e : FedEvent) : Stage (es ++ [e]) n w := by
  rcases h with ⟨hframe, hrequest, hstatus⟩ | ⟨hdelivering, hjoined⟩
  · exact .inl ⟨hframe, hrequest, hstatus.imp_right fun h => h.imp_right fun h => mem_joins_concat h e⟩
  · exact .inr ⟨hdelivering, mem_joins_concat hjoined e⟩

/-- A node whose request was taken has joined. -/
theorem Stage.joined (h : Stage es n w) (hconnecting : w.status ≠ .connecting) (hsent : w.status ≠ .sent) :
    n ∈ joins es := by
  rcases h with ⟨-, -, hstatus⟩ | ⟨-, hjoined⟩
  · exact (hstatus.resolve_left hconnecting).resolve_left hsent
  · exact hjoined

theorem Stage.setStatus (h : Stage es n w) (hjoined : n ∈ joins es) (status : Status Bytes) :
    Stage es n { w with status := status } := by
  rcases h with ⟨hframe, hrequest, -⟩ | ⟨hdelivering, -⟩
  · exact .inl ⟨hframe, hrequest, .inr (.inr hjoined)⟩
  · exact .inr ⟨hdelivering, hjoined⟩

theorem Stage.sent (h : Stage es n w) : Stage es n { w with status := .sent } := by
  rcases h with ⟨hframe, hrequest, -⟩ | ⟨hdelivering, hjoined⟩
  · exact .inl ⟨hframe, hrequest, .inr (.inl rfl)⟩
  · exact .inr ⟨hdelivering, hjoined⟩

/-- Serving a node that trains lets it join, if it has not. -/
theorem Stage.served (h : Stage es n w) (hsends : (contract fed parents path).Sends n w.target w.request) :
    n ∈ joins (es ++ [.serve w.target n w.request]) := by
  rcases h with ⟨-, hrequest, -⟩ | ⟨-, hjoined⟩
  · rw [hrequest] at hsends ⊢
    rw [joins_concat, hsends.1]
    exact List.mem_append_right _ (List.mem_singleton_self _)
  · exact mem_joins_concat hjoined _

/-- Before a node goes on. -/
theorem Ordered.stage_acts (h : Ordered fed es net) (hholds : (contract fed parents path).Holds net)
    (hacts : Acts (federation site) net e client x mid) (hn : Worker fed n) (hw : (mid n).waiting = some w) :
    Stage (es ++ [e]) n w := by
  rcases hacts.waiting hw with hprior | ⟨v, hv, -, -, rfl, rfl⟩
  · exact (h.stages n w hn hprior).concat e
  · have hstage := h.stages n v hn hv
    have hjoined := hstage.served (hholds.sends n v hv).1
    exact (hstage.concat _).setStatus hjoined .taken

theorem not_worker_of_sends {request : Request} (h : (contract fed parents path).Sends c n request) : ¬ Worker fed n := by
  cases request with
  | train => exact absurd h id
  | joinNetwork => exact h.1 ▸ not_worker_hub
  | aggregateModel content =>
    rcases h with ⟨rfl, -⟩ | ⟨rfl, -⟩
    · exact not_worker_hub
    · exact not_worker_dad
  | newModel content => exact h.1 ▸ not_worker_hub

/-- A node goes on to send a request only after the answer to its request to join. -/
theorem resume_call {s : FedNode} {frame : Frame} {a : Bytes} {target : Bytes} {request : Request} {frame' : Frame}
    (hr : s.resume site frame a = .ok r) (hcall : r.2 = .call target request frame') :
    ∃ made content, frame' = .delivering made ∧ request = .aggregateModel content := by
  obtain ⟨-, hr⟩ := FedNode.resume_eq_ok.mp hr
  cases frame with
  | joining =>
    cases s with
    | aggregator b path => cases hr
    | _ =>
      cases hr
      injection hcall with htarget hrequest hframe
      exact ⟨_, _, hframe.symm, hrequest.symm⟩
  | _ =>
    cases hr
    cases hcall

/-- What a node that trains sends. -/
theorem Ordered.stage_call (h : Ordered fed es net) (hholds : (contract fed parents path).Holds net)
    (hallows : (contract fed parents path).Allows e) (hkeep : ∀ n a, Worker fed n → e ≠ .giveUp n a)
    (hacts : Acts (federation site) net e client (.ok r) mid) (hn : Worker fed e.node)
    (hconnecting : w.status = .connecting) (hcall : r.2 = .call w.target w.request w.frame) :
    Stage (es ++ [e]) e.node w := by
  generalize hresult : (Except.ok r : Exec Reaction) = x at hacts
  have hserved : ∀ n c request, e = .serve n c request ∨ e = .late n c request →
      (contract fed parents path).Sends c n request ∧ c ≠ n := fun n c request => hholds.served hacts
  cases hacts with
  | @arrive n request x hidle hx =>
    obtain ⟨rfl, -⟩ := hallows
    obtain rfl := Except.ok.inj (hresult.trans hx.symm)
    injection hcall with htarget hrequest hframe
    exact .inl ⟨hframe.symm, hrequest.symm, .inl hconnecting⟩
  | @serve n c v x hidle hv htarget hsent hx =>
    exact absurd hn (not_worker_of_sends (hserved n c v.request (.inl rfl)).1)
  | @late n c request before after x hidle hstrays hx =>
    exact absurd hn (not_worker_of_sends (hserved n c request (.inr rfl)).1)
  | @resume n v a x hv ha hx =>
    have hstage := (h.stages n v hn hv).concat (.resume n)
    have hjoined := hstage.joined (by rw [ha]; nofun) (by rw [ha]; nofun)
    exact .inr ⟨resume_call (a := a) (hx.trans hresult.symm) hcall, hjoined⟩
  | @giveUp n v a x hv hopen hx => exact absurd rfl (hkeep n a hn)

theorem Ordered.accept (h : Ordered fed es net) {v : Waiting Bytes Request Frame Bytes}
    (hv : (net c).waiting = some v) : Ordered fed (es ++ [.accept n c]) (net.setStatus c v .sent) where
  strays m hm := (setStatus_strays ..).trans (h.strays m hm)
  stages m w hm hw := by
    rcases setStatus_waiting hw with ⟨rfl, rfl⟩ | ⟨-, hprior⟩
    · exact ((h.stages m v hm hv).sent).concat _
    · exact (h.stages m w hm hprior).concat _
  delivered m hm := by
    rw [deliveries_concat] at hm
    exact mem_joins_concat (h.delivered m (by simpa [Federator.delivered] using hm)) _

theorem delivered_serve {request : Request} {m : Bytes} (he : e = .serve n c request ∨ e = .late n c request)
    (hd : Federator.delivered e = some m) : n = hub ∧ c = m ∧ ∃ content, request = .aggregateModel content := by
  have hserve : Federator.delivered (.serve n c request) = some m := by
    rcases he with rfl | rfl
    · exact hd
    · cases request <;> exact hd
  cases request with
  | aggregateModel content =>
    unfold Federator.delivered at hserve
    dsimp only at hserve
    split_ifs at hserve with hn
    exact ⟨hn, Option.some.inj hserve, content, rfl⟩
  | _ => cases hserve

theorem worker_of_delivery {content : Bytes} (h : (contract fed parents path).Sends c hub (.aggregateModel content)) :
    Worker fed c := by
  rcases h with ⟨-, hworker⟩ | ⟨hdad, -⟩
  · exact hworker
  · exact absurd hdad hub_ne_dad

/-- Who delivers had joined. -/
theorem Ordered.delivered_acts (h : Ordered fed es net) (hholds : (contract fed parents path).Holds net)
    (hacts : Acts (federation site) net e client x mid) (hd : Federator.delivered e = some c) : c ∈ joins es := by
  have hserved : ∀ n c request, e = .serve n c request ∨ e = .late n c request →
      (contract fed parents path).Sends c n request ∧ c ≠ n := fun n c request => hholds.served hacts
  cases hacts with
  | @serve n k v x hidle hv htarget hsent hx =>
    obtain ⟨rfl, rfl, content, hrequest⟩ := delivered_serve (.inl rfl) hd
    have hsends := (hholds.sends k v hv).1
    rw [htarget, hrequest] at hsends
    rcases h.stages k v (worker_of_delivery hsends) hv with ⟨-, hjoin, -⟩ | ⟨-, hjoined⟩
    · rw [hrequest] at hjoin
      cases hjoin
    · exact hjoined
  | @late n k request before after x hidle hstrays hx =>
    obtain ⟨rfl, -, content, rfl⟩ := delivered_serve (.inr rfl) hd
    rw [h.strays k (worker_of_delivery (hserved _ _ _ (.inr rfl)).1)] at hstrays
    exact absurd hstrays.symm (List.append_ne_nil_of_right_ne_nil _ (List.cons_ne_nil _ _))
  | _ => cases hd

theorem Ordered.act (h : Ordered fed es net) (hholds : (contract fed parents path).Holds net)
    (hallows : (contract fed parents path).Allows e) (hkeep : ∀ n a, Worker fed n → e ≠ .giveUp n a)
    (hacts : Acts (federation site) net e client (.ok r) mid) :
    Ordered fed (es ++ [e]) (mid.proceed e.node client r) where
  strays m hm := by
    rw [proceed_strays]
    refine List.eq_nil_iff_forall_not_mem.mpr fun y hy => ?_
    rcases hacts.mem_strays hy with hprior | ⟨w, a, rfl, -⟩
    · rw [h.strays m hm] at hprior
      cases hprior
    · exact hkeep m a hm rfl
  stages m w hm hw := by
    rcases proceed_waiting hw with ⟨rfl, hconnecting, -, hcall⟩ | ⟨-, hmid⟩ | ⟨-, -, v, a, hv, htaken, rfl⟩
    · exact h.stage_call hholds hallows hkeep hacts hm hconnecting hcall
    · exact h.stage_acts hholds hacts hm hmid
    · have hstage := h.stage_acts hholds hacts hm hv
      exact hstage.setStatus (hstage.joined (by rw [htaken]; nofun) (by rw [htaken]; nofun)) (.answered a)
  delivered m hm := by
    rw [deliveries_concat] at hm
    rcases List.mem_append.mp hm with hprior | hlast
    · exact mem_joins_concat (h.delivered m hprior) e
    · exact mem_joins_concat (h.delivered_acts hholds hacts (Option.mem_toList.mp hlast)) e

theorem ordered_run (h : Fresh fed parents path) (hworks : site.Works path) (hes : ∀ e ∈ es, (contract fed parents path).Allows e)
    (hkeep : ∀ n a, Worker fed n → .giveUp n a ∉ es) (hrun : Run (Move (federation site)) (configured fed) es net) :
    Ordered fed es net := by
  induction hrun with
  | nil =>
    refine ⟨fun n _ => rfl, fun n w hn hw => ?_, fun c hc => ?_⟩
    · cases hw
    · cases hc
  | @snoc es net net' e hrun hmove ih =>
    obtain ⟨hprior, hlast⟩ := List.forall_mem_append.mp hes
    have hordered := ih hprior fun n a hn hmem => hkeep n a hn (List.mem_append_left _ hmem)
    cases hmove with
    | accept hidle hw => exact hordered.accept hw
    | act hacts =>
      have hne : ∀ n a, Worker fed n → e ≠ .giveUp n a := by
        rintro n a hn rfl
        exact hkeep n a hn (List.mem_append_right _ (List.mem_singleton_self _))
      exact hordered.act (counts_run h hworks hprior hrun).1 (hlast _ (List.mem_singleton_self _)) hne hacts

end Ordered

/-- A list is as short as a list of distinct members of it when it has no others, each once. -/
theorem length_le_dedup_iff {xs ys : List Bytes} (h : ys ⊆ xs) :
    xs.length ≤ ys.dedup.length ↔ xs.Nodup ∧ xs ⊆ ys := by
  have hsubperm : ys.dedup.Subperm xs :=
    List.subperm_of_subset (List.nodup_dedup ys) fun y hy => h (List.mem_dedup.mp hy)
  constructor
  · intro hle
    have hperm := hsubperm.perm_of_length_le hle
    exact ⟨hperm.nodup_iff.mp (List.nodup_dedup ys), fun x hx => List.mem_dedup.mp (hperm.mem_iff.mpr hx)⟩
  · rintro ⟨hnodup, hsub⟩
    exact (List.subperm_of_subset hnodup fun x hx => List.mem_dedup.mpr (hsub hx)).length_le

/-- As long as no node that trains gives a request up, a delivery makes the hub fuse when no node has joined twice and
every node that joined has delivered. So the hub never fuses again after some node trained twice. -/
theorem hub_fuses_iff_everyone {es : List FedEvent} {net net' : Federation} {path c content : Bytes}
    (h : Fresh fed parents path) (hworks : site.Works path) (hes : ∀ e ∈ es, (contract fed parents path).Allows e)
    (hkeep : ∀ n a, Worker fed n → .giveUp n a ∉ es) (hrun : Run (Move (federation site)) (configured fed) es net)
    (hmove : Move (federation site) net (.serve hub c (.aggregateModel content)) net') :
    (net' hub).waiting.isSome ↔ (joins es).Nodup ∧ joins es ⊆ deliveries es ++ [c] := by
  obtain ⟨hholds, hcounts⟩ := counts_run h hworks hes hrun
  have hordered := ordered_run h hworks hes hkeep hrun
  have hjoined : c ∈ joins es := by
    cases hmove with
    | act hacts => exact hordered.delivered_acts hholds hacts rfl
  have hsub : deliveries es ++ [c] ⊆ joins es :=
    List.append_subset.mpr ⟨hordered.delivered, List.cons_subset.mpr ⟨hjoined, List.nil_subset _⟩⟩
  rw [hcounts.fuses_iff (.inl rfl) hmove, length_le_dedup_iff hsub]
  exact and_iff_right (List.ne_nil_of_mem hjoined)

theorem hub_fuses_iff_everyone_plan : ∃ net net', Run (Move (federation plannedSite)) (configured plan) planned net ∧
    Move (federation plannedSite) net delivery net' ∧ (net' hub).waiting.isSome := by
  obtain ⟨net', -, hrun, -⟩ := planned_run
  obtain ⟨net, hprior, hmove⟩ := hrun.of_snoc
  have hallows := (List.forall_mem_append.mp planned_allows).1
  have hkeep : ∀ n a, Worker plan n → .giveUp n a ∉ planned := by simp [planned]
  exact ⟨net, net', hprior, hmove,
    (hub_fuses_iff_everyone plan_fresh plannedSite_works hallows hkeep hprior hmove).mpr (by decide)⟩

/-- The rank of a node: requests go from the others to the hub, and from there to the parent. -/
def rank (n : Bytes) : ℕ := if n = dad then 0 else if n = hub then 1 else 2

theorem rank_lt {c n : Bytes} {request : Request} (h : (contract fed parents path).Sends c n request) (hne : c ≠ n) :
    rank n < rank c := by
  have hworker : ∀ {m}, Worker fed m → rank m = 2 := by
    intro m hm
    rw [rank, if_neg hm.2.1, if_neg hm.1]
  cases request with
  | train => exact absurd h id
  | joinNetwork =>
    obtain ⟨rfl, hc⟩ := h
    rw [hworker hc]
    decide
  | aggregateModel content =>
    rcases h with ⟨rfl, hc⟩ | ⟨rfl, rfl⟩
    · rw [hworker hc]
      decide
    · decide
  | newModel content => exact absurd (h.2.1.trans h.1.symm) hne

/-- Only the hub asks itself, and only without parents. -/
theorem sends_self {n : Bytes} {request : Request} (h : (contract fed parents path).Sends n n request) :
    n = hub ∧ parents = [] := by
  cases request with
  | train => exact absurd h id
  | joinNetwork => exact absurd h.2 (h.1 ▸ not_worker_hub)
  | aggregateModel content =>
    rcases h with ⟨rfl, hworker⟩ | ⟨rfl, hhub⟩
    · exact absurd hworker not_worker_hub
    · exact absurd hhub.symm hub_ne_dad
  | newModel content => exact ⟨h.1, h.2.2⟩

/-- Whoever waits, some node can serve another one or go on with its answer, unless the hub waits for itself: an
aggregator without parents, which only goes on when it gives up its own request. -/
theorem advances_or_circles {es : List FedEvent} {net : Federation} {path n : Bytes}
    {w : Waiting Bytes Request Frame Bytes} (h : Fresh fed parents path) (hworks : site.Works path)
    (hes : ∀ e ∈ es, (contract fed parents path).Allows e)
    (hrun : Run (Move (federation site)) (configured fed) es net) (hw : (net n).waiting = some w) :
    Contract.Advances (federation site) net ∨
      parents = [] ∧ (∃ v, (net hub).waiting = some v ∧ v.target = hub ∧ v.status = .connecting) ∧
        ∀ e net', Move (federation site) net e net' → e.node = hub → ∃ a, e = .giveUp hub a := by
  obtain ⟨hholds, -⟩ := counts_run h hworks hes hrun
  rcases (contract_kept hworks).advances hholds rank (fun _ _ _ hsends hne => rank_lt hsends hne) hw with hcircles | hadvances
  · right
    obtain ⟨m, v, hv, htarget⟩ := hcircles
    obtain ⟨rfl, hparents⟩ := sends_self (htarget ▸ (hholds.sends m v hv).1)
    have hconnecting : v.status = .connecting := by_contra fun hne => hholds.accepted hub v hv hne htarget
    exact ⟨hparents, ⟨v, hv, htarget, hconnecting⟩, fun e net' hmove he => hmove.gives_up hv hconnecting he⟩
  · exact .inl hadvances

theorem advances_or_circles_plan :
    ∃ net w, Run (Move (federation plannedSite)) (configured plan) (planned ++ [delivery]) net ∧
      (net hub).waiting = some w ∧ (Contract.Advances (federation plannedSite) net ∨
        ∃ v, (net hub).waiting = some v ∧ v.target = hub ∧ v.status = .connecting) := by
  obtain ⟨net, w, hrun, hw⟩ := planned_run
  have hadvances := advances_or_circles plan_fresh plannedSite_works planned_allows hrun hw
  exact ⟨net, w, hrun, hw, hadvances.imp_right fun h => h.2.1⟩

end Jericho.Federator
