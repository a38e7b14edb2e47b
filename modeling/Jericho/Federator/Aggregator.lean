import Mathlib.Algebra.Order.Field.Rat
import Jericho.Library.Runs
import Jericho.Util.Prizm

/-! The aggregator of a federated network: the clients that joined it and the weights they sent. -/
namespace Jericho.Federator
open StdText Util Runs

/-- `quorum` is the float nearest to 0.8; `parents` belongs to the base class. -/
structure Aggregator where
  clients : List Bytes := []
  weights : StrMap := ∅
  quorum : ℚ := 13421773 / 16777216
  parents : List Bytes := []

namespace Aggregator

def hasAggregator (a : Aggregator) : Bool := a.parents.length ≠ 0

def addClient (a : Aggregator) (client : Bytes) : Aggregator := { a with clients := a.clients ++ [client] }

/-- The loop of `dropClient`, from an iterator on: the weights are erased once for each client that
is passed by, and not where the loop breaks. -/
def dropLoop (client : Bytes) : List Bytes → StrMap → List Bytes × StrMap
  | [], weights => ([], weights)
  | it :: rest, weights =>
    if it = client then (rest, weights)
    else
      let (clients, weights) := dropLoop client rest (weights.erase client)
      (it :: clients, weights)

def dropClient (a : Aggregator) (client : Bytes) : Aggregator :=
  let (clients, weights) := dropLoop client a.clients a.weights
  { a with clients := clients, weights := weights }

/-- The sizes are divided as integers; only their quotient is compared with the fraction. -/
def quorumMet (a : Aggregator) : Bool :=
  if a.clients.length ≠ 0 then a.quorum < (a.weights.keys.length / a.clients.length : ℕ) else false

def storeWeights (a : Aggregator) (client weights : Bytes) : Aggregator :=
  { a with weights := a.weights.insert client weights }

def fuse (a : Aggregator) : Bool := a.quorumMet

/-- A call of the interface. -/
inductive Call where
  | addClient (client : Bytes)
  | storeWeights (client weights : Bytes)
  | dropClient (client : Bytes)
  | fuse

/-- `fuse` writes the new model to a local variable. -/
def step (a : Aggregator) : Call → Aggregator
  | .addClient client => a.addClient client
  | .storeWeights client weights => a.storeWeights client weights
  | .dropClient client => a.dropClient client
  | .fuse => a

/-- A new aggregator after some calls. -/
def run (calls : List Call) : Aggregator := calls.foldl step {}

@[simp]
theorem run_append (calls : List Call) (call : Call) : run (calls ++ [call]) = (run calls).step call :=
  List.foldl_concat ..

/-- What `AggregateModel` sends on: the model to the parent, or to the clients. -/
inductive Onward where
  | none
  | dad
  | newModel
  deriving DecidableEq

/-- `JoinNetwork`, on the federator of the node. -/
def joinNetwork (federator : Option Aggregator) (hostname : Bytes) : Option Aggregator × Bytes :=
  match federator with
  | some aggregator => (some (aggregator.addClient hostname), lit "SUCCESS")
  | none => (none, lit "ERROR")

/-- Where `AggregateModel` sends the model once the weights are stored. -/
def onward (a : Aggregator) : Onward :=
  if a.fuse then (if a.hasAggregator then .dad else .newModel) else .none

def aggregateModel (federator : Option Aggregator) (hostname content : Bytes) : Option Aggregator × Onward × Bytes :=
  match federator with
  | none => (none, .none, lit "ERROR")
  | some aggregator =>
    let aggregator := aggregator.storeWeights hostname content
    (some aggregator, aggregator.onward, lit "COMPLETE")

theorem dropLoop_clients (client : Bytes) (clients : List Bytes) (weights : StrMap) :
    (dropLoop client clients weights).1 = clients.erase client := by
  induction clients generalizing weights with
  | nil => rfl
  | cons it rest ih =>
    unfold dropLoop
    split
    · rename_i heq
      rw [heq, List.erase_cons_head]
    · rename_i hne
      rw [List.erase_cons_tail (by simpa using hne), ← ih (weights.erase client)]

theorem lookup_erase_erase (weights : StrMap) (client key : Bytes) :
    ((weights.erase client).erase client).lookup key = (weights.erase client).lookup key := by
  by_cases hkey : key = client
  · rw [hkey, AList.lookup_erase, AList.lookup_erase]
  · rw [AList.lookup_erase_ne hkey]

/-- The weights of a client go when some other client is passed by first. -/
theorem dropLoop_weights (client : Bytes) (clients : List Bytes) (weights : StrMap) (key : Bytes) :
    (dropLoop client clients weights).2.lookup key =
      if clients.head?.getD client = client then weights.lookup key else (weights.erase client).lookup key := by
  induction clients generalizing weights with
  | nil => simp [dropLoop]
  | cons it rest ih =>
    unfold dropLoop
    by_cases heq : it = client
    · simp [heq]
    · have hrest := ih (weights.erase client)
      rw [lookup_erase_erase, ite_self] at hrest
      rw [if_neg heq, hrest]
      simp [heq]

theorem dropClient_clients (a : Aggregator) (client : Bytes) :
    (a.dropClient client).clients = a.clients.erase client :=
  dropLoop_clients client a.clients a.weights

theorem dropClient_weights (a : Aggregator) (client key : Bytes) :
    (a.dropClient client).weights.lookup key =
      if a.clients.head?.getD client = client then a.weights.lookup key
      else (a.weights.erase client).lookup key :=
  dropLoop_weights client a.clients a.weights key

theorem dropClient_weights_ne (a : Aggregator) {client key : Bytes} (hkey : key ≠ client) :
    (a.dropClient client).weights.lookup key = a.weights.lookup key := by
  rw [dropClient_weights]
  split
  · rfl
  · exact AList.lookup_erase_ne hkey

/-- No client is listed twice, and weights are kept for clients only. -/
structure Members (a : Aggregator) : Prop where
  nodup : a.clients.Nodup
  clients : ∀ key ∈ a.weights, key ∈ a.clients

/-- A client is gone, and nothing else changed. -/
structure Dropped (client : Bytes) (a b : Aggregator) : Prop where
  notMem : client ∉ b.clients
  noWeights : client ∉ b.weights
  others : b.clients = a.clients.filter (· ≠ client)
  weights : ∀ key ≠ client, b.weights.lookup key = a.weights.lookup key

/-- The tables are in order after some calls, and the last of them, if it was `dropClient`, dropped
the client. -/
structure InOrder (calls : List Call) : Prop where
  members : (run calls).Members
  dropped : ∀ done client, calls = done ++ [.dropClient client] → Dropped client (run done) (run calls)

/-- A call that finds the tables as it needs them: a client that joins is new, one that sends
weights has joined, one that is dropped does not head the list or has sent nothing. -/
def Admissible (done : List Call) : Call → Prop
  | .addClient client => client ∉ (run done).clients
  | .storeWeights client _ => client ∈ (run done).clients
  | .dropClient client => (run done).clients.head? ≠ some client ∨ client ∉ (run done).weights
  | .fuse => True

variable {a b : Aggregator}

theorem mem_of_lookup_eq {key : Bytes} (h : b.weights.lookup key = a.weights.lookup key) :
    key ∈ b.weights ↔ key ∈ a.weights := by
  rw [← AList.lookup_isSome, ← AList.lookup_isSome, h]

theorem Members.addClient_iff (h : a.Members) (client : Bytes) :
    (a.addClient client).Members ↔ client ∉ a.clients := by
  constructor
  · intro hafter hmem
    have hnodup : (a.clients ++ [client]).Nodup := hafter.nodup
    exact List.disjoint_of_nodup_append hnodup hmem (List.mem_singleton_self client)
  · intro hnew
    refine ⟨?_, ?_⟩
    · exact List.nodup_append'.mpr ⟨h.nodup, List.nodup_singleton client, by simpa using hnew⟩
    · intro key hkey
      exact List.mem_append_left _ (h.clients key hkey)

theorem Members.storeWeights_iff (h : a.Members) (client weights : Bytes) :
    (a.storeWeights client weights).Members ↔ client ∈ a.clients := by
  constructor
  · intro hafter
    exact hafter.clients client ((AList.mem_insert _).mpr (.inl rfl))
  · intro hjoined
    refine ⟨h.nodup, ?_⟩
    intro key hkey
    rcases (AList.mem_insert _).mp hkey with rfl | hkey
    · exact hjoined
    · exact h.clients key hkey

/-- Whether the weights of a dropped client stay. -/
theorem Members.mem_dropClient_iff (h : a.Members) (client : Bytes) :
    client ∈ (a.dropClient client).weights ↔ a.clients.head? = some client ∧ client ∈ a.weights := by
  rw [← AList.lookup_isSome, dropClient_weights]
  by_cases hempty : a.clients = []
  · have hnone : client ∉ a.weights := by
      intro hmem
      simpa [hempty] using h.clients client hmem
    simp [hempty, AList.lookup_isSome, hnone]
  · obtain ⟨it, rest, hcons⟩ := List.exists_cons_of_ne_nil hempty
    simp only [hcons, List.head?_cons, Option.getD_some, Option.some.injEq]
    by_cases heq : it = client
    · rw [if_pos heq, AList.lookup_isSome]
      simp [heq]
    · simp [heq, AList.lookup_erase]

theorem Members.dropped_iff (h : a.Members) (client : Bytes) :
    Dropped client a (a.dropClient client) ↔ a.clients.head? ≠ some client ∨ client ∉ a.weights := by
  have hstays := h.mem_dropClient_iff client
  rw [← not_and_or, ← hstays]
  constructor
  · exact Dropped.noWeights
  · intro hgone
    refine ⟨?_, hgone, ?_, fun key hkey => dropClient_weights_ne a hkey⟩
    · rw [dropClient_clients]
      exact h.nodup.not_mem_erase
    · rw [dropClient_clients, h.nodup.erase_eq_filter]
      apply List.filter_congr
      intro c _
      by_cases heq : c = client <;> simp [heq]

/-- Dropping a client properly leaves the tables in order. -/
theorem Members.of_dropped (h : a.Members) {client : Bytes} (hdrop : Dropped client a b) : b.Members := by
  refine ⟨?_, ?_⟩
  · rw [hdrop.others]
    exact h.nodup.filter _
  · intro key hkey
    have hne : key ≠ client := by
      rintro rfl
      exact hdrop.noWeights hkey
    rw [hdrop.others, List.mem_filter]
    refine ⟨h.clients key ?_, by simpa using hne⟩
    exact (mem_of_lookup_eq (hdrop.weights key hne)).mp hkey

/-- A call that drops nobody is in order as soon as the tables are. -/
theorem inOrder_iff_members {done : List Call} {call : Call} (hcall : ∀ client, call ≠ .dropClient client) :
    InOrder (done ++ [call]) ↔ ((run done).step call).Members := by
  rw [← run_append]
  refine ⟨InOrder.members, fun h => ⟨h, ?_⟩⟩
  intro prior client heq
  exact absurd (List.singleton_inj.mp (List.append_inj' heq rfl).2) (hcall client)

/-- What each call needs. -/
theorem inOrder_append_iff (done : List Call) (call : Call) (h : InOrder done) :
    Admissible done call ↔ InOrder (done ++ [call]) := by
  cases call with
  | addClient client =>
    rw [inOrder_iff_members (by simp)]
    exact (h.members.addClient_iff client).symm
  | storeWeights client weights =>
    rw [inOrder_iff_members (by simp)]
    exact (h.members.storeWeights_iff client weights).symm
  | fuse =>
    rw [inOrder_iff_members (by simp)]
    exact ⟨fun _ => h.members, fun _ => trivial⟩
  | dropClient client =>
    have hexact := h.members.dropped_iff client
    constructor
    · intro hadmissible
      have hdrop := hexact.mpr hadmissible
      have hrun : run (done ++ [.dropClient client]) = (run done).dropClient client := run_append ..
      refine ⟨?_, ?_⟩
      · rw [hrun]
        exact h.members.of_dropped hdrop
      · intro prior other heq
        obtain ⟨rfl, hlast⟩ := List.append_inj' heq rfl
        obtain rfl := Call.dropClient.inj (List.singleton_inj.mp hlast)
        rw [hrun]
        exact hdrop
    · intro hafter
      have hdrop := hafter.dropped done client rfl
      rw [run_append] at hdrop
      exact hexact.mp hdrop

theorem inOrder_nil : InOrder [] :=
  ⟨⟨List.nodup_nil, fun key hkey => absurd hkey (AList.notMem_empty key)⟩, fun done client h => by simp at h⟩

/-- The tables stay in order through a history exactly when each call finds them as it needs them. -/
theorem inOrder_throughout_iff (calls : List Call) : Throughout InOrder calls ↔ Obeys Admissible calls :=
  (obeys_iff_throughout inOrder_nil inOrder_append_iff calls).symm

/-- A client that joins, sends its weights and is dropped while it heads the list leaves them behind. -/
theorem weights_left : ¬ ∀ calls, Throughout InOrder calls := by
  intro h
  have hdrop := (h [.addClient (lit "a"), .storeWeights (lit "a") (lit "w"), .dropClient (lit "a")] _
    List.prefix_rfl).dropped [.addClient (lit "a"), .storeWeights (lit "a") (lit "w")] (lit "a") rfl
  exact hdrop.noWeights (by decide)

end Aggregator
end Jericho.Federator
