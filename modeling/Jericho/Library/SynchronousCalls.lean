import Mathlib.Logic.Function.Basic
import Jericho.Library.Runs

/-! Nodes that serve one request at a time. A node that sends a request while it serves another one waits for
the answer, or gives it up. A request is sent over a connection that its target has to accept. -/
namespace SynchronousCalls
open Runs

/-- What becomes of a request while its client waits. -/
inductive Status (A : Type*) where
  | connecting
  | sent
  | taken
  | answered (a : A)

/-- A node that waits: with what it goes on, the request it sends, and the client it serves, if it is a node. -/
structure Waiting (N R F A : Type*) where
  frame : F
  target : N
  request : R
  status : Status A
  client : Option N

/-- What is left of a request that is given up: if it was sent but not taken, its target finds it later. -/
def Waiting.stray {N R F A : Type*} (w : Waiting N R F A) : List (N × R) :=
  match w.status with
  | .sent => [(w.target, w.request)]
  | _ => []

/-- A node, with the requests it gave up that may still be found. -/
structure Node (N R F A S : Type*) where
  state : S
  waiting : Option (Waiting N R F A) := none
  strays : List (N × R) := []

/-- What a node does next: it answers, or it sends a request and waits. -/
inductive Next (N R F A : Type*) where
  | answer (a : A)
  | call (target : N) (request : R) (frame : F)

/-- What the nodes do: how they start on a request, and how they go on after an answer. -/
structure Program (N R F A S ε : Type*) where
  start : S → Option N → R → Except ε (S × Next N R F A)
  resume : S → F → A → Except ε (S × Next N R F A)

/-- A request comes from outside; a node accepts a connection, serves a request, finds one that its client gave
up, goes on after an answer, or gives it up with what it has read. -/
inductive Event (N R A : Type*) where
  | arrive (n : N) (request : R)
  | accept (n client : N)
  | serve (n client : N) (request : R)
  | late (n client : N) (request : R)
  | resume (n : N)
  | giveUp (n : N) (a : A)

abbrev Net (N R F A S : Type*) := N → Node N R F A S

variable {N R F A S ε : Type*} [DecidableEq N]

namespace Net
variable (net : Net N R F A S)

def setStatus (n : N) (w : Waiting N R F A) (status : Status A) : Net N R F A S :=
  Function.update net n { net n with waiting := some { w with status := status } }

def setStrays (n : N) (strays : List (N × R)) : Net N R F A S :=
  Function.update net n { net n with strays := strays }

def setNode (n : N) (s : S) (waiting : Option (Waiting N R F A)) : Net N R F A S :=
  Function.update net n { net n with state := s, waiting := waiting }

/-- The answer of a node reaches its client if that one still waits for it. -/
def answer (n : N) (a : A) : Option N → Net N R F A S
  | none => net
  | some c =>
    match (net c).waiting with
    | some ⟨frame, target, request, .taken, client⟩ =>
      if target = n then net.setStatus c ⟨frame, target, request, .taken, client⟩ (.answered a) else net
    | _ => net

def proceed (n : N) (client : Option N) : S × Next N R F A → Net N R F A S
  | (s, .answer a) => answer (net.setNode n s none) n a client
  | (s, .call target request frame) => net.setNode n s (some ⟨frame, target, request, .connecting, client⟩)

end Net

/-- The node that acts. -/
def Event.node : Event N R A → N
  | .arrive n _ => n
  | .accept n _ => n
  | .serve n _ _ => n
  | .late n _ _ => n
  | .resume n => n
  | .giveUp n _ => n

/-- A node acts for a client, with a result that may fail. A node that waits serves nobody. -/
inductive Acts (p : Program N R F A S ε) (net : Net N R F A S) :
    Event N R A → Option N → Except ε (S × Next N R F A) → Net N R F A S → Prop
  | arrive {n : N} {request : R} {x : Except ε (S × Next N R F A)} (hidle : (net n).waiting = none)
      (hx : p.start (net n).state none request = x) : Acts p net (.arrive n request) none x net
  | serve {n c : N} {w : Waiting N R F A} {x : Except ε (S × Next N R F A)} (hidle : (net n).waiting = none)
      (hw : (net c).waiting = some w) (htarget : w.target = n) (hsent : w.status = .sent)
      (hx : p.start (net n).state (some c) w.request = x) :
      Acts p net (.serve n c w.request) (some c) x (net.setStatus c w .taken)
  | late {n c : N} {request : R} {before after : List (N × R)} {x : Except ε (S × Next N R F A)}
      (hidle : (net n).waiting = none) (hstrays : (net c).strays = before ++ (n, request) :: after)
      (hx : p.start (net n).state (some c) request = x) :
      Acts p net (.late n c request) none x (net.setStrays c (before ++ after))
  | resume {n : N} {w : Waiting N R F A} {a : A} {x : Except ε (S × Next N R F A)} (hw : (net n).waiting = some w)
      (ha : w.status = .answered a) (hx : p.resume (net n).state w.frame a = x) :
      Acts p net (.resume n) w.client x net
  | giveUp {n : N} {w : Waiting N R F A} {a : A} {x : Except ε (S × Next N R F A)} (hw : (net n).waiting = some w)
      (hopen : ∀ b, w.status ≠ .answered b) (hx : p.resume (net n).state w.frame a = x) :
      Acts p net (.giveUp n a) w.client x (net.setStrays n (w.stray ++ (net n).strays))

/-- What can happen in a network. -/
inductive Move (p : Program N R F A S ε) (net : Net N R F A S) : Event N R A → Net N R F A S → Prop
  | accept {n c : N} {w : Waiting N R F A} (hidle : (net n).waiting = none) (hw : (net c).waiting = some w)
      (htarget : w.target = n) (hconnecting : w.status = .connecting) :
      Move p net (.accept n c) (net.setStatus c w .sent)
  | act {e : Event N R A} {client : Option N} {r : S × Next N R F A} {mid : Net N R F A S}
      (h : Acts p net e client (.ok r) mid) : Move p net e (mid.proceed e.node client r)

/-- A step that fails. -/
def Fails (p : Program N R F A S ε) (net : Net N R F A S) (e : Event N R A) : Prop :=
  ∃ client err mid, Acts p net e client (.error err) mid

section Frame
variable {net mid : Net N R F A S} {p : Program N R F A S ε} {n m : N} {e : Event N R A} {client : Option N}
  {x : Except ε (S × Next N R F A)}

/-- An answer changes the status of its client from taken to answered, or nothing. -/
theorem answer_cases (net : Net N R F A S) (n : N) (a : A) (client : Option N) :
    net.answer n a client = net ∨ ∃ c w, client = some c ∧ (net c).waiting = some w ∧ w.status = .taken ∧
      w.target = n ∧ net.answer n a client = net.setStatus c w (.answered a) := by
  cases client with
  | none => exact .inl rfl
  | some c =>
    unfold Net.answer
    dsimp only
    split
    · rename_i frame target request client hw
      split
      · rename_i htarget
        exact .inr ⟨c, _, rfl, hw, rfl, htarget, rfl⟩
      · exact .inl rfl
    · exact .inl rfl

/-- The answer to a client that waits for it. -/
theorem answer_taken {c : N} {w : Waiting N R F A} (hw : (net c).waiting = some w) (htaken : w.status = .taken)
    (htarget : w.target = n) (a : A) : net.answer n a (some c) = net.setStatus c w (.answered a) := by
  obtain ⟨frame, target, request, status, client⟩ := w
  obtain rfl : status = .taken := htaken
  obtain rfl : target = n := htarget
  unfold Net.answer
  simp only [hw, if_true]

theorem setStatus_state (net : Net N R F A S) (n : N) (w : Waiting N R F A) (status : Status A) (m : N) :
    (net.setStatus n w status m).state = (net m).state := by
  unfold Net.setStatus
  by_cases hm : m = n
  · rw [hm, Function.update_self]
  · rw [Function.update_of_ne hm]

theorem setStatus_strays (net : Net N R F A S) (n : N) (w : Waiting N R F A) (status : Status A) (m : N) :
    (net.setStatus n w status m).strays = (net m).strays := by
  unfold Net.setStatus
  by_cases hm : m = n
  · rw [hm, Function.update_self]
  · rw [Function.update_of_ne hm]

theorem setStatus_waiting {w v : Waiting N R F A} {status : Status A}
    (h : (net.setStatus n w status m).waiting = some v) :
    m = n ∧ v = { w with status := status } ∨ m ≠ n ∧ (net m).waiting = some v := by
  unfold Net.setStatus at h
  by_cases hm : m = n
  · rw [hm, Function.update_self] at h
    exact .inl ⟨hm, (Option.some.inj h).symm⟩
  · rw [Function.update_of_ne hm] at h
    exact .inr ⟨hm, h⟩

theorem setStrays_state (net : Net N R F A S) (n : N) (strays : List (N × R)) (m : N) :
    (net.setStrays n strays m).state = (net m).state := by
  unfold Net.setStrays
  by_cases hm : m = n
  · rw [hm, Function.update_self]
  · rw [Function.update_of_ne hm]

theorem setStrays_waiting (net : Net N R F A S) (n : N) (strays : List (N × R)) (m : N) :
    (net.setStrays n strays m).waiting = (net m).waiting := by
  unfold Net.setStrays
  by_cases hm : m = n
  · rw [hm, Function.update_self]
  · rw [Function.update_of_ne hm]

theorem setNode_strays (net : Net N R F A S) (n : N) (s : S) (waiting : Option (Waiting N R F A)) (m : N) :
    (net.setNode n s waiting m).strays = (net m).strays := by
  unfold Net.setNode
  by_cases hm : m = n
  · rw [hm, Function.update_self]
  · rw [Function.update_of_ne hm]

theorem answer_state (net : Net N R F A S) (n : N) (a : A) (client : Option N) (m : N) :
    (net.answer n a client m).state = (net m).state := by
  rcases answer_cases net n a client with heq | ⟨c, w, -, -, -, -, heq⟩
  · rw [heq]
  · rw [heq, setStatus_state]

theorem proceed_state (net : Net N R F A S) (n : N) (client : Option N) (r : S × Next N R F A) :
    (net.proceed n client r n).state = r.1 := by
  obtain ⟨s, next⟩ := r
  cases next with
  | answer a => rw [Net.proceed, answer_state, Net.setNode, Function.update_self]
  | call target request frame => rw [Net.proceed, Net.setNode, Function.update_self]

theorem proceed_state_of_ne (net : Net N R F A S) (client : Option N) (r : S × Next N R F A) (hm : m ≠ n) :
    (net.proceed n client r m).state = (net m).state := by
  obtain ⟨s, next⟩ := r
  cases next with
  | answer a => rw [Net.proceed, answer_state, Net.setNode, Function.update_of_ne hm]
  | call target request frame => rw [Net.proceed, Net.setNode, Function.update_of_ne hm]

theorem proceed_strays (net : Net N R F A S) (n : N) (client : Option N) (r : S × Next N R F A) (m : N) :
    (net.proceed n client r m).strays = (net m).strays := by
  obtain ⟨s, next⟩ := r
  cases next with
  | call target request frame => exact setNode_strays ..
  | answer a =>
    rw [Net.proceed]
    rcases answer_cases (net.setNode n s none) n a client with heq | ⟨c, w, -, -, -, -, heq⟩
    · rw [heq, setNode_strays]
    · rw [heq, setStatus_strays, setNode_strays]

theorem Acts.state (h : Acts p net e client x mid) (m : N) : (mid m).state = (net m).state := by
  cases h with
  | serve => exact setStatus_state ..
  | late => exact setStrays_state ..
  | giveUp => exact setStrays_state ..
  | _ => rfl

/-- A step changes the state of the node that acts, and no other. -/
theorem Move.state_of_ne {net' : Net N R F A S} (h : Move p net e net') (hm : m ≠ e.node) :
    (net' m).state = (net m).state := by
  cases h with
  | accept => exact setStatus_state ..
  | @act _ client r mid hacts => rw [proceed_state_of_ne mid client r hm, hacts.state]

theorem setNode_idle {s : S} {w : Waiting N R F A} (h : (net.setNode n s none m).waiting = some w) :
    m ≠ n ∧ (net m).waiting = some w := by
  unfold Net.setNode at h
  by_cases hm : m = n
  · rw [hm, Function.update_self] at h
    cases h
  · rw [Function.update_of_ne hm] at h
    exact ⟨hm, h⟩

/-- Who waits after a step has acted and connects for a request, or waited before as now, or has got the answer of
the node that acted. -/
theorem proceed_waiting {w : Waiting N R F A} {r : S × Next N R F A}
    (hw : (net.proceed n client r m).waiting = some w) :
    (m = n ∧ w.status = .connecting ∧ w.client = client ∧ r.2 = .call w.target w.request w.frame) ∨
      (m ≠ n ∧ (net m).waiting = some w) ∨
      (m ≠ n ∧ client = some m ∧ ∃ v a, (net m).waiting = some v ∧ v.status = .taken ∧
        w = { v with status := .answered a }) := by
  obtain ⟨s, next⟩ := r
  cases next with
  | call target request frame =>
    rw [Net.proceed, Net.setNode] at hw
    by_cases hm : m = n
    · rw [hm, Function.update_self] at hw
      obtain rfl := Option.some.inj hw
      exact .inl ⟨hm, rfl, rfl, rfl⟩
    · rw [Function.update_of_ne hm] at hw
      exact .inr (.inl ⟨hm, hw⟩)
  | answer a =>
    rw [Net.proceed] at hw
    rcases answer_cases (net.setNode n s none) n a client with heq | ⟨c, v, hclient, hv, htaken, -, heq⟩
    · rw [heq] at hw
      exact .inr (.inl (setNode_idle hw))
    · rw [heq] at hw
      obtain ⟨hne, hv⟩ := setNode_idle hv
      rcases setStatus_waiting hw with ⟨rfl, rfl⟩ | ⟨-, hw⟩
      · exact .inr (.inr ⟨hne, hclient, v, a, hv, htaken, rfl⟩)
      · exact .inr (.inl (setNode_idle hw))

/-- The node that acted waits when it sent a request, and only then. -/
theorem proceed_waits (net : Net N R F A S) (n : N) (client : Option N) (r : S × Next N R F A) :
    (net.proceed n client r n).waiting.isSome ↔ ∃ target request frame, r.2 = .call target request frame := by
  obtain ⟨s, next⟩ := r
  cases next with
  | call target request frame =>
    rw [Net.proceed, Net.setNode, Function.update_self]
    exact ⟨fun _ => ⟨target, request, frame, rfl⟩, fun _ => rfl⟩
  | answer a =>
    have hidle : (net.proceed n client (s, .answer a) n).waiting = none := by
      refine Option.eq_none_iff_forall_ne_some.mpr fun w hw => ?_
      rcases proceed_waiting hw with ⟨-, -, -, h⟩ | ⟨h, -⟩ | ⟨h, -⟩
      · cases h
      · exact h rfl
      · exact h rfl
    rw [hidle]
    refine ⟨fun h => absurd h Bool.false_ne_true, ?_⟩
    rintro ⟨target, request, frame, h⟩
    cases h

/-- Before a node goes on, a step has changed at most the status of the client that is served. -/
theorem Acts.waiting (h : Acts p net e client x mid) {w : Waiting N R F A} (hw : (mid m).waiting = some w) :
    (net m).waiting = some w ∨ ∃ v, (net m).waiting = some v ∧ v.status = .sent ∧ client = some m ∧
      e = .serve v.target m v.request ∧ w = { v with status := .taken } := by
  cases h with
  | @serve n c v x hidle hv htarget hsent hx =>
    rcases setStatus_waiting hw with ⟨rfl, rfl⟩ | ⟨-, hw⟩
    · exact .inr ⟨v, hv, hsent, rfl, by rw [htarget], rfl⟩
    · exact .inl hw
  | late =>
    rw [setStrays_waiting] at hw
    exact .inl hw
  | giveUp =>
    rw [setStrays_waiting] at hw
    exact .inl hw
  | _ => exact .inl hw

/-- A node whose connection is not accepted does nothing else than give up. -/
theorem Move.gives_up {net' : Net N R F A S} {w : Waiting N R F A} (h : Move p net e net')
    (hw : (net n).waiting = some w) (hconnecting : w.status = .connecting) (he : e.node = n) :
    ∃ a, e = .giveUp n a := by
  have hbusy : ∀ m, m = n → (net m).waiting ≠ none := by
    rintro m rfl
    rw [hw]
    nofun
  cases h with
  | accept hidle => exact absurd hidle (hbusy _ he)
  | act hacts =>
    cases hacts with
    | arrive hidle => exact absurd hidle (hbusy _ he)
    | serve hidle => exact absurd hidle (hbusy _ he)
    | late hidle => exact absurd hidle (hbusy _ he)
    | @resume m v a x hv ha hx =>
      obtain rfl : m = n := he
      rw [hw] at hv
      rw [← Option.some.inj hv, hconnecting] at ha
      cases ha
    | @giveUp m v a x hv hopen hx =>
      obtain rfl : m = n := he
      exact ⟨a, rfl⟩

end Frame

/-- A node waits, and serves a client. -/
def WorksFor (net : Net N R F A S) (n c : N) : Prop := ∃ w, (net n).waiting = some w ∧ w.client = some c

/-- What holds in every network: nobody accepts his own connection, and who took a request works for its client
as long as that one waits for the answer. -/
structure Sound (net : Net N R F A S) : Prop where
  accepted : ∀ n w, (net n).waiting = some w → w.status ≠ .connecting → w.target ≠ n
  strays : ∀ n, ∀ x ∈ (net n).strays, x.1 ≠ n
  taken : ∀ n w, (net n).waiting = some w → w.status = .taken → WorksFor net w.target n

section Sound
variable {net mid net' : Net N R F A S} {p : Program N R F A S ε} {n m c : N} {e : Event N R A} {client : Option N}
  {x : Except ε (S × Next N R F A)}

theorem WorksFor.setStatus (h : WorksFor net n c) {w : Waiting N R F A} (hw : (net m).waiting = some w)
    (status : Status A) : WorksFor (net.setStatus m w status) n c := by
  obtain ⟨v, hv, hclient⟩ := h
  unfold Net.setStatus WorksFor
  by_cases hm : n = m
  · subst hm
    rw [hw] at hv
    obtain rfl := Option.some.inj hv
    rw [Function.update_self]
    exact ⟨_, rfl, hclient⟩
  · rw [Function.update_of_ne hm]
    exact ⟨v, hv, hclient⟩

theorem WorksFor.setNode (h : WorksFor net n c) (hne : n ≠ m) (s : S) (waiting : Option (Waiting N R F A)) :
    WorksFor (net.setNode m s waiting) n c := by
  unfold Net.setNode WorksFor
  rw [Function.update_of_ne hne]
  exact h

theorem WorksFor.proceed (h : WorksFor net n c) (hne : n ≠ m) (client : Option N) (r : S × Next N R F A) :
    WorksFor (net.proceed m client r) n c := by
  obtain ⟨s, next⟩ := r
  cases next with
  | call target request frame => exact h.setNode hne s _
  | answer a =>
    rw [Net.proceed]
    rcases answer_cases (net.setNode m s none) m a client with heq | ⟨k, w, -, hw, -, -, heq⟩
    · rw [heq]
      exact h.setNode hne s none
    · rw [heq]
      exact (h.setNode hne s none).setStatus hw _

omit [DecidableEq N] in
theorem Sound.not_taken (h : Sound net) (hidle : (net n).waiting = none) {w : Waiting N R F A}
    (hw : (net m).waiting = some w) (htaken : w.status = .taken) : w.target ≠ n := by
  rintro rfl
  obtain ⟨v, hv, -⟩ := h.taken m w hw htaken
  rw [hidle] at hv
  cases hv

omit [DecidableEq N] in
theorem Sound.client_of_taken (h : Sound net) {v w : Waiting N R F A} (hv : (net n).waiting = some v)
    (hw : (net m).waiting = some w) (htaken : w.status = .taken) (htarget : w.target = n) : v.client = some m := by
  subst htarget
  obtain ⟨u, hu, hclient⟩ := h.taken m w hw htaken
  rw [hv] at hu
  obtain rfl := Option.some.inj hu
  exact hclient

/-- When a node acts, its client is the only one whose request it took. -/
theorem Sound.client_of_acts (h : Sound net) (hacts : Acts p net e client x mid) {w : Waiting N R F A}
    (hw : (mid m).waiting = some w) (htaken : w.status = .taken) (htarget : w.target = e.node) :
    client = some m := by
  rcases hacts.waiting hw with hprior | ⟨-, -, -, hclient, -⟩
  · cases hacts with
    | arrive hidle => exact absurd htarget (h.not_taken hidle hprior htaken)
    | serve hidle => exact absurd htarget (h.not_taken hidle hprior htaken)
    | late hidle => exact absurd htarget (h.not_taken hidle hprior htaken)
    | resume hv => exact h.client_of_taken hv hprior htaken htarget
    | giveUp hv => exact h.client_of_taken hv hprior htaken htarget
  · exact hclient

theorem Sound.worksFor (h : Sound net) (hacts : Acts p net e client x mid) {w : Waiting N R F A}
    (hw : (mid m).waiting = some w) (htaken : w.status = .taken) (htarget : w.target ≠ e.node) :
    WorksFor mid w.target m := by
  rcases hacts.waiting hw with hprior | ⟨v, -, -, -, hv, rfl⟩
  · have hworks := h.taken m w hprior htaken
    cases hacts with
    | serve hidle hv => exact hworks.setStatus hv _
    | late =>
      obtain ⟨v, hv, hclient⟩ := hworks
      exact ⟨v, by rwa [setStrays_waiting], hclient⟩
    | giveUp =>
      obtain ⟨v, hv, hclient⟩ := hworks
      exact ⟨v, by rwa [setStrays_waiting], hclient⟩
    | _ => exact hworks
  · rw [hv] at htarget
    exact absurd rfl htarget

theorem Sound.accepted_acts (h : Sound net) (hacts : Acts p net e client x mid) {w : Waiting N R F A}
    (hw : (mid m).waiting = some w) (hstatus : w.status ≠ .connecting) : w.target ≠ m := by
  rcases hacts.waiting hw with hprior | ⟨v, hv, hsent, -, -, rfl⟩
  · exact h.accepted m w hprior hstatus
  · refine h.accepted m v hv ?_
    rw [hsent]
    nofun

omit [DecidableEq N] in
theorem mem_stray {w : Waiting N R F A} {x : N × R} (h : x ∈ w.stray) : w.status = .sent ∧ x = (w.target, w.request) := by
  unfold Waiting.stray at h
  split at h
  · rename_i hsent
    exact ⟨hsent, List.mem_singleton.mp h⟩
  · cases h

/-- What a step adds to the requests given up was sent before. -/
theorem Acts.mem_strays (hacts : Acts p net e client x mid) {y : N × R} (hy : y ∈ (mid m).strays) :
    y ∈ (net m).strays ∨
      ∃ w a, e = .giveUp m a ∧ (net m).waiting = some w ∧ w.status = .sent ∧ y = (w.target, w.request) := by
  cases hacts with
  | serve =>
    rw [setStatus_strays] at hy
    exact .inl hy
  | @late n c request before after x hidle hstrays hx =>
    unfold Net.setStrays at hy
    by_cases hm : m = c
    · subst hm
      rw [Function.update_self] at hy
      rw [hstrays]
      exact .inl ((List.mem_append.mp hy).elim (List.mem_append_left _)
        fun h => List.mem_append_right _ (List.mem_cons_of_mem _ h))
    · rw [Function.update_of_ne hm] at hy
      exact .inl hy
  | @giveUp n w a x hw hopen hx =>
    unfold Net.setStrays at hy
    by_cases hm : m = n
    · subst hm
      rw [Function.update_self] at hy
      rcases List.mem_append.mp hy with hstray | hprior
      · exact .inr ⟨w, a, rfl, hw, mem_stray hstray⟩
      · exact .inl hprior
    · rw [Function.update_of_ne hm] at hy
      exact .inl hy
  | _ => exact .inl hy

theorem Sound.strays_acts (h : Sound net) (hacts : Acts p net e client x mid) {y : N × R}
    (hy : y ∈ (mid m).strays) : y.1 ≠ m := by
  rcases hacts.mem_strays hy with hprior | ⟨w, -, -, hw, hsent, rfl⟩
  · exact h.strays m y hprior
  · refine h.accepted m w hw ?_
    rw [hsent]
    nofun

theorem Sound.accept (h : Sound net) {w : Waiting N R F A} (hidle : (net n).waiting = none)
    (hw : (net c).waiting = some w) (htarget : w.target = n) : Sound (net.setStatus c w .sent) where
  accepted m v hv hstatus := by
    rcases setStatus_waiting hv with ⟨rfl, rfl⟩ | ⟨-, hprior⟩
    · change w.target ≠ m
      rw [htarget]
      rintro rfl
      rw [hidle] at hw
      cases hw
    · exact h.accepted m v hprior hstatus
  strays m y hy := by
    rw [setStatus_strays] at hy
    exact h.strays m y hy
  taken m v hv htaken := by
    rcases setStatus_waiting hv with ⟨rfl, rfl⟩ | ⟨-, hprior⟩
    · cases htaken
    · exact (h.taken m v hprior htaken).setStatus hw _

theorem Sound.act (h : Sound net) {r : S × Next N R F A} (hacts : Acts p net e client x mid) :
    Sound (mid.proceed e.node client r) where
  accepted m w hw hstatus := by
    rcases proceed_waiting hw with ⟨-, hconnecting, -⟩ | ⟨-, hmid⟩ | ⟨-, -, v, a, hv, htaken, rfl⟩
    · exact absurd hconnecting hstatus
    · exact h.accepted_acts hacts hmid hstatus
    · have hnot : v.status ≠ .connecting := by
        rw [htaken]
        nofun
      have hne := h.accepted_acts hacts hv hnot
      exact hne
  strays m y hy := by
    rw [proceed_strays] at hy
    exact h.strays_acts hacts hy
  taken m w hw htaken := by
    rcases proceed_waiting hw with ⟨-, hconnecting, -⟩ | ⟨hne, hmid⟩ | ⟨-, -, v, a, -, -, rfl⟩
    · rw [hconnecting] at htaken
      cases htaken
    · by_cases htarget : w.target = e.node
      · obtain rfl := h.client_of_acts hacts hmid htaken htarget
        obtain ⟨s, next⟩ := r
        cases next with
        | call target request frame =>
          rw [htarget, Net.proceed, Net.setNode, WorksFor, Function.update_self]
          exact ⟨_, rfl, rfl⟩
        | answer a =>
          have hnode : (mid.setNode e.node s none m).waiting = some w := by
            unfold Net.setNode
            rwa [Function.update_of_ne hne]
          rw [Net.proceed, answer_taken hnode htaken htarget, Net.setStatus, Function.update_self] at hw
          rw [← Option.some.inj hw] at htaken
          cases htaken
      · exact (h.worksFor hacts hmid htaken htarget).proceed htarget client r
    · cases htaken

theorem Sound.move (h : Sound net) (hmove : Move p net e net') : Sound net' := by
  cases hmove with
  | accept hidle hw htarget => exact h.accept hidle hw htarget
  | act hacts => exact h.act hacts

end Sound

/-- What the nodes rely on and what they promise: of the state of each node, of the requests from node to node and
from outside, and of the frames that a node keeps while it waits. -/
structure Contract (N R F S : Type*) where
  Local : N → S → Prop
  Sends : N → N → R → Prop
  Comes : N → R → Prop
  Keeps : N → F → Prop

namespace Contract
variable (k : Contract N R F S)

/-- A node does as it promised. -/
def Result (n : N) (r : S × Next N R F A) : Prop :=
  k.Local n r.1 ∧ ∀ target request frame, r.2 = .call target request frame → k.Sends n target request ∧ k.Keeps n frame

/-- The program keeps the contract, and does not fail under it. -/
structure Kept (k : Contract N R F S) (p : Program N R F A S ε) : Prop where
  outside : ∀ n s request, k.Local n s → k.Comes n request → ∃ r, p.start s none request = .ok r ∧ k.Result n r
  inside : ∀ n s c request, k.Local n s → k.Sends c n request → c ≠ n →
    ∃ r, p.start s (some c) request = .ok r ∧ k.Result n r
  resume : ∀ n s frame a, k.Local n s → k.Keeps n frame → ∃ r, p.resume s frame a = .ok r ∧ k.Result n r

/-- The contract in a network. -/
structure Holds (net : Net N R F A S) : Prop extends Sound net where
  locals : ∀ n, k.Local n (net n).state
  sends : ∀ n w, (net n).waiting = some w → k.Sends n w.target w.request ∧ k.Keeps n w.frame
  sent : ∀ n, ∀ x ∈ (net n).strays, k.Sends n x.1 x.2

/-- An event that the contract allows. -/
def Allows : Event N R A → Prop
  | .arrive n request => k.Comes n request
  | _ => True

/-- A node that asks itself. -/
def Circles (net : Net N R F A S) : Prop := ∃ n w, (net n).waiting = some w ∧ w.target = n

/-- A node that serves another one, or goes on after an answer. -/
def Advances (p : Program N R F A S ε) (net : Net N R F A S) : Prop :=
  ∃ e net', Move p net e net' ∧ ((∃ n c, e = .accept n c) ∨ (∃ n c request, e = .serve n c request) ∨ ∃ n, e = .resume n)

variable {k} {net mid net' : Net N R F A S} {p : Program N R F A S ε} {n c : N} {e : Event N R A}
  {client : Option N} {x : Except ε (S × Next N R F A)}

theorem Holds.acts (h : k.Holds net) (hacts : Acts p net e client x mid) {m : N} {w : Waiting N R F A}
    (hw : (mid m).waiting = some w) : k.Sends m w.target w.request ∧ k.Keeps m w.frame := by
  rcases hacts.waiting hw with hprior | ⟨v, hv, -, -, -, rfl⟩
  · exact h.sends m w hprior
  · exact h.sends m v hv

theorem Holds.accept (h : k.Holds net) {w : Waiting N R F A} (hidle : (net n).waiting = none)
    (hw : (net c).waiting = some w) (htarget : w.target = n) : k.Holds (net.setStatus c w .sent) where
  toSound := h.toSound.accept hidle hw htarget
  locals m := by
    rw [setStatus_state]
    exact h.locals m
  sends m v hv := by
    rcases setStatus_waiting hv with ⟨rfl, rfl⟩ | ⟨-, hprior⟩
    · exact h.sends m w hw
    · exact h.sends m v hprior
  sent m y hy := by
    rw [setStatus_strays] at hy
    exact h.sent m y hy

theorem Holds.act (h : k.Holds net) {r : S × Next N R F A} (hacts : Acts p net e client x mid)
    (hr : k.Result e.node r) : k.Holds (mid.proceed e.node client r) where
  toSound := h.toSound.act hacts
  locals m := by
    by_cases hm : m = e.node
    · rw [hm, proceed_state]
      exact hr.1
    · rw [proceed_state_of_ne mid client r hm, hacts.state]
      exact h.locals m
  sends m w hw := by
    rcases proceed_waiting hw with ⟨rfl, -, -, hcall⟩ | ⟨-, hmid⟩ | ⟨-, -, v, a, hv, -, rfl⟩
    · exact hr.2 _ _ _ hcall
    · exact h.acts hacts hmid
    · have hprior := h.acts hacts hv
      exact hprior
  sent m y hy := by
    rw [proceed_strays] at hy
    rcases hacts.mem_strays hy with hprior | ⟨w, -, -, hw, -, rfl⟩
    · exact h.sent m y hprior
    · exact (h.sends m w hw).1

/-- Who is served, be it late, sent its request to another node. -/
theorem Holds.served (h : k.Holds net) {request : R} (hacts : Acts p net e client x mid)
    (he : e = .serve n c request ∨ e = .late n c request) : k.Sends c n request ∧ c ≠ n := by
  cases hacts with
  | @serve _ _ w x hidle hw htarget hsent hx =>
    cases he with
    | inl heq =>
      cases heq
      refine ⟨htarget ▸ (h.sends c w hw).1, ?_⟩
      rintro rfl
      rw [hidle] at hw
      cases hw
    | inr heq => cases heq
  | @late _ _ _ before after x hidle hstrays hx =>
    cases he with
    | inl heq => cases heq
    | inr heq =>
      cases heq
      have hmem : (n, request) ∈ (net c).strays := by
        rw [hstrays]
        exact List.mem_append_right _ List.mem_cons_self
      exact ⟨h.sent c _ hmem, Ne.symm (h.strays c _ hmem)⟩
  | _ => rcases he with heq | heq <;> cases heq

/-- Under the contract a node that acts does not fail, and does as it promised. -/
theorem Kept.acts (hkept : k.Kept p) (h : k.Holds net) (he : k.Allows e) (hacts : Acts p net e client x mid) :
    ∃ r, x = .ok r ∧ k.Result e.node r := by
  have hserved : ∀ n c request, e = .serve n c request ∨ e = .late n c request → k.Sends c n request ∧ c ≠ n :=
    fun n c request => h.served hacts
  cases hacts with
  | @arrive n request x hidle hx =>
    obtain ⟨r, hr, hresult⟩ := hkept.outside n (net n).state request (h.locals n) he
    exact ⟨r, hx.symm.trans hr, hresult⟩
  | @serve n c w x hidle hw htarget hsent hx =>
    obtain ⟨hsends, hne⟩ := hserved n c w.request (.inl rfl)
    obtain ⟨r, hr, hresult⟩ := hkept.inside n (net n).state c w.request (h.locals n) hsends hne
    exact ⟨r, hx.symm.trans hr, hresult⟩
  | @late n c request before after x hidle hstrays hx =>
    obtain ⟨hsends, hne⟩ := hserved n c request (.inr rfl)
    obtain ⟨r, hr, hresult⟩ := hkept.inside n (net n).state c request (h.locals n) hsends hne
    exact ⟨r, hx.symm.trans hr, hresult⟩
  | @resume n w a x hw ha hx =>
    obtain ⟨r, hr, hresult⟩ := hkept.resume n (net n).state w.frame a (h.locals n) (h.sends n w hw).2
    exact ⟨r, hx.symm.trans hr, hresult⟩
  | @giveUp n w a x hw hopen hx =>
    obtain ⟨r, hr, hresult⟩ := hkept.resume n (net n).state w.frame a (h.locals n) (h.sends n w hw).2
    exact ⟨r, hx.symm.trans hr, hresult⟩

theorem Kept.not_fails (hkept : k.Kept p) (h : k.Holds net) (he : k.Allows e) : ¬ Fails p net e := by
  rintro ⟨client, err, mid, hacts⟩
  obtain ⟨r, hr, -⟩ := hkept.acts h he hacts
  cases hr

theorem Kept.move (hkept : k.Kept p) (h : k.Holds net) (he : k.Allows e) (hmove : Move p net e net') :
    k.Holds net' := by
  cases hmove with
  | accept hidle hw htarget => exact h.accept hidle hw htarget
  | act hacts =>
    obtain ⟨r, hr, hresult⟩ := hkept.acts h he hacts
    obtain rfl := Except.ok.inj hr
    exact h.act hacts hresult

/-- The contract holds through a run whose requests from outside it allows. -/
theorem Kept.run (hkept : k.Kept p) (h : k.Holds net) {es : List (Event N R A)}
    (hes : ∀ e ∈ es, k.Allows e) (hrun : Run (Move p) net es net') : k.Holds net' := by
  induction hrun with
  | nil => exact h
  | snoc hrun hmove ih =>
    obtain ⟨hprior, hlast⟩ := List.forall_mem_append.mp hes
    exact hkept.move (ih hprior) (hlast _ (List.mem_singleton_self _)) hmove

/-- If the nodes ask each other in the direction of a rank, then the chain of those who wait ends at a node that is
idle, that has its answer, or that asks itself. -/
theorem Kept.advances (hkept : k.Kept p) (h : k.Holds net) (rank : N → ℕ)
    (hrank : ∀ c n request, k.Sends c n request → c ≠ n → rank n < rank c) {w : Waiting N R F A}
    (hw : (net n).waiting = some w) : Circles net ∨ Advances p net := by
  induction hn : rank n using Nat.strongRecOn generalizing n w with
  | ind d ih =>
    by_cases hself : w.target = n
    · exact .inl ⟨n, w, hw, hself⟩
    have hless : rank w.target < d := hn ▸ hrank n w.target w.request (h.sends n w hw).1 (Ne.symm hself)
    cases hidle : (net w.target).waiting with
    | some v => exact ih _ hless hidle rfl
    | none =>
      right
      cases hstatus : w.status with
      | connecting => exact ⟨_, _, .accept hidle hw rfl hstatus, .inl ⟨_, _, rfl⟩⟩
      | sent =>
        obtain ⟨r, hr, -⟩ := hkept.inside w.target (net w.target).state n w.request (h.locals _) (h.sends n w hw).1
          (Ne.symm hself)
        exact ⟨_, _, .act (.serve hidle hw rfl hstatus hr), .inr (.inl ⟨_, _, _, rfl⟩)⟩
      | taken => exact absurd rfl (h.not_taken hidle hw hstatus)
      | answered a =>
        obtain ⟨r, hr, -⟩ := hkept.resume n (net n).state w.frame a (h.locals n) (h.sends n w hw).2
        exact ⟨_, _, .act (.resume hw hstatus hr), .inr (.inr ⟨_, rfl⟩)⟩

end Contract
end SynchronousCalls
