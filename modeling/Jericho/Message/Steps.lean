import Jericho.Library.Runs
import Jericho.Message.Operations

/-! The steps of a node, and what each of its operations does to the table and the heap. -/
namespace Jericho.Message
open StdText Util Server Runs

/-- What the main thread calls, and the steps of the fetch jobs in between. -/
inductive Step where
  | sendAsync (now : Int) (url content : Bytes) (callback : Option Callback)
  | broadcastAsync (now : Int) (urls : List Bytes) (content : Bytes)
  | ricochetAsync (now : Int) (url content : Bytes) (callback : Option Callback)
  | ricochetReply (now : Int) (req : Request) (url content : Bytes) (callback : Option Callback) (type : Bytes)
      (ticket : Int)
  | reply (now : Int) (req : Request) (url content : Bytes) (callback : Option Callback) (type : Bytes)
  | fulfill (req : Request)
  | deleteRequest (i : Nat)
  | cleanse (now : Int)
  | work (i : Nat) (got : FetchResult)

/-- The senders that take a new ticket. -/
def Step.Sends : Step → Prop
  | .sendAsync _ _ _ _ | .broadcastAsync _ _ _ | .ricochetAsync _ _ _ _ => True
  | _ => False

/-- What a step returns to its caller. -/
inductive Result where
  | done
  | ticket (ticket : Int)
  | fulfilled (out : Fulfilled)

namespace Bifrost
variable (average : List UInt64 → Bytes)

def step (s : Bifrost) : Step → Exec (Result × Bifrost)
  | .sendAsync now url content callback => (s.sendAsync now url content callback).map fun r => (.ticket r.1, r.2)
  | .broadcastAsync now urls content => (s.broadcastAsync now urls content).map fun r => (.ticket r.1, r.2)
  | .ricochetAsync now url content callback =>
    (s.ricochetAsync now url content callback).map fun r => (.ticket r.1, r.2)
  | .ricochetReply now req url content callback type ticket =>
    (s.ricochetReply now req url content callback type ticket).map fun s' => (.done, s')
  | .reply now req url content callback type =>
    (s.reply now req url content callback type).map fun s' => (.done, s')
  | .fulfill req => (s.job average req).map fun r => (.fulfilled r.1, r.2)
  | .deleteRequest i => .ok (.done, s.deleteRequest i)
  | .cleanse now => (s.cleanse now).map fun s' => (.done, s')
  | .work i got => (s.work i got).map fun s' => (.done, s')

/-- A step that returns; its label is the call with its result. -/
def Move (s : Bifrost) (l : Step × Result) (t : Bifrost) : Prop := s.step average l.1 = .ok (l.2, t)

/-- A node as `main` starts it. -/
def start (host port : Bytes) : Bifrost := { host := host, port := port }

def Reachable (s : Bifrost) : Prop := ∃ host port ls, Run (Move average) (start host port) ls s

/-- A list of calls, one after the other. -/
def calls (s : Bifrost) : List Step → Exec (List (Step × Result) × Bifrost)
  | [] => .ok ([], s)
  | e :: es => do
    let (r, t) ← s.step average e
    let (ls, u) ← calls t es
    return ((e, r) :: ls, u)

variable {average}

theorem run_calls {s u : Bifrost} (es : List Step) {ls : List (Step × Result)} (h : s.calls average es = .ok (ls, u)) :
    Run (Move average) s ls u := by
  induction es generalizing s ls with
  | nil =>
    obtain ⟨rfl, rfl⟩ := Prod.mk.inj (Except.ok.inj h)
    exact .nil
  | cons e es ih =>
    obtain ⟨⟨r, t⟩, hstep, h⟩ := bind_eq_ok.mp h
    obtain ⟨⟨ls', v⟩, hrest, h⟩ := bind_eq_ok.mp h
    obtain ⟨rfl, rfl⟩ := Prod.mk.inj (Except.ok.inj h)
    have hfirst : Run (Move average) s [(e, r)] t := Run.single hstep
    exact hfirst.trans (ih hrest)

/-- What a step did, by the kind of its call. -/
inductive StepCase (s : Bifrost) : Step → Result → Bifrost → Prop
  | issue {e : Step} {now t : Int} {urls : List Bytes} {content : Bytes} {dumped : Bool}
      {f : MessageBuffer → MessageBuffer} {s' : Bifrost} (he : e.Sends) (hf : Fills f) (ht : t = s.ticketId + 1)
      (h : post { s with ticketId := t } now t urls content dumped f = .ok s') : StepCase s e (.ticket t) s'
  | ricochetReply {now t : Int} {req : Request} {url content type : Bytes} {callback : Option Callback}
      {f : MessageBuffer → MessageBuffer} {s' : Bifrost} (hf : Fills f)
      (h : s.post now t [url] content true f = .ok s') :
      StepCase s (.ricochetReply now req url content callback type t) .done s'
  | reply {now : Int} {req : Request} {url content type : Bytes} {callback : Option Callback} {s' : Bifrost}
      (h : s.reply now req url content callback type = .ok s') :
      StepCase s (.reply now req url content callback type) .done s'
  | fulfill {req : Request} {t : Int} {out : Fulfilled} {s₁ : Bifrost} {n : Nat}
      (ht : stoi (req.header ticketText) = .ok t) (hcase : FulfillCase s req t out s₁)
      (hn : n = (if out.deleted then 1 else 0) + if out.status = 1 ∧ req.callback.isSome then 1 else 0) :
      StepCase s (.fulfill req) (.fulfilled out) { s₁ with
        requests := s₁.requests ++ [{ callback := req.callback.isSome, released := n, kept := out.status = 2 }] }
  | deleteRequest {i : Nat} : StepCase s (.deleteRequest i) .done (s.deleteRequest i)
  | cleanse {now : Int} {s' : Bifrost} (h : s.cleanse now = .ok s') : StepCase s (.cleanse now) .done s'
  | work {i : Nat} {got : FetchResult} {s' : Bifrost} (hcase : WorkCase s i got s') :
      StepCase s (.work i got) .done s'

theorem sender_spec {s s' : Bifrost} {e : Step} {r : Result} {now : Int} {urls : List Bytes} {content : Bytes}
    {dumped : Bool} {f : Int → MessageBuffer → MessageBuffer} (he : e.Sends) (hf : ∀ t, Fills (f t))
    (h : (do
      let ticket ← increment s.ticketId
      let s' ← { s with ticketId := ticket }.post now ticket urls content dumped (f ticket)
      return (ticket, s') : Exec (Int × Bifrost)).map (fun r => (Result.ticket r.1, r.2)) = .ok (r, s')) :
    StepCase s e r s' := by
  obtain ⟨x, hx, hlabel⟩ := map_eq_ok.mp h
  obtain ⟨ticket, hinc, hx⟩ := bind_eq_ok.mp hx
  obtain ⟨s₁, hpost, hx⟩ := bind_eq_ok.mp hx
  obtain rfl := Except.ok.inj hx
  obtain ⟨rfl, rfl⟩ := Prod.mk.inj hlabel
  exact .issue he (hf ticket) (increment_spec hinc).1 hpost

theorem step_spec {s s' : Bifrost} {e : Step} {r : Result} (h : s.step average e = .ok (r, s')) :
    StepCase s e r s' := by
  cases e with
  | sendAsync now url content callback => exact sender_spec trivial (fun _ => fills_fill _ _ _ _) h
  | broadcastAsync now urls content => exact sender_spec trivial (fun _ => fills_fill _ _ _ _) h
  | ricochetAsync now url content callback => exact sender_spec trivial (fun _ => fills_fill _ _ _ _) h
  | ricochetReply now req url content callback type ticket =>
    obtain ⟨x, hx, hlabel⟩ := map_eq_ok.mp h
    obtain ⟨rfl, rfl⟩ := Prod.mk.inj hlabel
    exact .ricochetReply (fills_fill _ _ _ _) hx
  | reply now req url content callback type =>
    obtain ⟨x, hx, hlabel⟩ := map_eq_ok.mp h
    obtain ⟨rfl, rfl⟩ := Prod.mk.inj hlabel
    exact .reply hx
  | fulfill req =>
    obtain ⟨x, hx, hlabel⟩ := map_eq_ok.mp h
    obtain ⟨rfl, rfl⟩ := Prod.mk.inj hlabel
    obtain ⟨t, s₁, n, ht, hcase, hs, hn⟩ := job_spec hx
    rw [hs]
    exact .fulfill ht hcase hn
  | deleteRequest i =>
    obtain ⟨rfl, rfl⟩ := Prod.mk.inj (Except.ok.inj h)
    exact .deleteRequest
  | cleanse now =>
    obtain ⟨x, hx, hlabel⟩ := map_eq_ok.mp h
    obtain ⟨rfl, rfl⟩ := Prod.mk.inj hlabel
    exact .cleanse hx
  | work i got =>
    obtain ⟨x, hx, hlabel⟩ := map_eq_ok.mp h
    obtain ⟨rfl, rfl⟩ := Prod.mk.inj hlabel
    exact .work (work_spec hx)

end Bifrost

/-- A job request with a ticket, a type, a message number and a content. -/
def jobRequest (ticket type messageId content : Bytes) : Request :=
  { content := content, protocol := lit "JOB", client := ⟨[], Nat.zero_le _, []⟩
    headers := (∅ : StrMap).assign [⟨ticketText, ticket⟩, ⟨brokerType, type⟩, ⟨messageIdText, messageId⟩] }

/-- The URL of another node. -/
def peer : Bytes := lit "plain+job://b:81/sum"

end Jericho.Message
