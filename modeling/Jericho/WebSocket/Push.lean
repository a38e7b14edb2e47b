import Jericho.Pool.Drain
import Jericho.WebSocket.Frame

/-! Messages that the server pushes to its web socket: `System::ws_send` leaves each in the request
buffer of the client, and a job of the thread pool sends what it finds there. -/
namespace Jericho.WebSocket
open StdText Runs Pool Ledger

/-- The job that `ws_send` adds to the pool. Its argument is always the one web socket. -/
inductive Job where
  | wsToClient
  deriving DecidableEq

/-- Where the thread of the server stands in `ws_send`. -/
inductive Writer where
  | idle
  | cleared (message : Bytes)
  | stored (message : Bytes)
  | cut (message : Bytes)
  deriving DecidableEq

/-- How far the job of a push has come in `ws_to_client`. -/
inductive Sender where
  | waiting
  | entered
  | copied (buffer : Bytes)
  | sent
  | left
  deriving DecidableEq

/-- A push whose job is in the pool, with the message that it was for. -/
structure Call where
  message : Bytes
  sender : Sender := .waiting
  deriving DecidableEq

/-- The pool, the web socket, and the pushes so far; their jobs have the numbers of their places. `spare` is
whether the byte behind the array of `ws_to_client` belongs to nobody. -/
structure Pushes where
  threads : Threads Job
  client : Client
  spare : Bool
  writer : Writer := .idle
  calls : List Call := []

/-- A copy or a clearing of the buffer is one step. -/
inductive Push where
  | begin (message : Bytes)
  | store
  | cut
  | add
  | pool (e : Event Job)
  | copy (i : Nat)
  | send (i : Nat)
  | clear (i : Nat)

namespace Pushes

def start (num : Nat) (client : Client) (spare : Bool) : Pushes :=
  { threads := .create num, client := client, spare := spare }

def setRequest (s : Pushes) (request : Bytes) : Pushes := { s with client := { s.client with request := request } }

/-- A job goes on. -/
def goto (s : Pushes) (a : Nat) (sender : Sender) : Pushes :=
  { s with calls := s.calls.modify a fun call => { call with sender := sender } }

/-- The push whose job a worker runs. -/
def current (s : Pushes) (i : Nat) : Option (Nat × Sender) :=
  match s.threads.workers[i]? with
  | some (.running a) => s.calls[a]?.map fun call => (a, call.sender)
  | _ => none

/-- The text that `ws_to_client` finds, up to the terminator behind its array. -/
def buffer (client : Client) : Bytes := cstr ((client.request.set wsPacket 0).take wsPacket ++ [0])

/-- A step of the pool. A worker enters the job that it starts. -/
def work (s : Pushes) (e : Event Job) : Option (Exec Pushes) :=
  (s.threads.step e).map fun x => x.map fun r =>
    match r.1 with
    | .ran a _ => { s with threads := r.2 }.goto a .entered
    | _ => { s with threads := r.2 }

/-- The next step of a thread, if it is at such a step. Only `ws_send` adds jobs, and a worker
leaves a job at its end. A job stores its terminator behind the array that it copies to. -/
def step (s : Pushes) : Push → Option (Exec Pushes)
  | .begin message =>
    if s.writer = .idle ∧ 0 ∉ message ∧ message.length < maxRequestSize
    then some (.ok { s.setRequest [] with writer := .cleared message }) else none
  | .store =>
    match s.writer with
    | .cleared message =>
      some (.ok { s.setRequest (message ++ s.client.request.drop message.length) with writer := .stored message })
    | _ => none
  | .cut =>
    match s.writer with
    | .stored message => some (.ok { s.setRequest (s.client.request.set 2048 0) with writer := .cut message })
    | _ => none
  | .add =>
    match s.writer with
    | .cut message =>
      (s.threads.step (.add .wsToClient)).map fun x => x.map fun r =>
        { s with threads := r.2, writer := .idle, calls := s.calls ++ [{ message := message }] }
    | _ => none
  | .pool (.add _) => none
  | .pool (.finish i) =>
    match s.current i with
    | some (_, .left) => s.work (.finish i)
    | _ => none
  | .pool e => s.work e
  | .copy i =>
    match s.current i with
    | some (a, .entered) =>
      some (if s.spare then .ok (s.goto a (.copied (buffer s.client))) else .error .undefined)
    | _ => none
  | .send i =>
    match s.current i with
    | some (a, .copied text) => some (.ok ({ s with client := (wsSendframe s.client text frameTxt).2 }.goto a .sent))
    | _ => none
  | .clear i =>
    match s.current i with
    | some (a, .sent) => some (.ok ((s.setRequest []).goto a .left))
    | _ => none

def Move (s : Pushes) (e : Push) (t : Pushes) : Prop := s.step e = some (.ok t)

/-- The steps of a schedule that all meet a condition, one after the other. -/
def schedule (guard : Pushes → Push → Bool) (s : Pushes) : List Push → Option Pushes
  | [] => some s
  | e :: es =>
    match guard s e, s.step e with
    | true, some (.ok t) => schedule guard t es
    | _, _ => none

theorem run_schedule (guard : Pushes → Push → Bool) {s u : Pushes} (es : List Push)
    (h : schedule guard s es = some u) : Run (Restrict (fun s e => guard s e = true) Move) s es u := by
  induction es generalizing s with
  | nil =>
    obtain rfl := Option.some.inj h
    exact .nil
  | cons e es ih =>
    unfold schedule at h
    split at h
    · rename_i t hguard hstep
      exact (Run.single ⟨hguard, hstep⟩).trans (ih h)
    · cases h

/-- The ways a step ends. -/
inductive StepCase (s : Pushes) : Push → Pushes → Prop
  | begin {message : Bytes} (hidle : s.writer = .idle) (hmessage : 0 ∉ message) :
      StepCase s (.begin message) { s.setRequest [] with writer := .cleared message }
  | store {message : Bytes} (hwriter : s.writer = .cleared message) :
      StepCase s .store
        { s.setRequest (message ++ s.client.request.drop message.length) with writer := .stored message }
  | cut {message : Bytes} (hwriter : s.writer = .stored message) :
      StepCase s .cut { s.setRequest (s.client.request.set 2048 0) with writer := .cut message }
  | add {message : Bytes} {seen : Seen Job} {threads : Threads Job} (hwriter : s.writer = .cut message)
      (hmove : s.threads.Move (.add .wsToClient, seen) threads) :
      StepCase s .add
        { s with threads := threads, writer := .idle, calls := s.calls ++ [{ message := message }] }
  | enter {i a : Nat} {job : Job} {threads : Threads Job} (hmove : s.threads.Move (.run i, .ran a job) threads) :
      StepCase s (.pool (.run i)) ({ s with threads := threads }.goto a .entered)
  | work {e : Event Job} {seen : Seen Job} {threads : Threads Job} (hmove : s.threads.Move (e, seen) threads)
      (hadd : ∀ job, e ≠ .add job) (hrun : ∀ i, e ≠ .run i)
      (hfinish : ∀ i, e = .finish i → ∃ a, s.current i = some (a, .left)) :
      StepCase s (.pool e) { s with threads := threads }
  | copy {i a : Nat} (hi : s.current i = some (a, .entered)) :
      StepCase s (.copy i) (s.goto a (.copied (buffer s.client)))
  | send {i a : Nat} {text : Bytes} (hi : s.current i = some (a, .copied text)) :
      StepCase s (.send i) ({ s with client := (wsSendframe s.client text frameTxt).2 }.goto a .sent)
  | clear {i a : Nat} (hi : s.current i = some (a, .sent)) : StepCase s (.clear i) ((s.setRequest []).goto a .left)

variable {s t : Pushes}

theorem work_spec {e : Event Job} (hadd : ∀ job, e ≠ .add job)
    (hfinish : ∀ i, e = .finish i → ∃ a, s.current i = some (a, .left)) (h : s.work e = some (.ok t)) :
    StepCase s (.pool e) t := by
  obtain ⟨x, hstep, hx⟩ := Option.map_eq_some_iff.mp h
  cases x with
  | error fault => cases hx
  | ok r =>
    obtain ⟨seen, threads⟩ := r
    have hmove : s.threads.Move (e, seen) threads := hstep
    obtain rfl := Except.ok.inj hx
    have hcase := Threads.step_spec hmove
    cases hcase with
    | addFirst | addLast => exact absurd rfl (hadd _)
    | run => exact .enter hmove
    | sleep | leave | take | finish | settle | wake | wait | destroy | block | pass | wakeCaller =>
      exact .work hmove hadd (fun i heq => nomatch heq) hfinish

theorem step_spec {e : Push} (h : s.Move e t) : StepCase s e t := by
  unfold Move at h
  cases e with
  | begin message =>
    dsimp only [step] at h
    split_ifs at h with hbegin
    obtain rfl := Except.ok.inj (Option.some.inj h)
    exact .begin hbegin.1 hbegin.2.1
  | store =>
    dsimp only [step] at h
    split at h
    · rename_i message hwriter
      obtain rfl := Except.ok.inj (Option.some.inj h)
      exact .store hwriter
    · cases h
  | cut =>
    dsimp only [step] at h
    split at h
    · rename_i message hwriter
      obtain rfl := Except.ok.inj (Option.some.inj h)
      exact .cut hwriter
    · cases h
  | add =>
    dsimp only [step] at h
    split at h
    · rename_i message hwriter
      obtain ⟨x, hstep, hx⟩ := Option.map_eq_some_iff.mp h
      cases x with
      | error fault => cases hx
      | ok r =>
        obtain rfl := Except.ok.inj hx
        exact .add hwriter hstep
    · cases h
  | pool e =>
    cases e with
    | add job => cases h
    | finish i =>
      dsimp only [step] at h
      split at h
      · rename_i a hi
        refine work_spec (fun job heq => nomatch heq) (fun j heq => ?_) h
        obtain rfl := Event.finish.inj heq
        exact ⟨a, hi⟩
      · cases h
    | acquire | run | settle | wake | wait | destroy | check | wakeCaller =>
      exact work_spec (fun job heq => nomatch heq) (fun j heq => nomatch heq) h
  | copy i =>
    dsimp only [step] at h
    split at h
    · rename_i a hi
      split_ifs at h
      · obtain rfl := Except.ok.inj (Option.some.inj h)
        exact .copy hi
      · cases Option.some.inj h
    · cases h
  | send i =>
    dsimp only [step] at h
    split at h
    · rename_i a text hi
      obtain rfl := Except.ok.inj (Option.some.inj h)
      exact .send hi
    · cases h
  | clear i =>
    dsimp only [step] at h
    split at h
    · rename_i a hi
      obtain rfl := Except.ok.inj (Option.some.inj h)
      exact .clear hi
    · cases h

end Pushes

/-- The message of a call of `ws_send` that is under way. -/
def Writer.message : Writer → Option Bytes
  | .idle => none
  | .cleared message | .stored message | .cut message => some message

/-- The buffer has the message of a call of `ws_send` in it. -/
def Writer.filled : Writer → Bool
  | .idle | .cleared _ => false
  | .stored _ | .cut _ => true

/-- The job has copied the buffer. -/
def Sender.read : Sender → Bool
  | .waiting | .entered => false
  | .copied _ | .sent | .left => true

/-- The job has sent its frame. -/
def Sender.through : Sender → Bool
  | .waiting | .entered | .copied _ => false
  | .sent | .left => true

/-- The message of a step that begins a call of `ws_send`. -/
def Push.message : Push → Option Bytes
  | .begin message => some message
  | _ => none

/-- The messages of the calls of `ws_send`, in order. -/
def pushed (es : List Push) : List Bytes := es.filterMap Push.message

namespace Pushes

/-- No push waits for its job to copy the buffer. -/
def allRead (s : Pushes) : Bool := s.calls.all fun call => call.sender.read

/-- No push disturbs another one: a call of `ws_send` fits the buffer and finds it read, the jobs
send in the order of their calls, and none clears a buffer that is still to be read. And no job stores its
terminator into something else. -/
def undisturbed (s : Pushes) : Push → Bool
  | .begin message => message.length ≤ 2048 && s.allRead
  | .send i =>
    match s.current i with
    | some (a, _) => (s.calls.take a).all fun call => call.sender.through
    | none => true
  | .clear _ => s.allRead && !s.writer.filled
  | .copy _ => s.spare
  | .pool .destroy => false
  | _ => true

end Pushes

/-- What a ledger knows of the job of a push. -/
def Fits (stage : Option Stage) : Sender → Prop
  | .waiting => stage = none ∨ ∃ i, stage = some (.held i)
  | .entered | .copied _ | .sent => ∃ i, stage = some (.running i)
  | .left => ∃ i, stage = some (.running i) ∨ stage = some (.finished i)

variable {l l' : Ledger Job} {acts : List (Act Job)} {act : Act Job} {sender : Sender} {a : Nat}

/-- A job that was entered was started by the pool. -/
theorem Fits.waiting {stage : Option Stage} (h : Fits stage sender)
    (hstage : ∀ i, stage ≠ some (.running i) ∧ stage ≠ some (.finished i)) : sender = .waiting := by
  cases sender with
  | waiting => rfl
  | entered | copied | sent =>
    obtain ⟨i, hi⟩ := h
    exact absurd hi (hstage i).1
  | left =>
    obtain ⟨i, hi | hi⟩ := h
    · exact absurd hi (hstage i).1
    · exact absurd hi (hstage i).2

theorem Fits.left_of_finished {stage : Option Stage} (h : Fits stage sender) {i : Nat}
    (hstage : stage = some (.finished i)) : sender = .left := by
  subst hstage
  cases sender with
  | left => rfl
  | waiting =>
    obtain hnone | ⟨j, hj⟩ := h
    · cases hnone
    · cases hj
  | entered | copied | sent =>
    obtain ⟨j, hj⟩ := h
    cases hj

/-- The pool takes a waiting job, and releases one that was left. -/
theorem Fits.step (h : Fits (l.stage a) sender) (ha : Accounts acts l) (hstep : Ledger.Step l act l')
    (hrun : ∀ i job, act ≠ .run i a job) (hfinish : ∀ i, act = .finish i a → sender = .left) :
    Fits (l'.stage a) sender := by
  cases hstep with
  | add | close | idle => exact h
  | take i =>
    by_cases heq : a = l.taken
    · rw [ha.stage_eq_none heq.ge] at h
      obtain rfl := h.waiting fun i => ⟨nofun, nofun⟩
      refine .inr ⟨i, ?_⟩
      rw [heq]
      exact Function.update_self _ _ _
    · dsimp only
      rwa [Function.update_of_ne heq]
  | @run i b job hstage =>
    have hne : a ≠ b := fun heq => hrun i job (heq ▸ rfl)
    dsimp only
    rwa [Function.update_of_ne hne]
  | @finish i b hstage =>
    by_cases heq : a = b
    · subst heq
      obtain rfl := hfinish i rfl
      exact ⟨i, .inr (Function.update_self _ _ _)⟩
    · dsimp only
      rwa [Function.update_of_ne heq]

/-- A message that fits the buffer. -/
structure Small (message : Bytes) : Prop where
  nul : 0 ∉ message
  length : message.length ≤ 2048

/-- What the thread in `ws_send` has put into the buffer. -/
def Writer.Keeps (request : Bytes) : Writer → Prop
  | .idle => True
  | .cleared message => Small message ∧ request = []
  | .stored message | .cut message => Small message ∧ request = message

namespace Pushes

theorem buffer_small {client : Client} (h : Small client.request) : buffer client = client.request := by
  have hlength := h.length
  have hpacket : client.request.length ≤ wsPacket := Nat.le_trans hlength (by decide)
  unfold buffer
  rw [List.set_eq_of_length_le hpacket, List.take_of_length_le hpacket]
  exact cstr_append_zero h.nul []

/-- A push whose job still has to do, or has done, what it should. -/
structure Sound (l : Ledger Job) (s : Pushes) (a : Nat) (call : Call) : Prop where
  fits : Fits (l.stage a) call.sender
  unread : call.sender.read = false →
    a + 1 = s.calls.length ∧ s.writer = .idle ∧ buffer s.client = call.message
  text : ∀ text, call.sender = .copied text → text = call.message

/-- What the pushes keep: the frames sent are those of the first calls. -/
structure Delivering (before ms : List Bytes) (l : Ledger Job) (s : Pushes) : Prop where
  hopen : l.closed = false
  count : l.jobs.length = s.calls.length
  online : s.client.online = true
  messages : ms = s.calls.map Call.message ++ s.writer.message.toList
  writer : s.writer.Keeps s.client.request
  calls : ∀ a call, s.calls[a]? = some call → Sound l s a call
  sent : ∃ n ≤ s.calls.length,
    s.client.sent = before ++ ((s.calls.map Call.message).take n).map (WebFrame.plain true 1) ∧
    ∀ a call, s.calls[a]? = some call → (call.sender.through = true ↔ a < n)

variable {s t : Pushes} {before ms : List Bytes} {call : Call}

theorem current_eq {i : Nat} (h : s.current i = some (a, sender)) :
    s.threads.workers[i]? = some (.running a) ∧ ∃ call, s.calls[a]? = some call ∧ call.sender = sender := by
  unfold current at h
  split at h
  · rename_i b hi
    obtain ⟨call, hcall, heq⟩ := Option.map_eq_some_iff.mp h
    obtain ⟨rfl, rfl⟩ := Prod.mk.inj heq
    exact ⟨hi, call, hcall, rfl⟩
  · cases h

theorem allRead_iff : s.allRead = true ↔ ∀ call ∈ s.calls, call.sender.read = true := List.all_eq_true

/-- While a call of `ws_send` is under way the buffer was read by all jobs. -/
theorem Delivering.allRead (h : Delivering before ms l s) (hbusy : s.writer ≠ .idle) : s.allRead = true := by
  rw [allRead_iff]
  intro call hmem
  obtain ⟨a, ha⟩ := List.mem_iff_getElem?.mp hmem
  by_contra hunread
  exact hbusy ((h.calls a call ha).unread (Bool.eq_false_iff.mpr hunread)).2.1

/-- What is kept when the buffer is written after all jobs have read it. -/
theorem Delivering.write (h : Delivering before ms l s) (hread : s.allRead = true) {request : Bytes} {writer : Writer}
    (hkeeps : writer.Keeps request) :
    Delivering before (s.calls.map Call.message ++ writer.message.toList) l
      { s.setRequest request with writer := writer } where
  hopen := h.hopen
  count := h.count
  online := h.online
  messages := rfl
  writer := hkeeps
  calls a call ha := by
    have hsound := h.calls a call ha
    have hcall := allRead_iff.mp hread call (List.mem_of_getElem? ha)
    exact ⟨hsound.fits, fun hunread => absurd (hcall.symm.trans hunread) (by decide), hsound.text⟩
  sent := h.sent

/-- What is kept when the pool does its work. -/
theorem Delivering.ledger (h : Delivering before ms l s) (hopen : l'.closed = false) (hjobs : l'.jobs = l.jobs)
    (hfits : ∀ a call, s.calls[a]? = some call → Fits (l'.stage a) call.sender) (threads : Threads Job) :
    Delivering before ms l' { s with threads := threads } where
  hopen := hopen
  count := by rw [hjobs]; exact h.count
  online := h.online
  messages := h.messages
  writer := h.writer
  calls a call ha := ⟨hfits a call ha, (h.calls a call ha).unread, (h.calls a call ha).text⟩
  sent := h.sent

theorem goto_getElem? (s : Pushes) (a b : Nat) (sender : Sender) :
    (s.goto a sender).calls[b]? =
      if a = b then s.calls[b]?.map fun call => { call with sender := sender } else s.calls[b]? := by
  unfold goto
  rw [List.getElem?_modify]
  split_ifs <;> simp

theorem goto_messages (s : Pushes) (a : Nat) (sender : Sender) :
    (s.goto a sender).calls.map Call.message = s.calls.map Call.message := by
  apply List.ext_getElem?
  intro b
  rw [List.getElem?_map, List.getElem?_map, goto_getElem?]
  split_ifs
  · rw [Option.map_map]
    rfl
  · rfl

theorem goto_length (s : Pushes) (a : Nat) (sender : Sender) : (s.goto a sender).calls.length = s.calls.length :=
  List.length_modify _ _ _

/-- A job that goes on is as sound as before, and so are the other ones. -/
theorem Delivering.sound_goto (h : Delivering before ms l s) (ha : s.calls[a]? = some call)
    (hfits : Fits (l'.stage a) sender) (hothers : ∀ b, b ≠ a → l'.stage b = l.stage b)
    (hread : sender.read = false → call.sender.read = false) (htext : ∀ text, sender = .copied text → text = call.message)
    (ht : t.calls = (s.goto a sender).calls) (hwriter : t.writer = s.writer) (hbuffer : buffer t.client = buffer s.client)
    (b : Nat) (call' : Call) (hb : t.calls[b]? = some call') : Sound l' t b call' := by
  rw [ht, goto_getElem?] at hb
  have hlength : t.calls.length = s.calls.length := by rw [ht, goto_length]
  split_ifs at hb with heq
  · subst heq
    rw [ha] at hb
    obtain rfl := Option.some.inj hb
    refine ⟨hfits, fun hunread => ?_, htext⟩
    rw [hlength, hwriter, hbuffer]
    exact (h.calls a call ha).unread (hread hunread)
  · have hsound := h.calls b call' hb
    refine ⟨?_, fun hunread => ?_, hsound.text⟩
    · rw [hothers b (Ne.symm heq)]
      exact hsound.fits
    · rw [hlength, hwriter, hbuffer]
      exact hsound.unread hunread

/-- A job that goes on without sending. -/
theorem Delivering.goto (h : Delivering before ms l s) (hopen : l'.closed = false) (hjobs : l'.jobs = l.jobs)
    (ha : s.calls[a]? = some call) (hfits : Fits (l'.stage a) sender) (hothers : ∀ b, b ≠ a → l'.stage b = l.stage b)
    (hread : sender.read = false → call.sender.read = false) (htext : ∀ text, sender = .copied text → text = call.message)
    (hthrough : sender.through = call.sender.through) (threads : Threads Job) :
    Delivering before ms l' ({ s with threads := threads }.goto a sender) where
  hopen := hopen
  count := by
    rw [hjobs, goto_length]
    exact h.count
  online := h.online
  messages := by
    rw [goto_messages]
    exact h.messages
  writer := h.writer
  calls := h.sound_goto ha hfits hothers hread htext rfl rfl rfl
  sent := by
    obtain ⟨n, hn, hsent, hiff⟩ := h.sent
    refine ⟨n, ?_, ?_, fun b call' hb => ?_⟩
    · rw [goto_length]
      exact hn
    · rw [goto_messages]
      exact hsent
    · rw [goto_getElem?] at hb
      split_ifs at hb with heq
      · subst heq
        dsimp only at hb
        rw [ha] at hb
        obtain rfl := Option.some.inj hb
        rw [← hiff a call ha, ← hthrough]
      · exact hiff b call' hb

/-- The next job sends its frame. -/
theorem Delivering.send (h : Delivering before ms l s) {i : Nat} {text : Bytes}
    (hi : s.current i = some (a, .copied text))
    (hguard : s.undisturbed (.send i) = true) :
    Delivering before ms l ({ s with client := (wsSendframe s.client text frameTxt).2 }.goto a .sent) := by
  obtain ⟨-, call, ha, hcopied⟩ := current_eq hi
  have hsound := h.calls a call ha
  have hfits : Fits (l.stage a) .sent := by
    have hstage := hsound.fits
    rwa [hcopied] at hstage
  obtain rfl := hsound.text text hcopied
  obtain ⟨n, hn, hsent, hiff⟩ := h.sent
  have hlt : a < s.calls.length := (List.getElem?_eq_some_iff.mp ha).1
  have hlast : a = n := by
    refine Nat.le_antisymm ?_ ?_
    · by_contra hless
      dsimp only [undisturbed] at hguard
      rw [hi] at hguard
      have hshort : n < s.calls.length := by omega
      have hnext : s.calls[n]? = some s.calls[n] := List.getElem?_eq_getElem hshort
      have hbefore : s.calls[n] ∈ s.calls.take a :=
        List.mem_iff_getElem?.mpr ⟨n, by rw [List.getElem?_take_of_lt (by omega), hnext]⟩
      exact Nat.lt_irrefl n ((hiff n _ hnext).mp (List.all_eq_true.mp hguard _ hbefore))
    · by_contra hless
      have hthrough := (hiff a call ha).mpr (Nat.not_le.mp hless)
      rw [hcopied] at hthrough
      cases hthrough
  subst hlast
  have hclient : (wsSendframe s.client call.message frameTxt).2 =
      { s.client with sent := s.client.sent ++ [WebFrame.plain true 1 call.message] } := by
    unfold wsSendframe
    rw [if_pos h.online, wsFrame_eq]
    rfl
  rw [hclient]
  exact
    { hopen := h.hopen
      count := by
        rw [goto_length]
        exact h.count
      online := h.online
      messages := by
        rw [goto_messages]
        exact h.messages
      writer := h.writer
      calls := h.sound_goto ha hfits (fun _ _ => rfl) (fun hunread => nomatch hunread) (fun _ heq => nomatch heq)
        rfl rfl rfl
      sent := by
        refine ⟨a + 1, ?_, ?_, fun b call' hb => ?_⟩
        · rw [goto_length]
          exact hlt
        · have hmessage : (s.calls.map Call.message)[a]? = some call.message := by
            rw [List.getElem?_map, ha]
            rfl
          rw [goto_messages, List.take_add_one, hmessage, List.map_append, ← List.append_assoc, ← hsent]
          rfl
        · rw [goto_getElem?] at hb
          split_ifs at hb with heq
          · subst heq
            dsimp only at hb
            rw [ha] at hb
            obtain rfl := Option.some.inj hb
            exact iff_of_true rfl (Nat.lt_succ_self a)
          · rw [hiff b call' hb]
            omega }

/-- The job of a call of `ws_send` is in the pool. -/
theorem Delivering.add (h : Delivering before ms l s) (ha : Accounts acts l) {message : Bytes}
    (hwriter : s.writer = .cut message) (job : Job) (threads : Threads Job) :
    Delivering before ms { l with jobs := l.jobs ++ [job] }
      { s with threads := threads, writer := .idle, calls := s.calls ++ [{ message := message }] } where
  hopen := h.hopen
  count := by
    rw [List.length_append, List.length_append, h.count]
    rfl
  online := h.online
  messages := by
    rw [h.messages, hwriter, List.map_append]
    exact (List.append_nil _).symm
  writer := trivial
  calls a call hcall := by
    have hread := allRead_iff.mp (h.allRead (by rw [hwriter]; exact nofun))
    rw [List.getElem?_append] at hcall
    split_ifs at hcall with hlt
    · have hsound := h.calls a call hcall
      refine ⟨hsound.fits, fun hunread => ?_, hsound.text⟩
      exact absurd ((hread call (List.mem_of_getElem? hcall)).symm.trans hunread) (by decide)
    · rw [List.getElem?_singleton] at hcall
      split_ifs at hcall with hzero
      obtain rfl := Option.some.inj hcall
      have hlast : a = s.calls.length := by omega
      refine ⟨.inl (ha.stage_eq_none ?_), fun _ => ⟨?_, rfl, ?_⟩, fun _ heq => nomatch heq⟩
      · rw [hlast, ← h.count]
        exact ha.bound
      · rw [hlast, List.length_append]
        rfl
      · have hkeeps := h.writer
        rw [hwriter] at hkeeps
        obtain ⟨hsmall, hrequest⟩ := hkeeps
        rw [← hrequest] at hsmall
        exact (buffer_small hsmall).trans hrequest
  sent := by
    obtain ⟨n, hn, hsent, hiff⟩ := h.sent
    refine ⟨n, ?_, ?_, fun a call hcall => ?_⟩
    · rw [List.length_append]
      exact Nat.le_add_right_of_le hn
    · rw [List.map_append, List.take_append_of_le_length (by rwa [List.length_map])]
      exact hsent
    · rw [List.getElem?_append] at hcall
      split_ifs at hcall with hlt
      · exact hiff a call hcall
      · rw [List.getElem?_singleton] at hcall
        split_ifs at hcall with hzero
        obtain rfl := Option.some.inj hcall
        exact iff_of_false nofun (by omega)

/-- A worker starts a job, and enters it. -/
theorem Delivering.enter (h : Delivering before ms l s) {i : Nat} {job : Job} (hstep : Ledger.Step l (.run i a job) l')
    (threads : Threads Job) : Delivering before ms l' ({ s with threads := threads }.goto a .entered) := by
  cases hstep with
  | run hstage hjob =>
    have hlt : a < s.calls.length := h.count ▸ (List.getElem?_eq_some_iff.mp hjob).1
    have hcall : s.calls[a]? = some s.calls[a] := List.getElem?_eq_getElem hlt
    have hwaiting : (s.calls[a]).sender = .waiting := by
      refine (h.calls a _ hcall).fits.waiting fun j => ?_
      rw [hstage]
      exact ⟨nofun, nofun⟩
    have hopen : Ledger.closed { l with stage := Function.update l.stage a (some (.running i)) } = false := h.hopen
    have hentered : Fits (Function.update l.stage a (some (.running i)) a) .entered := ⟨i, Function.update_self _ _ _⟩
    refine h.goto hopen rfl hcall hentered ?_ ?_ nofun ?_ threads
    · exact fun b hb => Function.update_of_ne hb _ _
    · rw [hwaiting]
      exact id
    · rw [hwaiting]
      rfl

/-- A worker sleeps, takes a job or leaves one, and the server waits for its pool. -/
theorem Delivering.work (h : Delivering before ms l s) (ha : Accounts acts l) {e : Event Job} {seen : Seen Job}
    {threads : Threads Job} (hpool : s.threads.Move (e, seen) threads) (hadd : ∀ job, e ≠ .add job)
    (hrun : ∀ i, e ≠ .run i) (hdestroy : e ≠ .destroy)
    (hfinish : ∀ i, e = .finish i → ∃ a, s.current i = some (a, .left)) (hstep : Ledger.Step l (actOf (e, seen)) l') :
    Delivering before ms l' { s with threads := threads } := by
  have hsame : l'.closed = l.closed ∧ l'.jobs = l.jobs := by
    have hcase := Threads.step_spec hpool
    cases hcase with
    | addFirst | addLast => exact absurd rfl (hadd _)
    | destroy => exact absurd rfl hdestroy
    | sleep | leave | take | run | finish | settle | wake | wait | block | pass | wakeCaller =>
      cases hstep
      exact ⟨rfl, rfl⟩
  refine h.ledger (hsame.1.trans h.hopen) hsame.2 (fun a call hcall => ?_) threads
  refine (h.calls a call hcall).fits.step ha hstep (fun i job hact => ?_) fun i hact => ?_
  · have hcase := Threads.step_spec hpool
    cases hcase with
    | run => exact absurd rfl (hrun _)
    | addFirst | addLast | destroy | sleep | leave | take | finish | settle | wake | wait | block | pass | wakeCaller =>
      cases hact
  · have hcase := Threads.step_spec hpool
    cases hcase with
    | @finish j b hj =>
      obtain ⟨rfl, rfl⟩ := Act.finish.inj hact
      obtain ⟨c, hc⟩ := hfinish j rfl
      obtain ⟨hrunning, call', hcall', hleft⟩ := current_eq hc
      obtain rfl := Phase.running.inj (Option.some.inj (hj.symm.trans hrunning))
      obtain rfl := Option.some.inj (hcall.symm.trans hcall')
      exact hleft
    | addFirst | addLast | destroy | sleep | leave | take | run | settle | wake | wait | block | pass | wakeCaller =>
      cases hact

/-- A job copies the buffer. -/
theorem Delivering.copy (h : Delivering before ms l s) {i : Nat} (hi : s.current i = some (a, .entered)) :
    Delivering before ms l (s.goto a (.copied (buffer s.client))) := by
  obtain ⟨-, call, ha, hentered⟩ := current_eq hi
  have hsound := h.calls a call ha
  have hunread : call.sender.read = false := by
    rw [hentered]
    rfl
  have hfits : Fits (l.stage a) (.copied (buffer s.client)) := by
    have hstage := hsound.fits
    rwa [hentered] at hstage
  refine h.goto h.hopen rfl ha hfits (fun _ _ => rfl) (fun _ => hunread) (fun text htext => ?_) ?_ s.threads
  · obtain rfl := Sender.copied.inj htext
    exact (hsound.unread hunread).2.2
  · rw [hentered]
    rfl

/-- A job clears a buffer that nobody needs. -/
theorem Delivering.clear (h : Delivering before ms l s) {i : Nat} (hi : s.current i = some (a, .sent))
    (hguard : s.undisturbed (.clear i) = true) : Delivering before ms l ((s.setRequest []).goto a .left) := by
  obtain ⟨-, call, ha, hsent⟩ := current_eq hi
  obtain ⟨hread, hfilled⟩ := (Bool.and_eq_true _ _).mp hguard
  have hkeeps := h.writer
  have hempty : s.writer.Keeps [] := by
    cases hwriter : s.writer with
    | idle => trivial
    | cleared message =>
      rw [hwriter] at hkeeps
      exact ⟨hkeeps.1, rfl⟩
    | stored | cut =>
      rw [hwriter] at hfilled
      cases hfilled
  have hleft : Fits (l.stage a) .left := by
    have hstage := (h.calls a call ha).fits
    rw [hsent] at hstage
    obtain ⟨j, hj⟩ := hstage
    exact ⟨j, .inl hj⟩
  have hcleared := h.write hread hempty
  rw [← h.messages] at hcleared
  refine hcleared.goto h.hopen rfl ha hleft (fun _ _ => rfl) nofun nofun ?_ s.threads
  rw [hsent]
  rfl

/-- One step of the server or of a worker. -/
theorem Delivering.step (h : Delivering before ms l s) (hkept : Kept acts l s.threads) {e : Push}
    (hguard : s.undisturbed e = true) (hmove : s.Move e t) :
    ∃ acts' l', Kept acts' l' t.threads ∧ Delivering before (ms ++ e.message.toList) l' t := by
  have hkeeps := h.writer
  have hmessages := h.messages
  have hnone : ms ++ (none : Option Bytes).toList = ms := List.append_nil ms
  have hcase := step_spec hmove
  cases hcase with
  | @begin message hidle hmessage =>
    obtain ⟨hlength, hread⟩ := (Bool.and_eq_true _ _).mp hguard
    have hcleared : (Writer.cleared message).Keeps [] := ⟨⟨hmessage, of_decide_eq_true hlength⟩, rfl⟩
    rw [hidle] at hmessages
    rw [hmessages]
    refine ⟨acts, l, hkept, ?_⟩
    have hwritten := h.write hread hcleared
    rwa [Writer.message, ← List.append_nil (s.calls.map Call.message)] at hwritten
  | @store message hwriter =>
    have hread := h.allRead (by rw [hwriter]; exact nofun)
    rw [hwriter] at hkeeps hmessages
    obtain ⟨hsmall, hrequest⟩ := hkeeps
    have hstored : (Writer.stored message).Keeps (message ++ s.client.request.drop message.length) := by
      refine ⟨hsmall, ?_⟩
      rw [hrequest, List.drop_nil, List.append_nil]
    refine ⟨acts, l, hkept, hnone.symm ▸ ?_⟩
    rw [hmessages]
    exact h.write hread hstored
  | @cut message hwriter =>
    have hread := h.allRead (by rw [hwriter]; exact nofun)
    rw [hwriter] at hkeeps hmessages
    obtain ⟨hsmall, hrequest⟩ := hkeeps
    have hcut : (Writer.cut message).Keeps (s.client.request.set 2048 0) := by
      refine ⟨hsmall, ?_⟩
      rw [hrequest, List.set_eq_of_length_le hsmall.length]
    refine ⟨acts, l, hkept, hnone.symm ▸ ?_⟩
    rw [hmessages]
    exact h.write hread hcut
  | @add message seen threads hwriter hadd =>
    obtain ⟨l', hstep, hkept'⟩ := hkept.advance hadd
    refine ⟨_, l', hkept', hnone.symm ▸ ?_⟩
    cases hstep with
    | add job hopen => exact h.add hkept.accounts hwriter _ _
  | @enter i a job threads hrun =>
    obtain ⟨l', hstep, hkept'⟩ := hkept.advance hrun
    exact ⟨_, l', hkept', hnone.symm ▸ h.enter hstep threads⟩
  | @work e seen threads hpool hadd hrun hfinish =>
    have hdestroy : e ≠ .destroy := fun heq => by
      subst heq
      cases hguard
    obtain ⟨l', hstep, hkept'⟩ := hkept.advance hpool
    exact ⟨_, l', hkept', hnone.symm ▸ h.work hkept.accounts hpool hadd hrun hdestroy hfinish hstep⟩
  | copy hi => exact ⟨acts, l, hkept, hnone.symm ▸ h.copy hi⟩
  | send hi => exact ⟨acts, l, hkept, hnone.symm ▸ h.send hi hguard⟩
  | clear hi => exact ⟨acts, l, hkept, hnone.symm ▸ h.clear hi hguard⟩

theorem delivering_start (num : Nat) {client : Client} {spare : Bool} (honline : client.online = true) :
    Delivering client.sent [] {} (start num client spare) where
  hopen := rfl
  count := rfl
  online := honline
  messages := rfl
  writer := trivial
  calls _ _ ha := nomatch ha
  sent := ⟨0, Nat.le_refl 0, (List.append_nil _).symm, fun _ _ ha => nomatch ha⟩

theorem pushed_snoc (es : List Push) (e : Push) : pushed (es ++ [e]) = pushed es ++ e.message.toList := by
  unfold pushed
  rw [List.filterMap_append]
  cases e <;> rfl

/-- A run of steps that do not disturb each other. -/
theorem delivering_run {num : Nat} {client : Client} {spare : Bool} {es : List Push} (honline : client.online = true)
    (hrun : Run (Restrict (fun s e => s.undisturbed e = true) Move) (start num client spare) es s) :
    ∃ acts l, Kept acts l s.threads ∧ Delivering client.sent (pushed es) l s := by
  refine Run.history (P := fun es s => ∃ acts l, Kept acts l s.threads ∧ Delivering client.sent (pushed es) l s) ?_
    ⟨[], {}, kept_create num, delivering_start num honline⟩ hrun
  rintro es t e u ⟨acts, l, hkept, hdelivering⟩ ⟨hguard, hmove⟩
  rw [pushed_snoc]
  exact hdelivering.step hkept hguard hmove

/-- The pool has nothing to do, and nobody is in `ws_send`. -/
structure Rest (s : Pushes) : Prop where
  writer : s.writer = .idle
  queue : s.threads.pool.head = none
  workers : s.threads.pool.workingCount = 0

/-- The jobs of all calls are over when the pool rests. -/
theorem Delivering.left_of_rest (h : Delivering before ms l s) (hkept : Kept acts l s.threads) (hrest : s.Rest)
    (ha : s.calls[a]? = some call) : call.sender = .left := by
  have hopen : s.threads.pool.shutdown = false := hkept.refines.stored.closed.symm.trans h.hopen
  have hlt : a < l.jobs.length := h.count.symm ▸ (List.getElem?_eq_some_iff.mp ha).1
  have hempty : ¬ Queued s.threads a := by
    rintro ⟨workers, hchain, hmem⟩
    rw [(hchain.eq_nil_iff).mp hrest.queue] at hmem
    exact absurd hmem List.not_mem_nil
  obtain ⟨i, hstage⟩ := (hkept.finished_iff a).mp (hkept.finished_of_rest hopen hrest.workers hlt hempty)
  exact (h.calls a call ha).fits.left_of_finished hstage

/-- The text frames of messages. -/
def textFrames (ms : List Bytes) : List Bytes := ms.map (WebFrame.plain true 1)

theorem work_returns (hkept : Kept acts l s.threads) {e : Event Job} {x : Exec Pushes} (h : s.work e = some x) :
    ∃ t, x = .ok t := by
  obtain ⟨y, hstep, rfl⟩ := Option.map_eq_some_iff.mp h
  obtain ⟨r, rfl⟩ := hkept.returns hstep
  exact ⟨_, rfl⟩

/-- A step that meets the condition does not fail. -/
theorem step_returns (hkept : Kept acts l s.threads) {e : Push} {x : Exec Pushes} (hguard : s.undisturbed e = true)
    (h : s.step e = some x) : ∃ t, x = .ok t := by
  cases e with
  | begin message =>
    dsimp only [step] at h
    split_ifs at h
    exact ⟨_, (Option.some.inj h).symm⟩
  | store =>
    dsimp only [step] at h
    split at h
    · exact ⟨_, (Option.some.inj h).symm⟩
    · cases h
  | cut =>
    dsimp only [step] at h
    split at h
    · exact ⟨_, (Option.some.inj h).symm⟩
    · cases h
  | add =>
    dsimp only [step] at h
    split at h
    · obtain ⟨y, hstep, rfl⟩ := Option.map_eq_some_iff.mp h
      obtain ⟨r, rfl⟩ := hkept.returns hstep
      exact ⟨_, rfl⟩
    · cases h
  | pool e =>
    cases e with
    | add job => cases h
    | finish i =>
      dsimp only [step] at h
      split at h
      · exact work_returns hkept h
      · cases h
    | acquire | run | settle | wake | wait | destroy | check | wakeCaller => exact work_returns hkept h
  | copy i =>
    have hspare : s.spare = true := hguard
    dsimp only [step] at h
    split at h
    · rw [hspare, if_pos rfl] at h
      exact ⟨_, (Option.some.inj h).symm⟩
    · cases h
  | send i =>
    dsimp only [step] at h
    split at h
    · exact ⟨_, (Option.some.inj h).symm⟩
    · cases h
  | clear i =>
    dsimp only [step] at h
    split at h
    · exact ⟨_, (Option.some.inj h).symm⟩
    · cases h

/-- Pushes that do not disturb each other are sent in order, each once and unmodified; and when
nothing is left to do all of them were sent. And no step like these fails. -/
theorem push_delivers {num : Nat} {client : Client} {spare : Bool} {es : List Push} (honline : client.online = true)
    (hrun : Run (Restrict (fun s e => s.undisturbed e = true) Move) (start num client spare) es s) :
    (∃ frames, s.client.sent = client.sent ++ frames ∧ frames <+: textFrames (pushed es) ∧
      (s.Rest → frames = textFrames (pushed es))) ∧
    ∀ e x, s.undisturbed e = true → s.step e = some x → ∃ t, x = .ok t := by
  obtain ⟨acts, l, hkept, h⟩ := delivering_run honline hrun
  refine ⟨?_, fun e x hguard hstep => step_returns hkept hguard hstep⟩
  obtain ⟨n, hn, hsent, hiff⟩ := h.sent
  refine ⟨_, hsent, ?_, fun hrest => ?_⟩
  · rw [h.messages]
    exact ((List.take_prefix n _).trans (List.prefix_append _ _)).map _
  · have hall : n = s.calls.length := by
      refine Nat.le_antisymm hn (Nat.not_lt.mp fun hlt => ?_)
      have hcall : s.calls[n]? = some s.calls[n] := List.getElem?_eq_getElem hlt
      have hthrough : (s.calls[n]).sender.through = true := by
        rw [h.left_of_rest hkept hrest hcall]
        rfl
      exact Nat.lt_irrefl n ((hiff n _ hcall).mp hthrough)
    rw [h.messages, hrest.writer, hall, List.take_of_length_le (by rw [List.length_map])]
    exact congrArg textFrames (List.append_nil _).symm

/-- One push, and what the only worker does for it. -/
def pushOne (message : Bytes) : List Push := [.begin message, .store, .cut, .add]

def workOne : List Push :=
  [.pool (.acquire 0), .pool (.run 0), .copy 0, .send 0, .clear 0, .pool (.finish 0), .pool (.settle 0)]

theorem push_delivers_two :
    ∃ (es : List Push) (s : Pushes), pushed es = [lit "a", lit "b"] ∧ s.Rest ∧
      ∃ frames, s.client.sent = frames ∧ frames <+: textFrames (pushed es) ∧
        (s.Rest → frames = textFrames (pushed es)) := by
  have hrun := run_schedule undisturbed (s := start 1 { request := [] } true)
    (pushOne (lit "a") ++ workOne ++ pushOne (lit "b") ++ workOne) rfl
  exact ⟨_, _, rfl, ⟨rfl, rfl, rfl⟩, (push_delivers rfl hrun).1⟩

/-- A second push comes before the first one was copied. -/
theorem push_loses :
    ∃ (es : List Push) (s : Pushes), Run Move (start 1 { request := [] } true) es s ∧ s.Rest ∧
      pushed es = [lit "a", lit "b"] ∧ s.client.sent = textFrames [lit "b", []] ∧
      s.client.sent ≠ textFrames (pushed es) := by
  have hrun := run_schedule (fun _ _ => true) (s := start 1 { request := [] } true)
    (pushOne (lit "a") ++ pushOne (lit "b") ++ workOne ++ workOne) rfl
  have hframes : textFrames [lit "b", []] ≠ textFrames [lit "a", lit "b"] := by decide
  exact ⟨_, _, hrun.ofRestrict, ⟨rfl, rfl, rfl⟩, rfl, rfl, hframes⟩

end Pushes
end Jericho.WebSocket
