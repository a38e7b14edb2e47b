import Jericho.Message.Operations
import Jericho.Server.Readable

/-! When a request gets through the server loop: `Request::eval` returns, and so does
`Bifrost::fulfill` for a job. -/
namespace Jericho.Message
open StdText Util Server Crypt

variable {prizm : Prizm} {bio : Base64Filter}

/-- What `eval` hands to `fulfill`. -/
structure Carried (fs : List Field) (req : Request) : Prop where
  headers : req.headers = StrMap.assign ∅ fs
  callback : if ∃ f ∈ fs, isCallbackKey f.1
    then ∃ callback, Callback.ofMap (StrMap.assign ∅ (fs.filter (isCallbackKey ·.1))) = .ok callback ∧
      req.callback = some callback
    else req.callback = none

theorem Carried.header {fs : List Field} {req : Request} (h : Carried fs req) (key : Bytes) :
    req.header key = headerOf fs key := by
  unfold Request.header
  rw [h.headers, get_assign_empty]

theorem readContent_keeps {req req' : Request} (h : readContent prizm bio req = .ok req') :
    req'.headers = req.headers ∧ req'.callback = req.callback ∧ req'.protocol = req.protocol := by
  obtain ⟨args, content, rfl⟩ := readContent_eq_ok prizm bio h
  exact ⟨rfl, rfl, rfl⟩

theorem parseHeaders_carried {start req : Request} {headerStr : Bytes}
    (h : Request.parseHeaders prizm bio start headerStr = .ok req) (hstart : start.callback = none) :
    Carried (headerFields prizm headerStr) req ∧ req.protocol = (requestLine headerStr).protocol := by
  rw [parseHeaders_eq] at h
  simp only [bind_eq_ok] at h
  obtain ⟨s, hs, filled, hfilled, hreq⟩ := h
  obtain ⟨hheaders, hcallback, hprotocol⟩ := readContent_keeps hreq
  obtain ⟨-, hsplitProtocol, hsplitHeaders, hsplitCallback⟩ := splitQuery_keeps prizm filled
  obtain ⟨-, -, hfillProtocol, hfillHeaders, -⟩ := fillRequest_ok hfilled
  obtain ⟨hargs, hmap, hrest⟩ := scanFields_ok hs
  refine ⟨⟨?_, ?_⟩, ?_⟩
  · rw [hheaders, hsplitHeaders, hfillHeaders, hargs]
  · rw [hcallback, hsplitCallback]
    have hnone : s.callbackMap = ∅ ↔ ¬ ∃ f ∈ headerFields prizm headerStr, isCallbackKey f.1 := by
      rw [hmap, assign_eq_empty_iff, List.filter_eq_nil_iff, not_exists]
      exact forall_congr' fun f => not_and.symm
    unfold fillRequest at hfilled
    dsimp only at hfilled
    by_cases hsome : ∃ f ∈ headerFields prizm headerStr, isCallbackKey f.1
    · rw [if_neg fun hempty => hnone.mp hempty hsome] at hfilled
      rw [if_pos hsome]
      obtain ⟨callback, hread, rfl⟩ := map_eq_ok.mp hfilled
      exact ⟨callback, hmap ▸ hread, rfl⟩
    · rw [if_pos (hnone.mpr hsome)] at hfilled
      rw [if_neg hsome]
      obtain rfl := Except.ok.inj hfilled
      exact (congrArg (·.2.1) hrest).trans hstart
  · rw [hprotocol, hsplitProtocol, hfillProtocol]

theorem eval_carried {client : Client} {req : Request} (h : Request.eval prizm bio client = .ok req) :
    Carried (headerFields prizm (evalSplit (cstr client.request)).1) req ∧
      req.protocol = (requestLine (evalSplit (cstr client.request)).1).protocol := by
  rw [eval_eq] at h
  exact parseHeaders_carried h rfl

/-- What `fulfill` relies on for a broker it found. -/
structure Answerable (s : Bifrost) (fs : List Field) (broker : MessageBroker) : Prop where
  live : ∀ buf ∈ broker.messages, ∃ m, s.deref buf = .ok m
  broadcast : (¬ ∃ f ∈ fs, isCallbackKey f.1) → headerOf fs brokerType = lit "broadcast" →
    ∃ id, stoi (headerOf fs messageIdText) = .ok id
  ricochet : (∃ f ∈ fs, isCallbackKey f.1) → headerOf fs (lit "Callback-Resolved") ≠ lit "1" →
    headerOf fs brokerType = lit "ricochet" → broker.messages ≠ [] ∧
    ∀ count limit, stoi (headerOf fs (lit "Callback-Count")) = .ok count →
      stoi (headerOf fs (lit "Callback-Limit")) = .ok limit →
      stoi (headerOf fs (lit "Callback-Satellite")) = .ok 0 → count ≠ limit → inInt (count + 1)

/-- A callback as the headers spell it. -/
theorem Callback.ofMap_ok {map : StrMap} {callback : Callback} (h : Callback.ofMap map = .ok callback) :
    ∃ satellite, stoi (map.get (lit "Callback-Satellite")) = .ok satellite ∧
      stoi (map.get (lit "Callback-Count")) = .ok callback.count ∧
      stoi (map.get (lit "Callback-Limit")) = .ok callback.limit ∧
      (callback.satellite = true ↔ satellite ≠ 0) ∧
      (callback.resolved = true ↔ map.get (lit "Callback-Resolved") = lit "1") := by
  obtain ⟨satellite, hs, h⟩ := bind_eq_ok.mp h
  obtain ⟨count, hc, h⟩ := bind_eq_ok.mp h
  obtain ⟨limit, hl, h⟩ := bind_eq_ok.mp h
  obtain rfl := Except.ok.inj h
  exact ⟨satellite, hs, hc, hl, decide_eq_true_iff, decide_eq_true_iff⟩

theorem bounced_isOk_iff (callback : Callback) :
    (∃ callback', Bifrost.bounced callback = .ok callback') ↔
      (callback.satellite = false → inInt (callback.count + 1)) := by
  unfold Bifrost.bounced increment
  cases callback.satellite with
  | true => simp [bind_eq_ok, pure, Except.pure]
  | false => by_cases hcount : inInt (callback.count + 1) <;> simp [hcount, bind_eq_ok, pure, Except.pure]

variable (average : List UInt64 → Bytes)

theorem fulfillRicochet_isOk_iff (s : Bifrost) (req : Request) (ticket : Int) (callback : Callback)
    (messages : List MessageBuffer) :
    (∃ out, Bifrost.fulfillRicochet average s req ticket callback messages = .ok out) ↔
      messages ≠ [] ∧ (callback.count ≠ callback.limit → callback.satellite = false → inInt (callback.count + 1)) := by
  cases messages with
  | nil => simp [Bifrost.fulfillRicochet]
  | cons first rest =>
    unfold Bifrost.fulfillRicochet
    dsimp only
    by_cases hcount : callback.count ≠ callback.limit
    · rw [if_pos hcount, ← bounced_isOk_iff]
      simp only [bind_eq_ok]
      constructor
      · rintro ⟨out, callback', hbounced, -⟩
        exact ⟨List.cons_ne_nil _ _, fun _ => ⟨callback', hbounced⟩⟩
      · rintro ⟨-, hbounced⟩
        obtain ⟨callback', hbounced⟩ := hbounced hcount
        exact ⟨_, callback', hbounced, rfl⟩
    · rw [if_neg hcount]
      exact iff_of_true ⟨_, rfl⟩ ⟨List.cons_ne_nil _ _, fun h => absurd h hcount⟩

theorem dump_spec {s : Bifrost} {messages : List (Option Addr)} {ms : List MessageBuffer}
    (h : s.dump messages = .ok ms) : List.Forall₂ (fun buf m => s.deref buf = .ok m) messages ms :=
  forall₂_of_mapM h

theorem dump_reads {s : Bifrost} {messages : List (Option Addr)} {ms : List MessageBuffer}
    (h : s.dump messages = .ok ms) : ∀ buf ∈ messages, ∃ m, s.deref buf = .ok m := by
  have hspec := dump_spec h
  clear h
  induction hspec with
  | nil => exact fun buf hbuf => absurd hbuf List.not_mem_nil
  | cons hm _ ih => exact List.forall_mem_cons.mpr ⟨⟨_, hm⟩, ih⟩

theorem dump_nil_iff {s : Bifrost} {messages : List (Option Addr)} {ms : List MessageBuffer}
    (h : s.dump messages = .ok ms) : ms = [] ↔ messages = [] := by
  rw [← List.length_eq_zero_iff, ← List.length_eq_zero_iff, (dump_spec h).length_eq]

theorem fulfillBroadcast_isOk_iff {s : Bifrost} (req : Request) (ticket : Int) {broker : MessageBroker}
    (hlive : ∀ buf ∈ broker.messages, ∃ m, s.deref buf = .ok m) :
    (∃ out, s.fulfillBroadcast req ticket broker = .ok out) ↔ ∃ id, stoi (req.header messageIdText) = .ok id := by
  unfold Bifrost.fulfillBroadcast
  simp only [bind_eq_ok]
  constructor
  · rintro ⟨out, id, hid, -⟩
    exact ⟨id, hid⟩
  · rintro ⟨id, hid⟩
    obtain ⟨⟨s', all, responses⟩, hcollect⟩ := Bifrost.collect_ok id req.content hlive
    cases all with
    | true => exact ⟨_, id, hid, _, hcollect, rfl⟩
    | false => exact ⟨_, id, hid, _, hcollect, rfl⟩

/-- What `fulfill` relies on, in terms of the request. -/
theorem fulfill_found {s : Bifrost} {req : Request} {ticket : Int}
    (hticket : stoi (req.header ticketText) = .ok ticket) {broker : MessageBroker}
    (hbroker : s.brokers.lookup ticket = some broker) :
    (∃ out, s.fulfill average req = .ok out) ↔
      (∀ buf ∈ broker.messages, ∃ m, s.deref buf = .ok m) ∧
      (req.callback = none → req.header brokerType = lit "broadcast" →
        ∃ id, stoi (req.header messageIdText) = .ok id) ∧
      ∀ callback, req.callback = some callback → callback.resolved = false →
        req.header brokerType = lit "ricochet" → broker.messages ≠ [] ∧
        (callback.count ≠ callback.limit → callback.satellite = false → inInt (callback.count + 1)) := by
  have hdump : (∃ out, s.fulfill average req = .ok out) → ∀ buf ∈ broker.messages, ∃ m, s.deref buf = .ok m := by
    rintro ⟨out, h⟩
    obtain ⟨t, ht, h⟩ := bind_eq_ok.mp h
    obtain rfl := Except.ok.inj (hticket.symm.trans ht)
    dsimp only at h
    rw [hbroker] at h
    obtain ⟨ms, hms, -⟩ := bind_eq_ok.mp h
    exact dump_reads hms
  by_cases hlive : ∀ buf ∈ broker.messages, ∃ m, s.deref buf = .ok m
  swap
  · exact iff_of_false (fun h => hlive (hdump h)) fun h => hlive h.1
  obtain ⟨ms, hms⟩ := Bifrost.dump_ok hlive
  rw [and_iff_right hlive]
  unfold Bifrost.fulfill
  rw [hticket]
  dsimp only [bind, Except.bind]
  rw [hbroker]
  dsimp only
  rw [hms]
  dsimp only
  cases req.callback with
  | none =>
    have hsimple : lit "simple" ≠ lit "broadcast" := by decide
    dsimp only
    rw [and_iff_left fun callback heq => absurd heq.symm (Option.some_ne_none callback)]
    by_cases h1 : req.header brokerType = lit "simple"
    · rw [if_pos h1]
      exact iff_of_true ⟨_, rfl⟩ fun _ h2 => absurd (h1.symm.trans h2) hsimple
    · rw [if_neg h1]
      by_cases h2 : req.header brokerType = lit "broadcast"
      · rw [if_pos h2, fulfillBroadcast_isOk_iff req ticket hlive]
        exact ⟨fun hid _ _ => hid, fun hid => hid rfl h2⟩
      · rw [if_neg h2]
        exact iff_of_true ⟨_, rfl⟩ fun _ h => absurd h h2
  | some callback =>
    dsimp only
    rw [and_iff_right fun heq => absurd heq (Option.some_ne_none callback)]
    simp only [Option.some.injEq, forall_eq']
    cases callback.resolved with
    | true => exact iff_of_true ⟨_, rfl⟩ fun h => absurd h.symm Bool.false_ne_true
    | false =>
      rw [imp_iff_right rfl, if_neg Bool.false_ne_true]
      by_cases h1 : req.header brokerType = lit "ricochet"
      · rw [if_pos h1, imp_iff_right h1, fulfillRicochet_isOk_iff, ne_eq, dump_nil_iff hms]
      · rw [if_neg h1]
        exact iff_of_true ⟨_, rfl⟩ fun h => absurd h h1

theorem fulfill_found_isOk_iff {s : Bifrost} {fs : List Field} {req : Request} (hreq : Carried fs req) {ticket : Int}
    (hticket : stoi (headerOf fs ticketText) = .ok ticket) {broker : MessageBroker}
    (hbroker : s.brokers.lookup ticket = some broker) :
    (∃ out, s.fulfill average req = .ok out) ↔ Answerable s fs broker := by
  rw [← hreq.header] at hticket
  rw [fulfill_found average hticket hbroker]
  simp only [hreq.header]
  have hcallback := hreq.callback
  by_cases hsome : ∃ f ∈ fs, isCallbackKey f.1
  · rw [if_pos hsome] at hcallback
    obtain ⟨callback, hread, hcb⟩ := hcallback
    obtain ⟨satellite, hs, hc, hl, hsat, hres⟩ := Callback.ofMap_ok hread
    rw [get_callbackMap fs (by decide), get_assign_empty] at hs hc hl
    rw [get_callbackMap fs (by decide), get_assign_empty] at hres
    rw [hcb]
    constructor
    · rintro ⟨hlive, -, hric⟩
      refine ⟨hlive, fun hno => absurd hsome hno, fun _ hunresolved htype => ?_⟩
      obtain ⟨hne, hbound⟩ := hric callback rfl (by simpa using fun h => hunresolved (hres.mp h)) htype
      refine ⟨hne, fun count limit hcount hlimit hzero hdiff => ?_⟩
      obtain rfl := Except.ok.inj (hc.symm.trans hcount)
      obtain rfl := Except.ok.inj (hl.symm.trans hlimit)
      have hzero := Except.ok.inj (hs.symm.trans hzero)
      exact hbound hdiff (by simpa using fun h => hsat.mp h hzero)
    · rintro ⟨hlive, -, hric⟩
      refine ⟨hlive, fun heq => (nomatch heq), fun callback' heq hunresolved htype => ?_⟩
      obtain rfl := Option.some.inj heq
      obtain ⟨hne, hbound⟩ := hric hsome (fun h => by simp [hres.mpr h] at hunresolved) htype
      refine ⟨hne, fun hdiff hsatellite => hbound _ _ hc hl ?_ hdiff⟩
      have hzero : satellite = 0 := by
        by_contra hne
        rw [hsat.mpr hne] at hsatellite
        cases hsatellite
      rw [hs, hzero]
  · rw [if_neg hsome] at hcallback
    rw [hcallback]
    constructor
    · rintro ⟨hlive, hbroadcast, -⟩
      exact ⟨hlive, fun _ => hbroadcast rfl, fun h => absurd h hsome⟩
    · rintro ⟨hlive, hbroadcast, -⟩
      exact ⟨hlive, fun _ => hbroadcast hsome, fun callback heq => nomatch heq⟩

variable (prizm bio) in
/-- A request gets through the server loop. -/
def Handled (s : Bifrost) (client : Client) : Prop :=
  ∃ req, Request.eval prizm bio client = .ok req ∧
    (req.protocol = lit "JOB" → ∃ out, s.fulfill average req = .ok out)

/-- No request throws. The conversions go through exactly when the size headers and the callback
numbers can be read, an octet-stream body lies in the buffer and decodes, and a job has a ticket
whose broker, if there is one, can answer. -/
theorem handled_iff (s : Bifrost) (client : Client) :
    Handled prizm bio average s client ↔
      Readable prizm bio client ∧
      ((requestLine (evalSplit (cstr client.request)).1).protocol = lit "JOB" →
        ∃ ticket, stoi (headerOf (headerFields prizm (evalSplit (cstr client.request)).1) ticketText) = .ok ticket ∧
          ∀ broker, s.brokers.lookup ticket = some broker →
            Answerable s (headerFields prizm (evalSplit (cstr client.request)).1) broker) := by
  rw [← eval_isOk_iff]
  unfold Handled
  constructor
  · rintro ⟨req, heval, hjob⟩
    obtain ⟨hcarried, hprotocol⟩ := eval_carried heval
    refine ⟨⟨req, heval⟩, fun hword => ?_⟩
    obtain ⟨out, hout⟩ := hjob (hprotocol.trans hword)
    obtain ⟨ticket, hticket, -⟩ := bind_eq_ok.mp hout
    rw [hcarried.header] at hticket
    exact ⟨ticket, hticket, fun broker hbroker =>
      (fulfill_found_isOk_iff average hcarried hticket hbroker).mp ⟨out, hout⟩⟩
  · rintro ⟨⟨req, heval⟩, hjob⟩
    obtain ⟨hcarried, hprotocol⟩ := eval_carried heval
    refine ⟨req, heval, fun hword => ?_⟩
    obtain ⟨ticket, hticket, hanswer⟩ := hjob (hprotocol.symm.trans hword)
    cases hbroker : s.brokers.lookup ticket with
    | none =>
      rw [← hcarried.header] at hticket
      refine ⟨({ status := 0, request := req }, s), ?_⟩
      unfold Bifrost.fulfill
      rw [hticket]
      dsimp only [bind, Except.bind]
      rw [hbroker]
      rfl
    | some broker => exact (fulfill_found_isOk_iff average hcarried hticket hbroker).mpr (hanswer broker hbroker)

/-- A request with a size beyond `int`, and a job without a ticket. -/
def oversizedText : Bytes := lit "GET / HTTP/1.1\r\nContent-Size: 99999999999\r\n\r\n"
def ticketlessText : Bytes := lit "GET / JOB\r\nHost: localhost\r\n\r\n"

theorem oversizedText_fits : oversizedText.length ≤ maxRequestSize := by decide
theorem ticketlessText_fits : ticketlessText.length ≤ maxRequestSize := by decide

theorem handled_throws :
    ¬ Handled Prizm.reference Base64Filter.reference (fun _ => []) { host := lit "localhost", port := lit "8080" }
      ⟨oversizedText, oversizedText_fits, []⟩ ∧
    ¬ Handled Prizm.reference Base64Filter.reference (fun _ => []) { host := lit "localhost", port := lit "8080" }
      ⟨ticketlessText, ticketlessText_fits, []⟩ := by
  refine ⟨?_, ?_⟩
  · rintro ⟨req, heval, -⟩
    have hread := (eval_isOk_iff _ _ _).mp ⟨req, heval⟩
    have hsize := hread.numbers.size
    rw [Client.cstr_request] at hsize
    obtain ⟨n, hn⟩ := hsize ⟨lit "Content-Size", lit "99999999999"⟩ (by decide) rfl
    revert hn
    have hthrow : readSize (lit "99999999999") = .error .outOfRange := by decide
    rw [hthrow]
    exact fun hn => nomatch hn
  · rintro ⟨req, heval, hjob⟩
    obtain ⟨hcarried, hprotocol⟩ := eval_carried heval
    have hword : (requestLine (evalSplit (cstr ticketlessText)).1).protocol = lit "JOB" := by decide
    rw [Client.cstr_request] at hprotocol hcarried
    obtain ⟨out, hout⟩ := hjob (hprotocol.trans hword)
    obtain ⟨ticket, hticket, -⟩ := bind_eq_ok.mp hout
    rw [hcarried.header] at hticket
    have hthrow : stoi (headerOf (headerFields Prizm.reference (evalSplit (cstr ticketlessText)).1) ticketText) =
        .error .invalidArgument := by decide
    exact nomatch hthrow.symm.trans hticket

end Jericho.Message
