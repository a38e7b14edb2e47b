import Jericho.Library.InterruptedPass
import Jericho.Server.RunLoop

/-! In every run of the server loop the clients it touches are in the list, and so are the web sockets
that the router and the thread pool hold, as long as no web socket is dropped. -/
namespace Jericho.Server
open StdText Runs Heap Util Message Crypt

namespace Clients
variable {l l' : Clients} {as : List Nat} {a b : Nat} {c : Entry}

/-- What dropping a client leaves as it was. -/
structure Frame (l l' : Clients) : Prop where
  next : l'.heap.next = l.heap.next
  cells : ∀ b e, l'.heap.cell b = some e → ∃ e', l.heap.cell b = some e' ∧ e.socket = e'.socket ∧ e.ssl = e'.ssl

theorem Frame.refl (l : Clients) : Frame l l := ⟨rfl, fun _ e he => ⟨e, he, rfl, rfl⟩⟩

theorem Frame.trans {l'' : Clients} (h : Frame l l') (h' : Frame l' l'') : Frame l l'' where
  next := h'.next.trans h.next
  cells b e he := by
    obtain ⟨e', he', hsocket, hssl⟩ := h'.cells b e he
    obtain ⟨e'', he'', hsocket', hssl'⟩ := h.cells b e' he'
    exact ⟨e'', he'', hsocket.trans hsocket', hssl.trans hssl'⟩

theorem Frame.sockets (h : Frame l l') (b : Nat) (e : Entry) (he : l'.heap.cell b = some e) :
    ∃ e', l.heap.cell b = some e' ∧ e.socket = e'.socket := by
  obtain ⟨e', he', hsocket, -⟩ := h.cells b e he
  exact ⟨e', he', hsocket⟩

/-- Clients that have their OpenSSL objects keep them. -/
theorem Frame.secured (h : Frame l l') (hsecured : ∀ a ∈ as, ∀ c, l.heap.cell a = some c → c.ssl = true) :
    ∀ a ∈ as, ∀ c, l'.heap.cell a = some c → c.ssl = true := by
  intro a ha c hc
  obtain ⟨c', hc', -, hssl⟩ := h.cells a c hc
  exact hssl.trans (hsecured a ha c' hc')

theorem read_ok (h : l.read (some a) = .ok c) : l.heap.cell a = some c := by
  unfold read at h
  cases hc : l.heap.read (some a) with
  | none =>
    rw [hc] at h
    cases h
  | some c' =>
    rw [hc] at h
    obtain rfl := Except.ok.inj h
    exact hc

/-- Rewriting an entry that keeps its socket and its OpenSSL object. -/
theorem frame_write (hc : l.heap.cell a = some c) {d : Entry} (hsocket : d.socket = c.socket) (hssl : d.ssl = c.ssl) :
    Frame l (l.write a d) where
  next := rfl
  cells b e he := by
    have hcell : (l.write a d).heap.cell b = if b = a then some d else l.heap.cell b := write_cell (by rw [hc]; rfl) d b
    rw [hcell] at he
    split_ifs at he with hb
    · obtain rfl := Option.some.inj he
      exact ⟨c, hb ▸ hc, hsocket, hssl⟩
    · exact ⟨e, he, rfl, rfl⟩

theorem frame_assign {place : Place} {p : Option Nat} (h : l.assign place p = .ok l') :
    Frame l l' ∧ l'.descriptors = l.descriptors := by
  cases place with
  | head =>
    obtain rfl := Except.ok.inj h
    exact ⟨⟨rfl, fun _ e he => ⟨e, he, rfl, rfl⟩⟩, rfl⟩
  | next d =>
    obtain ⟨c, hread, h⟩ := bind_eq_ok.mp h
    obtain rfl := Except.ok.inj h
    exact ⟨frame_write (read_ok hread) rfl rfl, rfl⟩

theorem frame_dropLoop {client rounds : Nat} {place : Place} (h : dropLoop client rounds place l = .ok l') :
    Frame l l' ∧ l'.descriptors = l.descriptors := by
  induction rounds generalizing place with
  | zero => cases h
  | succ rounds ih =>
    rw [dropLoop] at h
    obtain ⟨p, -, h⟩ := bind_eq_ok.mp h
    cases p with
    | none =>
      obtain rfl := Except.ok.inj h
      exact ⟨Frame.refl l, rfl⟩
    | some d =>
      dsimp only at h
      split_ifs at h
      · obtain ⟨c, -, h⟩ := bind_eq_ok.mp h
        obtain ⟨l₁, hassign, h⟩ := bind_eq_ok.mp h
        obtain rfl := Except.ok.inj h
        obtain ⟨hframe, hdescriptors⟩ := frame_assign hassign
        refine ⟨hframe.trans ⟨rfl, ?_⟩, hdescriptors⟩
        intro b e he
        exact ⟨e, cell_of_free he, rfl, rfl⟩
      · exact ih h

theorem frame_dropClient (hc : l.heap.cell a = some c) (hpromised : c.promised = false) (hssl : c.ssl = true)
    (h : l.dropClient a = .ok l') : Frame l l' ∧ l'.descriptors = l.descriptors.erase c.socket := by
  unfold dropClient at h
  rw [read_eq hc] at h
  dsimp only [bind, Except.bind] at h
  rw [hpromised, if_pos Bool.false_ne_true, hssl] at h
  obtain ⟨hframe, hdescriptors⟩ := frame_dropLoop h
  exact ⟨⟨hframe.next, hframe.cells⟩, hdescriptors⟩

/-- `accept` gives a descriptor that is not open and that `select` can be asked for, or fails, and then the
handshake fails; OpenSSL has an object for the connection, and the clients are not so many that their numbers
run out. -/
structure Connects (l : Clients) (fd : Int) (tls : Tls) : Prop where
  created : tls.created = true
  counter : inInt (l.clientId + 1)
  socket : fd = -1 ∧ tls.accepted = false ∨ 0 ≤ fd ∧ fd < fdSetSize ∧ fd ∉ l.descriptors

instance (l : Clients) (fd : Int) (tls : Tls) : Decidable (Connects l fd tls) :=
  decidable_of_iff (tls.created = true ∧ inInt (l.clientId + 1) ∧
      (fd = -1 ∧ tls.accepted = false ∨ 0 ≤ fd ∧ fd < fdSetSize ∧ fd ∉ l.descriptors))
    ⟨fun ⟨hcreated, hcounter, hsocket⟩ => ⟨hcreated, hcounter, hsocket⟩, fun h => ⟨h.created, h.counter, h.socket⟩⟩

theorem Connects.accepts {fd : Int} {tls : Tls} (h : Connects l fd tls) : Accepts l fd := by
  rcases h.socket with ⟨rfl, -⟩ | ⟨hpos, -, hfresh⟩
  · exact .inl rfl
  · exact .inr ⟨hpos, hfresh⟩

/-- Where no socket is closed, a connection is given a new entry. -/
theorem acceptClient_new (h : Listed l as) (hopen : ∀ a ∈ as, ∀ c, l.heap.cell a = some c → c.socket ≠ -1)
    (hcounter : inInt (l.clientId + 1)) (fd : Int) :
    l.acceptClient fd = .ok (l.heap.next,
      { l with
        heap := (l.heap.alloc { id := l.clientId + 1, next := l.head }).write (some l.heap.next)
          { id := l.clientId + 1, next := l.head, socket := fd }
        head := some l.heap.next
        numClients := l.numClients + 1
        clientId := l.clientId + 1
        descriptors := if fd = -1 then l.descriptors else fd :: l.descriptors }) := by
  obtain ⟨found, hfound, hspec, -⟩ := findLoop_spec (-1) h.chain h.rounds
  have hinc : increment l.clientId = .ok (l.clientId + 1) := if_pos hcounter
  cases found with
  | some a =>
    obtain ⟨ha, c, hc, hclosed⟩ := hspec a rfl
    exact absurd hclosed (hopen a ha c hc)
  | none =>
    have hread : (l.heap.alloc { id := l.clientId + 1, next := l.head }).cell l.heap.next =
        some { id := l.clientId + 1, next := l.head } := alloc_cell_next _ _
    unfold acceptClient getClient
    rw [hfound]
    dsimp only [bind, Except.bind]
    rw [hinc]
    dsimp only
    rw [read_eq hread]
    rfl

/-- A connection leaves the clients that were there with their sockets and their OpenSSL objects, beside a new one
with its own. -/
structure Joined (l l' : Clients) (fd : Int) : Prop where
  next : l'.heap.next = l.heap.next + 1
  cells : ∀ b e, l'.heap.cell b = some e → b = l.heap.next ∧ e.socket = fd ∧ e.ssl = true ∨
    ∃ e', l.heap.cell b = some e' ∧ e.socket = e'.socket ∧ e.ssl = e'.ssl

theorem Joined.trans_frame {l'' : Clients} {fd : Int} (h : Joined l l' fd) (hframe : Frame l' l'') : Joined l l'' fd where
  next := hframe.next.trans h.next
  cells b e he := by
    obtain ⟨e', he', hsocket, hssl⟩ := hframe.cells b e he
    rcases h.cells b e' he' with ⟨hb, hfd, hset⟩ | ⟨e'', he'', hsocket', hssl'⟩
    · exact .inl ⟨hb, hsocket.trans hfd, hssl.trans hset⟩
    · exact .inr ⟨e'', he'', hsocket.trans hsocket', hssl.trans hssl'⟩

/-- The new client is the one that had no entry. -/
theorem Joined.new {fd : Int} (h : Joined l l' fd) {e : Entry} (he : l'.heap.cell l.heap.next = some e) :
    e.socket = fd ∧ e.ssl = true := by
  rcases h.cells _ e he with ⟨-, hnew⟩ | ⟨e', he', -⟩
  · exact hnew
  · cases (l.heap.fresh _ (Nat.le_refl _)).symm.trans he'

theorem Joined.old {fd : Int} (h : Joined l l' fd) {e : Entry} (he : l'.heap.cell b = some e) (hb : b ≠ l.heap.next) :
    ∃ e', l.heap.cell b = some e' ∧ e.socket = e'.socket ∧ e.ssl = e'.ssl :=
  (h.cells b e he).resolve_left fun hnew => hb hnew.1

/-- The OpenSSL object is written to the entry that `accept` gave. -/
theorem Given.joined {mid : Clients} {as' : List Nat} {fd : Int} (h : Given l mid as as' fd l.heap.next)
    (hnext : mid.heap.next = l.heap.next + 1) (hc : mid.heap.cell l.heap.next = some c) (hsocket : c.socket = fd) :
    Joined l (mid.write l.heap.next { c with ssl := true }) fd where
  next := hnext
  cells b e he := by
    have hcell := write_cell (h := mid.heap) (a := l.heap.next) (by rw [hc]; rfl) { c with ssl := true } b
    have he := hcell.symm.trans he
    split_ifs at he with hb
    · obtain rfl := Option.some.inj he
      exact .inl ⟨hb, hsocket, rfl⟩
    · exact .inr ⟨e, (h.others b hb).symm.trans he, rfl, rfl⟩

/-- The new client is in front, with its descriptor, unless its handshake fails. -/
theorem connectionSetup_new (h : Listed l as) (hopen : ∀ a ∈ as, ∀ c, l.heap.cell a = some c → c.socket ≠ -1)
    (hminus : -1 ∉ l.descriptors) {fd : Int} {tls : Tls} (hconnects : Connects l fd tls) :
    ∃ l', l.connectionSetup fd tls = .ok (l', 0) ∧ Joined l l' fd ∧
      Listed l' (if tls.accepted then l.heap.next :: as else as) ∧
      l'.descriptors = if tls.accepted then fd :: l.descriptors else l.descriptors := by
  obtain ⟨a, mid, l', as', r, haccept, hmid, hgiven, hsetup, hafter⟩ :=
    connectionSetup_spec h hconnects.accepts (.inr hconnects.counter) tls
  obtain ⟨rfl, hmid'⟩ := Prod.mk.inj (Except.ok.inj (haccept.symm.trans (acceptClient_new h hopen hconnects.counter fd)))
  obtain ⟨c, hc, hsocket⟩ := hgiven.socket
  have hdescriptors : mid.descriptors = if fd = -1 then l.descriptors else fd :: l.descriptors := by rw [hmid']
  have hjoined := hgiven.joined (by rw [hmid']; rfl) hc hsocket
  have hnew : l.heap.next ∉ as := fun hmem => (lt_next (h.chain.live _ hmem)).false
  obtain rfl : as' = l.heap.next :: as := by
    rcases hgiven.list with rfl | rfl
    · exact absurd hgiven.mem hnew
    · rfl
  have hcompute := connectionSetup_eq haccept hc tls
  rw [hconnects.created] at hafter hcompute
  rw [if_neg (not_not.mpr rfl)] at hcompute
  cases htls : tls.accepted with
  | true =>
    rw [htls, if_neg (by simp)] at hafter
    rw [htls, if_neg (not_not.mpr rfl)] at hcompute
    obtain ⟨rfl, rfl⟩ := Prod.mk.inj (Except.ok.inj (hsetup.symm.trans hcompute))
    have hne : fd ≠ -1 := by
      rcases hconnects.socket with ⟨-, hfails⟩ | ⟨hpos, -⟩
      · exact absurd (htls.symm.trans hfails) (by decide)
      · omega
    exact ⟨_, hcompute, hjoined, hafter.1, hdescriptors.trans (if_neg hne)⟩
  | false =>
    rw [htls, if_pos (by simp), List.erase_cons_head] at hafter
    rw [htls, if_pos Bool.false_ne_true] at hcompute
    obtain ⟨l'', hdrop, heq⟩ := map_eq_ok.mp (hcompute.symm.trans hsetup)
    obtain ⟨rfl, rfl⟩ := Prod.mk.inj heq
    have hself : (mid.write l.heap.next { c with ssl := true }).heap.cell l.heap.next = some { c with ssl := true } :=
      write_cell_self (by rw [hc]; rfl) _
    obtain ⟨hframe, hdropped⟩ :=
      frame_dropClient hself (hmid.unpromised l.heap.next hgiven.mem c hc) rfl hdrop
    refine ⟨_, hsetup, hjoined.trans_frame hframe, hafter, ?_⟩
    have hgone : mid.descriptors.erase fd = l.descriptors := by
      rw [hdescriptors]
      by_cases hfd : fd = -1
      · rw [if_pos hfd, hfd]
        exact List.erase_of_not_mem hminus
      · rw [if_neg hfd]
        exact List.erase_cons_head fd l.descriptors
    rw [if_neg Bool.false_ne_true, ← hgone, ← hsocket]
    exact hdropped

end Clients

open Clients

/-- A pass goes on after it or not. -/
def Verdict.ends : Verdict → Bool
  | .close _ => true
  | _ => false

/-- The client has become a web socket. -/
def Verdict.upgrades : Verdict → Bool
  | .finish _ upgraded => upgraded
  | _ => false

/-- The client stays in the list. -/
def Verdict.stays (websocket : Bool) : Verdict → Bool
  | .keep => true
  | .close _ => false
  | .finish _ upgraded => websocket || upgraded

/-- The list is in order, with sockets that `select` can be asked for and that are the only ones of the
process, and whoever is a web socket is in it. -/
structure Running (s : Loop) (as : List Nat) : Prop where
  listed : Listed s.clients as
  asked : ∀ a ∈ as, ∀ c, s.clients.heap.cell a = some c → 0 ≤ c.socket ∧ c.socket < fdSetSize
  secured : ∀ a ∈ as, ∀ c, s.clients.heap.cell a = some c → c.ssl = true
  owned : ∀ fd ∈ s.clients.descriptors, ∃ a ∈ as, ∃ c, s.clients.heap.cell a = some c ∧ c.socket = fd
  once : s.clients.descriptors.Nodup
  unused : ∀ a, s.clients.heap.next ≤ a → s.connections a = { buffer := .fresh [] }
  upgraded : ∀ a, (s.connections a).websocket = true → a ∈ as
  ws : ∀ w, s.ws = some w → (s.connections w).websocket = true

/-- A client that is no web socket has not sent anything yet. -/
def Blank (s : Loop) (as : List Nat) : Prop :=
  ∀ a ∈ as, (s.connections a).websocket = false → (s.connections a).buffer.received = []

variable {s : Loop} {as : List Nat} {a : Nat} {client : Entry}

theorem Running.exists_cell (h : Running s as) (ha : a ∈ as) : ∃ c, s.clients.heap.cell a = some c := h.listed.exists_cell ha

theorem Running.lt_next (h : Running s as) (ha : a ∈ as) : a < s.clients.heap.next :=
  Heap.lt_next (h.listed.chain.live a ha)

/-- A change of the connections that keeps the flags of the others. -/
theorem Running.setConnection (h : Running s as) (ha : a ∈ as) (c : Connection) {ws : Option Nat} {node : Bifrost}
    (hflag : (s.connections a).websocket = true → c.websocket = true)
    (hws : ∀ w, ws = some w → w = a ∧ c.websocket = true ∨ s.ws = some w) :
    Running { s with connections := Function.update s.connections a c, ws := ws, node := node } as where
  listed := h.listed
  asked := h.asked
  secured := h.secured
  owned := h.owned
  once := h.once
  unused b hb := by
    have hne : b ≠ a := fun heq => absurd (h.lt_next ha) (Nat.not_lt.mpr (heq ▸ hb))
    exact (Function.update_of_ne hne _ _).trans (h.unused b hb)
  upgraded b hb := by
    by_cases hba : b = a
    · exact hba ▸ ha
    · dsimp only at hb
      rw [Function.update_of_ne hba] at hb
      exact h.upgraded b hb
  ws w hw := by
    dsimp only
    rcases hws w hw with ⟨rfl, hc⟩ | hold
    · rw [Function.update_self]
      exact hc
    · by_cases hwa : w = a
      · obtain rfl := hwa
        rw [Function.update_self]
        exact hflag (h.ws w hold)
      · rw [Function.update_of_ne hwa]
        exact h.ws w hold

theorem Running.setState (h : Running s as) (ha : a ∈ as) (hc : s.clients.heap.cell a = some client) (state : SocketState) :
    Running { s with clients := s.clients.write a { client with state := state } } as := by
  have hframe : Frame s.clients (s.clients.write a { client with state := state }) := frame_write hc rfl rfl
  have hcell := write_cell (h := s.clients.heap) (a := a) (by rw [hc]; rfl) { client with state := state }
  refine ⟨?_, ?_, hframe.secured h.secured, ?_, h.once, h.unused, h.upgraded, h.ws⟩
  · refine h.listed.write ha hc rfl (h.listed.unpromised a ha client hc) ?_ (h.listed.opened a ha client hc) ?_
    · exact fun b hb _ => h.listed.opened b hb
    · intro hopen b hb hba e he heq
      exact hba (h.listed.distinct b hb a ha e client he hc (heq ▸ hopen) heq)
  · intro b hb e he
    obtain ⟨e', he', heq⟩ := hframe.sockets b e he
    exact heq ▸ h.asked b hb e' he'
  · intro fd hfd
    obtain ⟨b, hb, e, he, heq⟩ := h.owned fd hfd
    refine ⟨b, hb, ?_⟩
    by_cases hba : b = a
    · obtain rfl := hba
      obtain rfl := Option.some.inj (hc.symm.trans he)
      exact ⟨_, (hcell b).trans (if_pos rfl), heq⟩
    · exact ⟨e, ((hcell b).trans (if_neg hba)).trans he, heq⟩

/-- A client that is dropped takes its descriptor with it. -/
theorem Running.drop (h : Running s as) (ha : a ∈ as) :
    ∃ l', s.drop a = .ok { s with clients := l' } ∧ Frame s.clients l' ∧
      ((s.connections a).websocket = false → Running { s with clients := l' } (as.erase a)) := by
  obtain ⟨c, hc⟩ := h.exists_cell ha
  have hssl := h.secured a ha c hc
  obtain ⟨l', hdrop, hl'⟩ := dropClient_spec h.listed ha hc hssl
  obtain ⟨hframe, hdescriptors⟩ := frame_dropClient hc (h.listed.unpromised a ha c hc) hssl hdrop
  refine ⟨l', ?_, hframe, fun hflag => ?_⟩
  · unfold Loop.drop
    rw [hdrop]
    rfl
  · refine ⟨hl', ?_, ?_, ?_, ?_, ?_, ?_, h.ws⟩
    · intro b hb e he
      obtain ⟨e', he', heq⟩ := hframe.sockets b e he
      exact heq ▸ h.asked b (List.mem_of_mem_erase hb) e' he'
    · exact fun b hb => hframe.secured h.secured b (List.mem_of_mem_erase hb)
    · intro fd hfd
      rw [hdescriptors] at hfd
      obtain ⟨hne, hfd⟩ := h.once.mem_erase_iff.mp hfd
      obtain ⟨b, hb, e, he, heq⟩ := h.owned fd hfd
      have hba : b ≠ a := by
        rintro rfl
        obtain rfl := Option.some.inj (hc.symm.trans he)
        exact hne heq.symm
      have hb' := (List.mem_erase_of_ne hba).mpr hb
      obtain ⟨e', he'⟩ := hl'.exists_cell hb'
      obtain ⟨e'', he'', heq'⟩ := hframe.sockets b e' he'
      obtain rfl := Option.some.inj (he.symm.trans he'')
      exact ⟨b, hb', e', he', heq'.trans heq⟩
    · rw [hdescriptors]
      exact h.once.erase _
    · intro b hb
      exact h.unused b (hframe.next ▸ hb)
    · intro b hb
      have hba : b ≠ a := by
        rintro rfl
        exact Bool.false_ne_true (hflag.symm.trans hb)
      exact (List.mem_erase_of_ne hba).mpr (h.upgraded b hb)

/-- A push that is too long for the buffer of the web socket. -/
def Verdict.Overflows (v : Verdict) : Prop := ∃ message, v = .close (some message) ∧ maxRequestSize < (cstr message).length

/-- The web socket of the router is there, and all that a push may lack is room. -/
theorem Running.wsSend (h : Running s as) (message : Bytes) :
    s.wsSend message = .ok () ∨ s.wsSend message = .error .undefined ∧ maxRequestSize < (cstr message).length := by
  unfold Loop.wsSend
  cases hw : s.ws with
  | none => exact .inl rfl
  | some w =>
    obtain ⟨c, hc⟩ := h.exists_cell (h.upgraded w (h.ws w hw))
    dsimp only
    rw [read_eq hc]
    dsimp only [bind, Except.bind]
    split_ifs with hfits
    · exact .inl rfl
    · exact .inr ⟨rfl, Nat.lt_of_not_le hfits⟩

/-- What carrying out a verdict leaves as it was, and what it makes of the client. -/
structure Carried (s s' : Loop) (a : Nat) (v : Verdict) : Prop where
  frame : Frame s.clients s'.clients
  others : ∀ b, b ≠ a → s'.connections b = s.connections b
  buffer : (s'.connections a).buffer = (s.connections a).buffer
  flag : (s'.connections a).websocket = ((s.connections a).websocket || v.upgrades)

/-- A verdict is carried out unless its push is too long, and only for a web socket it may be wrong to do so. -/
theorem Running.carryOut (h : Running s as) (ha : a ∈ as) (hc : s.clients.heap.cell a = some client) (v : Verdict) :
    s.carryOut a client v = .error .undefined ∧ v.Overflows ∨
    ∃ s', s.carryOut a client v = .ok (s', !v.ends) ∧ Carried s s' a v ∧
      (((s.connections a).websocket = true → v.ends = false) →
        Running s' (if v.stays (s.connections a).websocket then as else as.erase a)) := by
  cases v with
  | keep => exact .inr ⟨s, rfl, ⟨Frame.refl _, fun _ _ => rfl, rfl, (Bool.or_false _).symm⟩, fun _ => h⟩
  | close pushed =>
    have hpush : pushed.elim (.ok ()) s.wsSend = .ok () ∨
        pushed.elim (.ok ()) s.wsSend = .error .undefined ∧ (Verdict.close pushed).Overflows := by
      cases pushed with
      | none => exact .inl rfl
      | some message =>
        rcases h.wsSend message with hsent | ⟨hfails, hlong⟩
        · exact .inl hsent
        · exact .inr ⟨hfails, message, rfl, hlong⟩
    unfold Loop.carryOut
    dsimp only [bind, Except.bind]
    rcases hpush with hsent | ⟨hfails, hlong⟩
    · obtain ⟨l', hdrop, hframe, hrunning⟩ := h.drop ha
      rw [hsent, hdrop]
      refine .inr ⟨_, rfl, ⟨hframe, fun _ _ => rfl, rfl, (Bool.or_false _).symm⟩, fun hguard => hrunning ?_⟩
      by_contra hflag
      exact Bool.false_ne_true (hguard (by simpa using hflag)).symm
    · rw [hfails]
      exact .inl ⟨rfl, hlong⟩
  | finish state upgraded =>
    obtain ⟨t, ht⟩ : ∃ t : Loop, t = { s with
        clients := s.clients.write a { client with state := state }
        connections := Function.update s.connections a
          { s.connections a with websocket := (s.connections a).websocket || upgraded }
        ws := if upgraded ∧ state = .upgrading then some a else s.ws } := ⟨_, rfl⟩
    have hself : t.connections a = { s.connections a with websocket := (s.connections a).websocket || upgraded } := by
      rw [ht]
      exact Function.update_self _ _ _
    have hothers : ∀ b, b ≠ a → t.connections b = s.connections b := by
      intro b hb
      rw [ht]
      exact Function.update_of_ne hb _ _
    have hframe : Frame s.clients t.clients := by
      rw [ht]
      exact frame_write hc rfl rfl
    have hset : Running t as := by
      rw [ht]
      refine (h.setState ha hc state).setConnection ha _ ?_ ?_
      · intro hflag
        simp only
        rw [hflag]
        rfl
      · intro w hw
        split_ifs at hw with hupgraded
        · obtain rfl := Option.some.inj hw
          refine .inl ⟨rfl, ?_⟩
          simp only
          rw [hupgraded.1, Bool.or_true]
        · exact .inr hw
    have hstays : ∀ flag : Bool, (Verdict.finish state upgraded).stays flag = (flag || upgraded) := fun _ => rfl
    have hcarry : s.carryOut a client (.finish state upgraded) =
        if (s.connections a).websocket || upgraded then .ok (t, true) else (t.drop a).map fun u => (u, true) := by
      rw [ht]
      rfl
    rw [hcarry, hstays]
    refine .inr ?_
    by_cases hflag : ((s.connections a).websocket || upgraded) = true
    · rw [if_pos hflag, if_pos hflag]
      exact ⟨t, rfl, ⟨hframe, hothers, by rw [hself], by rw [hself]; rfl⟩, fun _ => hset⟩
    · obtain ⟨l', hdrop, hframe', hrunning⟩ := hset.drop ha
      rw [if_neg hflag, if_neg hflag, hdrop]
      refine ⟨{ t with clients := l' }, rfl, ⟨hframe.trans hframe', hothers, ?_, ?_⟩, fun _ => hrunning ?_⟩
      · dsimp only
        rw [hself]
      · dsimp only
        rw [hself]
        rfl
      · rw [hself]
        simpa using hflag

section Answer
variable {prizm : Prizm} {bio : Base64Filter} {average : List UInt64 → Bytes} {serve : Request → Bifrost → Exec Bifrost}

theorem settle_ne_keep {node node' : Bifrost} {old : SocketState} {websocket : Bool} {record : Option Nat} {req : Request}
    {v : Verdict} (h : settle serve node old websocket record req = .ok (node', v)) : v ≠ .keep := by
  rintro rfl
  unfold settle at h
  dsimp only at h
  split_ifs at h
  all_goals first
    | cases h
    | obtain ⟨node₁, -, h⟩ := bind_eq_ok.mp h
      cases h

/-- Only a client whose buffer is full is left alone. -/
theorem answer_keep {node node' : Bifrost} {old : SocketState} {c : Connection} {poll : Poll} {buffer : Client}
    (h : answer prizm bio average serve node old c poll = .ok (node', buffer, .keep)) :
    (c.polled poll).1 = maxRequestSize := by
  obtain ⟨node₁, -, h⟩ := bind_eq_ok.mp h
  dsimp only at h
  split_ifs at h with hfull hnone
  · exact hfull
  · cases h
  · obtain ⟨req, -, h⟩ := bind_eq_ok.mp h
    split_ifs at h
    · obtain ⟨⟨out, node₂⟩, -, h⟩ := bind_eq_ok.mp h
      dsimp only at h
      split_ifs at h
      · cases h
      · cases h
      · obtain ⟨⟨node₃, v⟩, hsettle, h⟩ := bind_eq_ok.mp h
        cases h
        exact absurd rfl (settle_ne_keep hsettle)
    · obtain ⟨⟨node₃, v⟩, hsettle, h⟩ := bind_eq_ok.mp h
      cases h
      exact absurd rfl (settle_ne_keep hsettle)

variable {node : Bifrost} {poll : Poll}

/-- What is left of the clients when one is answered. -/
structure Visited (s t : Loop) (as : List Nat) (a : Nat) (v : Verdict) : Prop where
  frame : Frame s.clients t.clients
  others : ∀ b, b ≠ a → t.connections b = s.connections b
  flag : (t.connections a).websocket = ((s.connections a).websocket || v.upgrades)
  kept : v = .keep → (s.connections a).websocket = true
  running : ((s.connections a).websocket = true → v.ends = false) →
    Running t (if v.stays (s.connections a).websocket then as else as.erase a) ∧
    Blank t (if v.stays (s.connections a).websocket then as else as.erase a)

variable (prizm bio average serve) in
/-- A client cannot be answered: the answer itself fails, or pushes too long a message. -/
def Unanswered (c : Connection) (poll : Poll) (e : Fault) : Prop :=
  ∃ node old, answer prizm bio average serve node old c poll = .error e ∨
    e = .undefined ∧ ∃ node' buffer v, answer prizm bio average serve node old c poll = .ok (node', buffer, v) ∧ v.Overflows

/-- Answering a client: either it cannot be answered, or what is decided about it is carried out. -/
theorem Running.visit (h : Running s as) (hblank : Blank s as) (ha : a ∈ as)
    (hc : s.clients.heap.cell a = some client) (poll : Poll) :
    (∃ e, Unanswered prizm bio average serve (s.connections a) poll e ∧
      s.visit prizm bio average serve a client poll = .error e) ∨
    ∃ v t, s.visit prizm bio average serve a client poll = .ok (v, t, !v.ends) ∧ Visited s t as a v := by
  unfold Loop.visit
  rw [h.secured a ha client hc, if_neg (not_not.mpr rfl)]
  dsimp only
  cases hanswer : answer prizm bio average serve s.node client.state (s.connections a) poll with
  | error e => exact .inl ⟨e, ⟨s.node, client.state, .inl hanswer⟩, rfl⟩
  | ok r =>
    obtain ⟨node, buffer, v⟩ := r
    obtain ⟨t, ht⟩ : ∃ t : Loop, t = { s with
        node := node
        connections := Function.update s.connections a { s.connections a with buffer := buffer } } := ⟨_, rfl⟩
    have hself : t.connections a = { s.connections a with buffer := buffer } := by
      rw [ht]
      exact Function.update_self _ _ _
    have hothers : ∀ b, b ≠ a → t.connections b = s.connections b := by
      intro b hb
      rw [ht]
      exact Function.update_of_ne hb _ _
    have hcell : t.clients = s.clients := by rw [ht]
    have hset : Running t as := by
      rw [ht]
      exact h.setConnection ha _ id fun w hw => .inr hw
    have hkeep : v = .keep → (s.connections a).websocket = true := by
      rintro rfl
      by_contra hflag
      have hempty := hblank a ha (by simpa using hflag)
      have hfull := answer_keep hanswer
      unfold Connection.polled at hfull
      rw [if_neg hflag] at hfull
      dsimp only at hfull
      rw [hempty] at hfull
      exact absurd hfull (by decide)
    rcases hset.carryOut ha (hcell ▸ hc) v with ⟨hfails, hlong⟩ | ⟨s', hcarry, hcarried, hrunning⟩
    · refine .inl ⟨.undefined, ⟨s.node, client.state, .inr ⟨rfl, node, buffer, v, hanswer, hlong⟩⟩, ?_⟩
      dsimp only [bind, Except.bind]
      rw [← ht, hfails]
    have hflag : (t.connections a).websocket = (s.connections a).websocket := by rw [hself]
    rw [hflag] at hrunning
    refine .inr ⟨v, s', ?_, hcell ▸ hcarried.frame, ?_, ?_, hkeep, fun hguard => ⟨hrunning hguard, ?_⟩⟩
    · dsimp only [bind, Except.bind]
      rw [← ht, hcarry]
      rfl
    · exact fun b hb => (hcarried.others b hb).trans (hothers b hb)
    · rw [hcarried.flag, hflag]
    · intro b hb hordinary
      by_cases hba : b = a
      · -- it stays, so it is a web socket now
        subst hba
        split_ifs at hb with hstays
        · rw [hcarried.flag, hflag] at hordinary
          cases v with
          | keep =>
            rw [hkeep rfl] at hordinary
            cases hordinary
          | close pushed => cases hstays
          | finish state upgraded => exact absurd (hordinary.symm.trans hstays) Bool.false_ne_true
        · exact absurd hb (h.listed.nodup.not_mem_erase)
      · have hmem : b ∈ as := by
          split_ifs at hb
          · exact hb
          · exact List.mem_of_mem_erase hb
        rw [hcarried.others b hba, hothers b hba] at hordinary ⊢
        exact hblank b hmem hordinary

namespace Visited
variable {t : Loop} {v : Verdict}

theorem flags (h : Visited s t as a v) (b : Nat) (hb : (s.connections b).websocket = true) :
    (t.connections b).websocket = true := by
  by_cases hba : b = a
  · rw [hba, h.flag, ← hba, hb]
    rfl
  · rw [h.others b hba]
    exact hb

/-- A client that stays is a web socket from now on. -/
theorem flag_of_stays (h : Visited s t as a v) (hstays : v.stays (s.connections a).websocket = true) :
    (t.connections a).websocket = true := by
  rw [h.flag]
  cases v with
  | keep =>
    rw [h.kept rfl]
    rfl
  | close pushed => cases hstays
  | finish state upgraded => exact hstays

theorem sockets (h : Visited s t as a v) {ready : Nat → Prop} {reads : List Int} {rest : List Nat}
    (hset : ∀ b ∈ rest, ∀ c, s.clients.heap.cell b = some c → (c.socket ∈ reads ↔ ready b)) :
    ∀ b ∈ rest, ∀ c, t.clients.heap.cell b = some c → (c.socket ∈ reads ↔ ready b) := by
  intro b hb c hc
  obtain ⟨c', hc', heq⟩ := h.frame.sockets b c hc
  rw [heq]
  exact hset b hb c' hc'

theorem stay (h : Visited s t as a v) (hends : v.ends = false)
    (hstays : v.stays (s.connections a).websocket = true) : Running t as ∧ Blank t as := by
  have hrunning := h.running fun _ => hends
  rw [if_pos hstays] at hrunning
  exact hrunning

theorem leave {front rest : List Nat} (h : Visited s t (front ++ a :: rest) a v) (hfront : a ∉ front)
    (hguard : (s.connections a).websocket = true → v.ends = false)
    (hstays : ¬ v.stays (s.connections a).websocket = true) : Running t (front ++ rest) ∧ Blank t (front ++ rest) := by
  have hrunning := h.running hguard
  rw [if_neg hstays, List.erase_append_right _ hfront, List.erase_cons_head] at hrunning
  exact hrunning

end Visited

/-- What a walk over the clients makes of the state. -/
structure Walked (s s' : Loop) (front : List Nat) (conn : Nat → Connection) (visited : List (Nat × Verdict))
    (left : List Nat) : Prop where
  frame : Frame s.clients s'.clients
  flags : ∀ b, (s.connections b).websocket = true → (s'.connections b).websocket = true
  stayed : ∀ x ∈ visited, x.1 ∈ left → (s'.connections x.1).websocket = true
  running : (∀ x ∈ visited, (conn x.1).websocket = true → x.2.ends = false) →
    Running s' (front ++ left) ∧ Blank s' (front ++ left)

namespace Walked
variable {s' t : Loop} {v : Verdict} {front rest left : List Nat} {conn : Nat → Connection}
  {visited : List (Nat × Verdict)}

theorem nil (h : Running s (front ++ [])) (hblank : Blank s (front ++ [])) : Walked s s front conn [] [] where
  frame := Frame.refl _
  flags _ hb := hb
  stayed _ hx := absurd hx List.not_mem_nil
  running _ := ⟨h, hblank⟩

/-- One more client in the list that is not answered again. -/
theorem stayed_cons (h : Walked s s' (front ++ [a]) conn visited left) (hrest : a ∉ visited.map Prod.fst) :
    ∀ x ∈ visited, x.1 ∈ a :: left → (s'.connections x.1).websocket = true := by
  intro x hx hleft
  refine h.stayed x hx ((List.mem_cons.mp hleft).resolve_left ?_)
  intro heq
  exact hrest (heq ▸ List.mem_map_of_mem hx)

theorem running_cons (h : Walked s s' (front ++ [a]) conn visited left)
    (hguard : ∀ x ∈ visited, (conn x.1).websocket = true → x.2.ends = false) :
    Running s' (front ++ a :: left) ∧ Blank s' (front ++ a :: left) := by
  rw [List.append_cons]
  exact h.running hguard

theorem skip (h : Walked s s' (front ++ [a]) conn visited left) (hrest : a ∉ visited.map Prod.fst) :
    Walked s s' front conn visited (a :: left) where
  frame := h.frame
  flags := h.flags
  stayed := h.stayed_cons hrest
  running := h.running_cons

theorem stay (h : Walked t s' (front ++ [a]) conn visited left) (hvisit : Visited s t as a v)
    (hstays : v.stays (s.connections a).websocket = true) (hrest : a ∉ visited.map Prod.fst) :
    Walked s s' front conn ((a, v) :: visited) (a :: left) where
  frame := hvisit.frame.trans h.frame
  flags b hb := h.flags b (hvisit.flags b hb)
  stayed := List.forall_mem_cons.mpr
    ⟨fun _ => h.flags a (hvisit.flag_of_stays hstays), h.stayed_cons hrest⟩
  running hguard := h.running_cons fun x hx => hguard x (List.mem_cons_of_mem _ hx)

theorem leave (h : Walked t s' front conn visited left) (hvisit : Visited s t as a v) (hleft : a ∉ left) :
    Walked s s' front conn ((a, v) :: visited) left where
  frame := hvisit.frame.trans h.frame
  flags b hb := h.flags b (hvisit.flags b hb)
  stayed := List.forall_mem_cons.mpr ⟨fun hmem => absurd hmem hleft, h.stayed⟩
  running hguard := h.running fun x hx => hguard x (List.mem_cons_of_mem _ hx)

theorem stop (hvisit : Visited s t (front ++ a :: rest) a v) (hends : v.ends = true) (hfront : a ∉ front)
    (hrest : a ∉ rest) (hconn : s.connections a = conn a) : Walked s t front conn [(a, v)] rest where
  frame := hvisit.frame
  flags := hvisit.flags
  stayed := List.forall_mem_singleton.mpr fun hmem => absurd hmem hrest
  running hguard := by
    have hleaves : ¬ v.stays (s.connections a).websocket = true := by
      cases v with
      | close pushed => exact Bool.false_ne_true
      | _ => cases hends
    refine hvisit.leave hfront (fun hweb => ?_) hleaves
    rw [hconn] at hweb
    exact hguard (a, v) List.mem_cons_self hweb

end Walked

section Walk
variable {p : Pass} {reads : List Int} {rounds : Nat} {t : Loop} {v : Verdict}

theorem walk_skip (hc : s.clients.heap.cell a = some client) (hready : client.socket ∉ reads) :
    Loop.walk prizm bio average serve p reads (rounds + 1) (some a) s =
      Loop.walk prizm bio average serve p reads rounds client.next s := by
  rw [Loop.walk, read_eq hc]
  exact if_neg hready

theorem walk_error {e : Fault} (hc : s.clients.heap.cell a = some client) (hready : client.socket ∈ reads)
    (hvisit : s.visit prizm bio average serve a client (p.polls a) = .error e) :
    Loop.walk prizm bio average serve p reads (rounds + 1) (some a) s = .error e := by
  rw [Loop.walk, read_eq hc]
  dsimp only [bind, Except.bind]
  rw [if_pos hready, hvisit]

theorem walk_stop (hc : s.clients.heap.cell a = some client) (hready : client.socket ∈ reads)
    (hvisit : s.visit prizm bio average serve a client (p.polls a) = .ok (v, t, false)) :
    Loop.walk prizm bio average serve p reads (rounds + 1) (some a) s = .ok ([(a, v)], t) := by
  rw [Loop.walk, read_eq hc]
  dsimp only [bind, Except.bind]
  rw [if_pos hready, hvisit]
  rfl

theorem walk_go (hc : s.clients.heap.cell a = some client) (hready : client.socket ∈ reads)
    (hvisit : s.visit prizm bio average serve a client (p.polls a) = .ok (v, t, true)) :
    Loop.walk prizm bio average serve p reads (rounds + 1) (some a) s =
      (Loop.walk prizm bio average serve p reads rounds client.next t).map fun r => ((a, v) :: r.1, r.2) := by
  rw [Loop.walk, read_eq hc]
  dsimp only [bind, Except.bind]
  rw [if_pos hready, hvisit]
  rfl

end Walk

/-- The walk reads live clients only, and answers those whose sockets are set up to one that ends it. -/
theorem Running.walk {p : Pass} {reads : List Int} {front rest : List Nat} (h : Running s (front ++ rest))
    (hblank : Blank s (front ++ rest)) {ready : Nat → Prop}
    (hset : ∀ b ∈ rest, ∀ c, s.clients.heap.cell b = some c → (c.socket ∈ reads ↔ ready b))
    {conn : Nat → Connection} (hconn : ∀ b ∈ rest, s.connections b = conn b) {rounds : Nat}
    (hrounds : rest.length ≤ rounds) :
    (∃ e, Loop.walk prizm bio average serve p reads rounds rest.head? s = .error e ∧
      ∃ a ∈ rest, ready a ∧ Unanswered prizm bio average serve (conn a) (p.polls a) e) ∨
    ∃ visited left s', Loop.walk prizm bio average serve p reads rounds rest.head? s = .ok (visited, s') ∧
      InterruptedPass.Pass ready (fun b v => v.stays (conn b).websocket = true) (fun v => v.ends = true) rest
        visited left ∧ Walked s s' front conn visited left := by
  induction rest generalizing s front rounds with
  | nil => exact .inr ⟨[], [], s, by cases rounds <;> rfl, .nil, Walked.nil h hblank⟩
  | cons a rest ih =>
    obtain ⟨rounds, rfl⟩ : ∃ r, rounds = r + 1 := ⟨rounds - 1, by simp at hrounds; omega⟩
    have hrounds : rest.length ≤ rounds := by simpa using hrounds
    have ha : a ∈ front ++ a :: rest := List.mem_append_right _ List.mem_cons_self
    have hnodup := List.nodup_append.mp h.listed.nodup
    have hfront : a ∉ front := fun hmem => hnodup.2.2 a hmem a List.mem_cons_self rfl
    have hrest : a ∉ rest := (List.nodup_cons.mp hnodup.2.1).1
    obtain ⟨-, c, hc, hchain⟩ := h.listed.chain.suffix
    have hnext : c.next = rest.head? := hchain.head_eq
    have hconnA : s.connections a = conn a := hconn a List.mem_cons_self
    have hconnRest : ∀ b ∈ rest, s.connections b = conn b := fun b hb => hconn b (List.mem_cons_of_mem a hb)
    have hsetRest : ∀ b ∈ rest, ∀ c, s.clients.heap.cell b = some c → (c.socket ∈ reads ↔ ready b) :=
      fun b hb => hset b (List.mem_cons_of_mem a hb)
    rw [List.head?_cons]
    by_cases hready : c.socket ∈ reads
    · have hready' : ready a := (hset a List.mem_cons_self c hc).mp hready
      rcases h.visit hblank ha hc (p.polls a) with ⟨e, hanswer, hvisit⟩ | ⟨v, t, hvisit, hvisited⟩
      · refine .inl ⟨e, walk_error hc hready hvisit, a, List.mem_cons_self, hready', ?_⟩
        rw [← hconnA]
        exact hanswer
      · cases hends : v.ends with
        | true =>
          -- the pass ends here
          rw [hends] at hvisit
          exact .inr ⟨[(a, v)], rest, t, walk_stop hc hready hvisit, .stop hready' hends,
            Walked.stop hvisited hends hfront hrest hconnA⟩
        | false =>
          rw [hends] at hvisit
          have htconn : ∀ b ∈ rest, t.connections b = conn b := fun b hb =>
            (hvisited.others b (ne_of_mem_of_not_mem hb hrest)).trans (hconnRest b hb)
          rw [walk_go hc hready hvisit, hnext]
          by_cases hstays : v.stays (s.connections a).websocket = true
          · -- the client stays
            have hrunning := hvisited.stay hends hstays
            rw [List.append_cons] at hrunning
            rcases ih hrunning.1 hrunning.2 (hvisited.sockets hsetRest) htconn hrounds with
              ⟨e, he, b, hb, hfails⟩ | ⟨visited, left, s', hs', hpass, hwalked⟩
            · rw [he]
              exact .inl ⟨e, rfl, b, List.mem_cons_of_mem a hb, hfails⟩
            · rw [hs']
              have hnot : a ∉ visited.map Prod.fst := fun hmem => hrest (hpass.served_sublist.subset hmem)
              exact .inr ⟨(a, v) :: visited, a :: left, s', rfl,
                .stay hready' (by simp [hends]) (hconnA ▸ hstays) hpass, hwalked.stay hvisited hstays hnot⟩
          · -- it is dropped
            have hrunning := hvisited.leave hfront (fun _ => hends) hstays
            rcases ih hrunning.1 hrunning.2 (hvisited.sockets hsetRest) htconn hrounds with
              ⟨e, he, b, hb, hfails⟩ | ⟨visited, left, s', hs', hpass, hwalked⟩
            · rw [he]
              exact .inl ⟨e, rfl, b, List.mem_cons_of_mem a hb, hfails⟩
            · rw [hs']
              have hnot : a ∉ left := fun hmem => hrest (hpass.left_sublist.subset hmem)
              exact .inr ⟨(a, v) :: visited, left, s', rfl,
                .leave hready' (by simp [hends]) (hconnA ▸ hstays) hpass, hwalked.leave hvisited hnot⟩
    · have hready' : ¬ ready a := mt (hset a List.mem_cons_self c hc).mpr hready
      rw [walk_skip hc hready, hnext]
      rw [List.append_cons] at h hblank
      rcases ih h hblank hsetRest hconnRest hrounds with
        ⟨e, he, b, hb, hfails⟩ | ⟨visited, left, s', hs', hpass, hwalked⟩
      · exact .inl ⟨e, he, b, List.mem_cons_of_mem a hb, hfails⟩
      · have hnot : a ∉ visited.map Prod.fst := fun hmem => hrest (hpass.served_sublist.subset hmem)
        exact .inr ⟨visited, a :: left, s', hs', .skip hready' hpass, hwalked.skip hnot⟩

theorem waitLoop_spec {l : Clients} {p : Option Nat} (hchain : Chain Entry.next l.heap p as)
    (hasked : ∀ a ∈ as, ∀ c, l.heap.cell a = some c → 0 ≤ c.socket ∧ c.socket < fdSetSize) {rounds : Nat}
    (hrounds : as.length ≤ rounds) :
    ∃ sockets, Loop.waitLoop l rounds p = .ok sockets ∧
      ∀ fd, fd ∈ sockets ↔ ∃ a ∈ as, ∃ c, l.heap.cell a = some c ∧ c.socket = fd := by
  induction as generalizing p rounds with
  | nil =>
    obtain rfl : p = none := hchain
    exact ⟨[], by cases rounds <;> rfl, by simp⟩
  | cons a as ih =>
    obtain ⟨rfl, c, hc, hrest⟩ := hchain
    obtain ⟨rounds, rfl⟩ : ∃ r, rounds = r + 1 := ⟨rounds - 1, by simp at hrounds; omega⟩
    obtain ⟨ha, has⟩ := List.forall_mem_cons.mp hasked
    obtain ⟨sockets, hsockets, hmem⟩ := ih hrest has (by simpa using hrounds)
    refine ⟨c.socket :: sockets, ?_, fun fd => ?_⟩
    · rw [Loop.waitLoop, read_eq hc]
      dsimp only [bind, Except.bind]
      rw [if_pos (ha c hc), hsockets]
      rfl
    · rw [List.mem_cons, hmem fd, List.exists_mem_cons_iff]
      refine or_congr_left ⟨?_, ?_⟩
      · rintro rfl
        exact ⟨c, hc, rfl⟩
      · rintro ⟨d, hd, rfl⟩
        obtain rfl := Option.some.inj (hc.symm.trans hd)
        rfl

theorem Running.open (h : Running s as) : ∀ a ∈ as, ∀ c, s.clients.heap.cell a = some c → c.socket ≠ -1 := by
  intro a ha c hc heq
  have hasked := (h.asked a ha c hc).1
  omega

theorem Running.no_minus (h : Running s as) : -1 ∉ s.clients.descriptors := by
  intro hmem
  obtain ⟨a, ha, c, hc, heq⟩ := h.owned _ hmem
  exact h.open a ha c hc heq

/-- The clients that were there are as they were beside the new one. -/
theorem Running.joined (h : Running s as) {l' : Clients} {fd : Int} (hjoined : Joined s.clients l' fd)
    (ha : a ∈ as) {e : Entry} (he : l'.heap.cell a = some e) :
    ∃ e', s.clients.heap.cell a = some e' ∧ e.socket = e'.socket ∧ e.ssl = e'.ssl :=
  hjoined.old he (h.lt_next ha).ne

theorem Running.joined_unused (h : Running s as) {l' : Clients} {fd : Int} (hjoined : Joined s.clients l' fd) (b : Nat)
    (hb : l'.heap.next ≤ b) : s.connections b = { buffer := .fresh [] } := by
  rw [hjoined.next] at hb
  exact h.unused b (Nat.le_of_succ_le hb)

/-- The socket of a client that was there is still that of one of the list. -/
theorem Running.joined_owned (h : Running s as) {l' : Clients} {fd : Int} (hjoined : Joined s.clients l' fd)
    {as' : List Nat} (hlisted : Listed l' as') (hsub : as ⊆ as') {x : Int} (hx : x ∈ s.clients.descriptors) :
    ∃ a ∈ as', ∃ c, l'.heap.cell a = some c ∧ c.socket = x := by
  obtain ⟨b, hb, e', he', rfl⟩ := h.owned x hx
  obtain ⟨e, he⟩ := hlisted.exists_cell (hsub hb)
  obtain ⟨e'', he'', heq, -⟩ := h.joined hjoined hb he
  obtain rfl := Option.some.inj (he'.symm.trans he'')
  exact ⟨b, hsub hb, e, he, heq⟩

/-- A connection whose handshake succeeds is in front. -/
theorem Running.join (h : Running s as) {l' : Clients} {fd : Int} (hjoined : Joined s.clients l' fd)
    (hlisted : Listed l' (s.clients.heap.next :: as)) (hdescriptors : l'.descriptors = fd :: s.clients.descriptors)
    (hfd : 0 ≤ fd ∧ fd < fdSetSize) (hfresh : fd ∉ s.clients.descriptors) :
    Running { s with clients := l' } (s.clients.heap.next :: as) where
  listed := hlisted
  asked b hb e he := by
    rcases List.mem_cons.mp hb with rfl | hb
    · exact (hjoined.new he).1 ▸ hfd
    · obtain ⟨e', he', heq, -⟩ := h.joined hjoined hb he
      exact heq ▸ h.asked b hb e' he'
  secured b hb e he := by
    rcases List.mem_cons.mp hb with rfl | hb
    · exact (hjoined.new he).2
    · obtain ⟨e', he', -, hssl⟩ := h.joined hjoined hb he
      exact hssl.trans (h.secured b hb e' he')
  owned x hx := by
    rcases List.mem_cons.mp (hdescriptors ▸ hx) with rfl | hx
    · obtain ⟨e, he⟩ := hlisted.exists_cell List.mem_cons_self
      exact ⟨_, List.mem_cons_self, e, he, (hjoined.new he).1⟩
    · exact h.joined_owned hjoined hlisted (List.subset_cons_self _ _) hx
  once := hdescriptors ▸ List.nodup_cons.mpr ⟨hfresh, h.once⟩
  unused := h.joined_unused hjoined
  upgraded a ha := List.mem_cons_of_mem _ (h.upgraded a ha)
  ws := h.ws

/-- One whose handshake fails is not in the list. -/
theorem Running.reject (h : Running s as) {l' : Clients} {fd : Int} (hjoined : Joined s.clients l' fd)
    (hlisted : Listed l' as) (hdescriptors : l'.descriptors = s.clients.descriptors) :
    Running { s with clients := l' } as where
  listed := hlisted
  asked b hb e he := by
    obtain ⟨e', he', heq, -⟩ := h.joined hjoined hb he
    exact heq ▸ h.asked b hb e' he'
  secured b hb e he := by
    obtain ⟨e', he', -, hssl⟩ := h.joined hjoined hb he
    exact hssl.trans (h.secured b hb e' he')
  owned x hx := h.joined_owned hjoined hlisted (List.Subset.refl as) (hdescriptors ▸ hx)
  once := hdescriptors ▸ h.once
  unused := h.joined_unused hjoined
  upgraded := h.upgraded
  ws := h.ws

/-- A connection that arrives. -/
theorem Running.accept (h : Running s as) (hblank : Blank s as) {fd : Int} {tls : Tls}
    (hconnects : Connects s.clients fd tls) :
    ∃ l', s.accept (some (fd, tls)) = .ok { s with clients := l' } ∧ Joined s.clients l' fd ∧
      Running { s with clients := l' } (if tls.accepted then s.clients.heap.next :: as else as) ∧
      Blank { s with clients := l' } (if tls.accepted then s.clients.heap.next :: as else as) := by
  obtain ⟨l', hsetup, hjoined, hlisted, hdescriptors⟩ := connectionSetup_new h.listed h.open h.no_minus hconnects
  have haccept : s.accept (some (fd, tls)) = .ok { s with clients := l' } := by
    change (s.clients.connectionSetup fd tls >>= _) = _
    rw [hsetup]
    rfl
  refine ⟨l', haccept, hjoined, ?_⟩
  cases htls : tls.accepted with
  | true =>
    rw [htls, if_pos rfl] at hlisted hdescriptors
    have hfd : 0 ≤ fd ∧ fd < fdSetSize ∧ fd ∉ s.clients.descriptors :=
      hconnects.socket.resolve_left fun hfails => absurd (htls.symm.trans hfails.2) (by decide)
    rw [if_pos rfl]
    refine ⟨h.join hjoined hlisted hdescriptors ⟨hfd.1, hfd.2.1⟩ hfd.2.2, fun b hb hordinary => ?_⟩
    rcases List.mem_cons.mp hb with rfl | hb
    · dsimp only
      rw [h.unused _ (Nat.le_refl _)]
      rfl
    · exact hblank b hb hordinary
  | false =>
    rw [htls, if_neg Bool.false_ne_true] at hlisted hdescriptors
    rw [if_neg Bool.false_ne_true]
    exact ⟨h.reject hjoined hlisted hdescriptors, hblank⟩

/-- The client that is new in a pass. -/
def newClient (s : Loop) (p : Pass) : Option Nat :=
  match p.accepted with
  | some (_, tls) => if tls.accepted then some s.clients.heap.next else none
  | none => none

/-- What `accept` and OpenSSL do in a pass. -/
def Pass.Connects (p : Pass) (s : Loop) : Prop := ∀ fd tls, p.accepted = some (fd, tls) → Clients.Connects s.clients fd tls

instance (p : Pass) (s : Loop) : Decidable (p.Connects s) :=
  decidable_of_iff (∀ r ∈ p.accepted, Clients.Connects s.clients r.1 r.2)
    ⟨fun h fd tls hr => h (fd, tls) hr, fun h r hr => h r.1 r.2 hr⟩

/-- The socket of a client is set. -/
def Set (s : Loop) (p : Pass) (a : Nat) : Prop := ∃ c, s.clients.heap.cell a = some c ∧ p.ready c.socket = true

/-- What a pass makes of the state. -/
structure Passed (s s' : Loop) (p : Pass) (visited : List (Nat × Verdict)) (as left : List Nat) : Prop where
  pass : InterruptedPass.Pass (Set s p) (fun b v => v.stays (s.connections b).websocket = true)
    (fun v => v.ends = true) ((newClient s p).toList ++ as) visited left
  next : s.clients.heap.next ≤ s'.clients.heap.next
  sockets : ∀ b ∈ as, ∀ e, s'.clients.heap.cell b = some e → ∃ e', s.clients.heap.cell b = some e' ∧ e.socket = e'.socket
  flags : ∀ b, (s.connections b).websocket = true → (s'.connections b).websocket = true
  stayed : ∀ x ∈ visited, x.1 ∈ left → (s'.connections x.1).websocket = true
  running : (∀ x ∈ visited, (s.connections x.1).websocket = true → x.2.ends = false) → Running s' left ∧ Blank s' left

/-- The first part of a pass. -/
theorem Running.acceptAny (h : Running s as) (hblank : Blank s as) {p : Pass} (hp : p.Connects s) :
    ∃ l', s.accept p.accepted = .ok { s with clients := l' } ∧ s.clients.heap.next ≤ l'.heap.next ∧
      Running { s with clients := l' } ((newClient s p).toList ++ as) ∧
      Blank { s with clients := l' } ((newClient s p).toList ++ as) ∧
      ∀ b ∈ (newClient s p).toList ++ as, ∀ e, l'.heap.cell b = some e →
        b = s.clients.heap.next ∧ e.socket ∉ s.clients.descriptors ∨
        ∃ e', s.clients.heap.cell b = some e' ∧ e.socket = e'.socket := by
  unfold newClient
  cases haccepted : p.accepted with
  | none => exact ⟨s.clients, rfl, Nat.le_refl _, h, hblank, fun b _ e he => .inr ⟨e, he, rfl⟩⟩
  | some r =>
    obtain ⟨fd, tls⟩ := r
    have hconnects := hp fd tls haccepted
    obtain ⟨l', haccept, hjoined, hrunning, hblank'⟩ := h.accept hblank hconnects
    have hlist : (if tls.accepted then s.clients.heap.next :: as else as) =
        (if tls.accepted then some s.clients.heap.next else none).toList ++ as := by
      split_ifs <;> rfl
    rw [hlist] at hrunning hblank'
    refine ⟨l', haccept, hjoined.next ▸ Nat.le_succ _, hrunning, hblank', fun b hb e he => ?_⟩
    rcases hjoined.cells b e he with ⟨hbn, heq, -⟩ | ⟨e', he', heq, -⟩
    · refine .inl ⟨hbn, ?_⟩
      rcases hconnects.socket with ⟨-, hfails⟩ | ⟨-, -, hfresh⟩
      · dsimp only at hb
        rw [hfails] at hb
        exact absurd hbn (h.lt_next hb).ne
      · exact heq ▸ hfresh
    · exact .inr ⟨e', he', heq⟩

theorem eq_next_of_mem {p : Pass} (ha : a ∈ newClient s p) : a = s.clients.heap.next := by
  unfold newClient at ha
  split at ha
  · split_ifs at ha
    · exact (Option.some.inj ha).symm
    · cases ha
  · cases ha

/-- A client that had an entry before is an old one. -/
theorem mem_of_cell {p : Pass} (ha : a ∈ (newClient s p).toList ++ as) (hc : s.clients.heap.cell a = some client) :
    a ∈ as := by
  refine (List.mem_append.mp ha).resolve_left ?_
  intro hnew
  have hlt := Heap.lt_next (by rw [hc]; rfl : (s.clients.heap.cell a).isSome)
  exact hlt.ne (eq_next_of_mem (Option.mem_toList.mp hnew))

/-- A pass can only fail in a client that cannot be answered. -/
theorem Running.pass (h : Running s as) (hblank : Blank s as) {p : Pass} (hp : p.Connects s) :
    (∃ e, s.pass prizm bio average serve p = .error e ∧
      ∃ a ∈ as, Set s p a ∧ Unanswered prizm bio average serve (s.connections a) (p.polls a) e) ∨
    ∃ visited left s', s.pass prizm bio average serve p = .ok (visited, s') ∧ Passed s s' p visited as left := by
  obtain ⟨sockets, hwait, hmem⟩ := waitLoop_spec h.listed.chain h.asked h.listed.rounds
  obtain ⟨l', haccept, hnext, hrunning, hblank', hcells⟩ := h.acceptAny hblank hp
  -- the sockets that are set are those of old clients
  have hnew : s.clients.heap.cell s.clients.heap.next = none := s.clients.heap.fresh _ (Nat.le_refl _)
  have hset : ∀ b ∈ (newClient s p).toList ++ as, ∀ c, l'.heap.cell b = some c →
      (c.socket ∈ sockets.filter p.ready ↔ Set s p b) := by
    intro b hb c hc
    rw [List.mem_filter, hmem]
    rcases hcells b hb c hc with ⟨rfl, hfresh⟩ | ⟨c', hc', heq⟩
    · constructor
      · rintro ⟨⟨a, ha, d, hd, hsocket⟩, -⟩
        rw [← hsocket] at hfresh
        exact absurd (h.listed.opened a ha d hd (h.open a ha d hd)) hfresh
      · rintro ⟨e, he, -⟩
        cases hnew.symm.trans he
    · have hb' := mem_of_cell hb hc'
      constructor
      · rintro ⟨-, hready⟩
        exact ⟨c', hc', heq ▸ hready⟩
      · rintro ⟨d, hd, hready⟩
        obtain rfl := Option.some.inj (hc'.symm.trans hd)
        exact ⟨⟨b, hb', c', hc', heq.symm⟩, heq ▸ hready⟩
  have hpass : s.pass prizm bio average serve p = Loop.walk prizm bio average serve p (sockets.filter p.ready)
      l'.heap.next ((newClient s p).toList ++ as).head? { s with clients := l' } := by
    unfold Loop.pass
    rw [hwait]
    dsimp only [bind, Except.bind]
    rw [haccept]
    dsimp only
    rw [← hrunning.listed.chain.head_eq]
  rw [hpass]
  have hfront : Running { s with clients := l' } ([] ++ ((newClient s p).toList ++ as)) := hrunning
  rcases hfront.walk hblank' hset (fun _ _ => rfl) hrunning.listed.rounds with
    ⟨e, he, a, ha, hready, hfails⟩ | ⟨visited, left, s', hs', hround, hwalked⟩
  · obtain ⟨c, hc, hset⟩ := hready
    exact .inl ⟨e, he, a, mem_of_cell ha hc, ⟨c, hc, hset⟩, hfails⟩
  · refine .inr ⟨visited, left, s', hs', hround, ?_, ?_, hwalked.flags, hwalked.stayed, hwalked.running⟩
    · exact hnext.trans hwalked.frame.next.ge
    · intro b hb e he
      obtain ⟨e', he', heq⟩ := hwalked.frame.sockets b e he
      rcases hcells b (List.mem_append_right _ hb) e' he' with ⟨hbn, -⟩ | ⟨e'', he'', heq'⟩
      · exact absurd hbn (h.lt_next hb).ne
      · exact ⟨e'', he'', heq.trans heq'⟩

/-- A task of the thread pool finds its client. -/
theorem Running.task (h : Running s as) (hblank : Blank s as) (hweb : (s.connections a).websocket = true)
    (state : SocketState) :
    ∃ l', s.task a state = .ok { s with clients := l' } ∧ Running { s with clients := l' } as ∧
      Blank { s with clients := l' } as ∧ Frame s.clients l' := by
  have ha := h.upgraded a hweb
  obtain ⟨c, hc⟩ := h.exists_cell ha
  refine ⟨s.clients.write a { c with state := state }, ?_, h.setState ha hc state, hblank, frame_write hc rfl rfl⟩
  unfold Loop.task
  rw [read_eq hc]
  rfl

variable (prizm bio average serve)

/-- What happens to the server: a pass with the clients it answers, or a task of the thread pool. -/
inductive LoopEvent where
  | pass (p : Pass) (visited : List (Nat × Verdict))
  | task (a : Nat) (state : SocketState)

/-- The server goes on. No web socket is dropped, and tasks are there for web sockets only. -/
def Move (s : Loop) : LoopEvent → Loop → Prop
  | .pass p visited, s' =>
    p.Connects s ∧ s.pass prizm bio average serve p = .ok (visited, s') ∧
      ∀ x ∈ visited, (s.connections x.1).websocket = true → x.2.ends = false
  | .task a state, s' => (s.connections a).websocket = true ∧ s.task a state = .ok s'

/-- The state after some events, if all of them can happen. -/
def Loop.schedule (s : Loop) : List LoopEvent → Option Loop
  | [] => some s
  | .pass p visited :: es =>
    match s.pass prizm bio average serve p with
    | .ok (answered, t) =>
      if p.Connects s ∧ answered = visited ∧ ∀ x ∈ visited, (s.connections x.1).websocket = true → x.2.ends = false
      then Loop.schedule t es else none
    | .error _ => none
  | .task a state :: es =>
    match s.task a state with
    | .ok t => if (s.connections a).websocket = true then Loop.schedule t es else none
    | .error _ => none

variable {prizm bio average serve}

theorem run_schedule {es : List LoopEvent} {u : Loop} (h : s.schedule prizm bio average serve es = some u) :
    Run (Move prizm bio average serve) s es u := by
  induction es generalizing s with
  | nil =>
    obtain rfl := Option.some.inj h
    exact .nil
  | cons e es ih =>
    cases e with
    | pass p visited =>
      unfold Loop.schedule at h
      split at h
      · rename_i answered t hpass
        split_ifs at h with hmoves
        obtain ⟨hp, rfl, hguard⟩ := hmoves
        exact (Run.single ⟨hp, hpass, hguard⟩).trans (ih h)
      · cases h
    | task a state =>
      unfold Loop.schedule at h
      split at h
      · rename_i t htask
        split_ifs at h with hweb
        exact (Run.single ⟨hweb, htask⟩).trans (ih h)
      · cases h

theorem Running.move (h : Running s as) (hblank : Blank s as) {e : LoopEvent} {s' : Loop}
    (hmove : Move prizm bio average serve s e s') : ∃ left, Running s' left ∧ Blank s' left := by
  cases e with
  | pass p visited =>
    obtain ⟨hp, hpass, hguard⟩ := hmove
    rcases h.pass hblank hp with ⟨e, he, -⟩ | ⟨visited', left, s'', hs'', hpassed⟩
    · cases hpass.symm.trans he
    · obtain ⟨rfl, rfl⟩ := Prod.mk.inj (Except.ok.inj (hpass.symm.trans hs''))
      exact ⟨left, hpassed.running hguard⟩
  | task a state =>
    obtain ⟨hweb, htask⟩ := hmove
    obtain ⟨l', hl', hrunning, hblank', -⟩ := h.task hblank hweb state
    obtain rfl := Except.ok.inj (htask.symm.trans hl')
    exact ⟨as, hrunning, hblank'⟩

/-- The third brings the reply of a job. It is pushed to the web socket, which ends the pass, and the second
client, which was to be answered after it, is answered in the next one. -/
def go : List LoopEvent :=
  [.pass
      { ready := fun fd => fd ≠ 5
        polls := fun _ =>
          { now := 0
            segments := [lit "POST / JOB\r\nHost: b\r\nBroker-Type: simple\r\nTicket: 0\r\n\r\n", lit "yes"] } }
      [(2, .close (some (pushText (lit "b") [])))],
    .pass { ready := fun _ => true, polls := fun _ => { now := 0, counted := (3, 0) } }
      [(1, .finish .null false), (0, .finish .openWs false)]]

end Answer
end Jericho.Server
