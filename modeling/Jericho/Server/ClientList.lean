import Jericho.Server.Clients

/-! The list of clients keeps one entry for each connection. -/
namespace Jericho.Server.Clients
open StdText Runs Heap

variable {l l' : Clients} {as bs : List Nat} {a b : Nat} {c d : Entry}

/-- The list from the head has these nodes, none of them twice, and as many as are counted. No one
is promised, and the sockets that are not closed are open and all different. -/
structure Listed (l : Clients) (as : List Nat) : Prop where
  chain : Chain Entry.next l.heap l.head as
  nodup : as.Nodup
  count : l.numClients = as.length
  unpromised : ∀ a ∈ as, ∀ c, l.heap.cell a = some c → c.promised = false
  opened : ∀ a ∈ as, ∀ c, l.heap.cell a = some c → c.socket ≠ -1 → c.socket ∈ l.descriptors
  distinct : ∀ a ∈ as, ∀ b ∈ as, ∀ c d, l.heap.cell a = some c → l.heap.cell b = some d →
    c.socket ≠ -1 → c.socket = d.socket → a = b

theorem listed_empty : Listed {} [] := by
  refine ⟨rfl, List.nodup_nil, rfl, ?_, ?_, ?_⟩ <;> simp

theorem Listed.rounds (h : Listed l as) : as.length ≤ l.heap.next := length_le_next h.nodup h.chain.live

theorem Listed.exists_cell (h : Listed l as) (ha : a ∈ as) : ∃ c, l.heap.cell a = some c :=
  Option.isSome_iff_exists.mp (h.chain.live a ha)

theorem read_eq (hc : l.heap.cell a = some c) : l.read (some a) = .ok c := by
  unfold read
  rw [Heap.read_eq_some.mpr ⟨a, rfl, hc⟩]

/-- Rewriting an entry that stays where it is. -/
theorem Listed.write (h : Listed l as) (ha : a ∈ as) (hc : l.heap.cell a = some c) {ds : List Int}
    (hnext : d.next = c.next) (hpromised : d.promised = false)
    (hothers : ∀ b ∈ as, b ≠ a → ∀ e, l.heap.cell b = some e → e.socket ≠ -1 → e.socket ∈ ds)
    (hopened : d.socket ≠ -1 → d.socket ∈ ds)
    (halone : d.socket ≠ -1 → ∀ b ∈ as, b ≠ a → ∀ e, l.heap.cell b = some e → e.socket ≠ d.socket) :
    Listed { l.write a d with descriptors := ds } as := by
  have hcell : ∀ b, (l.heap.write (some a) d).cell b = if b = a then some d else l.heap.cell b :=
    write_cell (by rw [hc]; rfl) d
  have hself : (l.heap.write (some a) d).cell a = some d := (hcell a).trans (if_pos rfl)
  have hother : ∀ b, b ≠ a → (l.heap.write (some a) d).cell b = l.heap.cell b := fun b hb => (hcell b).trans (if_neg hb)
  refine ⟨?_, h.nodup, h.count, ?_, ?_, ?_⟩
  · refine h.chain.relink ?_
    intro b hb e he
    by_cases hba : b = a
    · subst hba
      obtain rfl := Option.some.inj (hc.symm.trans he)
      exact ⟨d, hself, hnext⟩
    · exact ⟨e, (hother b hba).trans he, rfl⟩
  · intro b hb e he
    by_cases hba : b = a
    · subst hba
      obtain rfl := Option.some.inj (hself.symm.trans he)
      exact hpromised
    · exact h.unpromised b hb e ((hother b hba).symm.trans he)
  · intro b hb e he hopen
    by_cases hba : b = a
    · subst hba
      obtain rfl := Option.some.inj (hself.symm.trans he)
      exact hopened hopen
    · exact hothers b hb hba e ((hother b hba).symm.trans he) hopen
  · intro b hb b' hb' e e' he he' hopen heq
    by_cases hba : b = a
    · subst hba
      obtain rfl := Option.some.inj (hself.symm.trans he)
      by_contra hne
      exact halone hopen b' hb' (Ne.symm hne) e' ((hother b' (Ne.symm hne)).symm.trans he') heq.symm
    · have heold := (hother b hba).symm.trans he
      by_cases hba' : b' = a
      · subst hba'
        obtain rfl := Option.some.inj (hself.symm.trans he')
        exact absurd heq (halone (heq ▸ hopen) b hb hba e heold)
      · exact h.distinct b hb b' hb' e e' heold ((hother b' hba').symm.trans he') hopen heq

/-- What `get_client` looks for: the first entry with the socket, if there is one. -/
theorem findLoop_spec (s : Int) {p : Option Nat} (hc : Chain Entry.next l.heap p bs) {rounds : Nat}
    (hrounds : bs.length ≤ rounds) :
    ∃ found, l.findLoop s rounds p = .ok found ∧
      (∀ a, found = some a → a ∈ bs ∧ ∃ c, l.heap.cell a = some c ∧ c.socket = s) ∧
      (found = none → ∀ a ∈ bs, ∀ c, l.heap.cell a = some c → c.socket ≠ s) := by
  induction bs generalizing p rounds with
  | nil =>
    obtain rfl : p = none := hc
    exact ⟨none, by cases rounds <;> rfl, by simp, by simp⟩
  | cons b bs ih =>
    obtain ⟨rfl, c, hb, hrest⟩ := hc
    obtain ⟨rounds, rfl⟩ : ∃ r, rounds = r + 1 := ⟨rounds - 1, by simp at hrounds; omega⟩
    unfold findLoop
    rw [read_eq hb]
    dsimp only [bind, Except.bind]
    by_cases hsocket : c.socket = s
    · refine ⟨some b, if_pos hsocket, ?_, fun h => nomatch h⟩
      intro a ha
      obtain rfl := Option.some.inj ha
      exact ⟨List.mem_cons_self, c, hb, hsocket⟩
    · have hrounds : bs.length ≤ rounds := by simpa using hrounds
      obtain ⟨found, hfound, hspec, hnone⟩ := ih hrest hrounds
      refine ⟨found, (if_neg hsocket).trans hfound, ?_, ?_⟩
      · intro a ha
        obtain ⟨hmem, hcell⟩ := hspec a ha
        exact ⟨List.mem_cons_of_mem b hmem, hcell⟩
      · intro h
        refine List.forall_mem_cons.mpr ⟨?_, hnone h⟩
        intro d hd
        obtain rfl := Option.some.inj (hb.symm.trans hd)
        exact hsocket

/-- A new entry at the front of the list. -/
theorem Listed.cons (h : Listed l as) (hhead : l'.head = some a) (hnext : d.next = l.head) (hnew : a ∉ as)
    (hcell : ∀ b, l'.heap.cell b = if b = a then some d else l.heap.cell b) (hcount : l'.numClients = l.numClients + 1)
    (hpromised : d.promised = false) (hds : ∀ s ∈ l.descriptors, s ∈ l'.descriptors)
    (hopened : d.socket ≠ -1 → d.socket ∈ l'.descriptors ∧ d.socket ∉ l.descriptors) : Listed l' (a :: as) := by
  have hself : l'.heap.cell a = some d := (hcell a).trans (if_pos rfl)
  have hother : ∀ b ∈ as, l'.heap.cell b = l.heap.cell b := by
    intro b hb
    refine (hcell b).trans (if_neg ?_)
    rintro rfl
    exact hnew hb
  refine ⟨⟨hhead, d, hself, ?_⟩, List.nodup_cons.mpr ⟨hnew, h.nodup⟩, ?_, ?_, ?_, ?_⟩
  · rw [hnext]
    exact h.chain.congr hother
  · rw [hcount, h.count]
    simp
  · refine List.forall_mem_cons.mpr ⟨?_, fun b hb e he => h.unpromised b hb e ((hother b hb).symm.trans he)⟩
    intro e he
    obtain rfl := Option.some.inj (hself.symm.trans he)
    exact hpromised
  · refine List.forall_mem_cons.mpr
      ⟨?_, fun b hb e he hopen => hds _ (h.opened b hb e ((hother b hb).symm.trans he) hopen)⟩
    intro e he hopen
    obtain rfl := Option.some.inj (hself.symm.trans he)
    exact (hopened hopen).1
  · intro b hb b' hb' e e' he he' hopen heq
    rcases List.mem_cons.mp hb with hba | hbold <;> rcases List.mem_cons.mp hb' with hba' | hbold'
    · rw [hba, hba']
    · obtain rfl := Option.some.inj (hself.symm.trans (hba ▸ he))
      have hold := h.opened b' hbold' e' ((hother b' hbold').symm.trans he') (heq ▸ hopen)
      exact absurd (heq ▸ hold) (hopened hopen).2
    · obtain rfl := Option.some.inj (hself.symm.trans (hba' ▸ he'))
      have hold := h.opened b hbold e ((hother b hbold).symm.trans he) hopen
      exact absurd (heq ▸ hold) (hopened (heq ▸ hopen)).2
    · have heold := (hother b hbold).symm.trans he
      exact h.distinct b hbold b' hbold' e e' heold ((hother b' hbold').symm.trans he') hopen heq

/-- An entry is given to a connection: it belonged to none before, no other entry has the socket,
and the other entries are as they were. -/
structure Given (l l' : Clients) (as as' : List Nat) (fd : Int) (a : Nat) : Prop where
  list : as' = as ∨ as' = a :: as
  mem : a ∈ as'
  own : a ∉ as ∨ ∃ c, l.heap.cell a = some c ∧ c.socket = -1
  socket : ∃ c, l'.heap.cell a = some c ∧ c.socket = fd
  alone : fd ≠ -1 → ∀ b ∈ as', b ≠ a → ∀ c, l'.heap.cell b = some c → c.socket ≠ fd
  others : ∀ b, b ≠ a → l'.heap.cell b = l.heap.cell b

/-- What `accept` returns: minus one, or a descriptor that no connection has. -/
def Accepts (l : Clients) (fd : Int) : Prop := fd = -1 ∨ 0 ≤ fd ∧ fd ∉ l.descriptors

/-- There is a closed entry for the next connection, or a number for a new one. -/
def Numbered (l : Clients) (as : List Nat) : Prop :=
  (∃ a ∈ as, ∃ c, l.heap.cell a = some c ∧ c.socket = -1) ∨ inInt (l.clientId + 1)

theorem acceptClient_spec (h : Listed l as) {fd : Int} (hfd : Accepts l fd) (hnumber : Numbered l as) :
    ∃ a l' as', l.acceptClient fd = .ok (a, l') ∧ Listed l' as' ∧ Given l l' as as' fd a := by
  have hfree : fd ≠ -1 → fd ∉ l.descriptors := fun hne => (hfd.resolve_left hne).2
  have hds : fd ≠ -1 → fd ∈ (if fd = -1 then l.descriptors else fd :: l.descriptors) := by
    intro hne
    rw [if_neg hne]
    exact List.mem_cons_self
  have hkept : ∀ s ∈ l.descriptors, s ∈ (if fd = -1 then l.descriptors else fd :: l.descriptors) := by
    intro s hs
    split_ifs
    · exact hs
    · exact List.mem_cons_of_mem fd hs
  have hunused : fd ≠ -1 → ∀ b ∈ as, ∀ e, l.heap.cell b = some e → e.socket ≠ fd := by
    intro hne b hb e he heq
    exact hfree hne (heq ▸ h.opened b hb e he (heq ▸ hne))
  obtain ⟨found, hfound, hspec, hnone⟩ := findLoop_spec (-1) h.chain h.rounds
  cases found with
  | some a =>
    -- an entry that was closed
    obtain ⟨ha, c, hc, hclosed⟩ := hspec a rfl
    refine ⟨a, { l.write a { c with socket := fd } with
      descriptors := if fd = -1 then l.descriptors else fd :: l.descriptors }, as, ?_, ?_, ?_⟩
    · unfold acceptClient getClient
      rw [hfound]
      dsimp only [bind, Except.bind]
      rw [read_eq hc]
      rfl
    · refine h.write ha hc rfl (h.unpromised a ha c hc) ?_ hds ?_
      · exact fun b hb _ e he hopen => hkept _ (h.opened b hb e he hopen)
      · exact fun hne b hb _ e he => hunused hne b hb e he
    · have hcell := write_cell (h := l.heap) (a := a) (by rw [hc]; rfl) { c with socket := fd }
      have hothers : ∀ b, b ≠ a → (l.heap.write (some a) { c with socket := fd }).cell b = l.heap.cell b :=
        fun b hb => (hcell b).trans (if_neg hb)
      refine ⟨.inl rfl, ha, .inr ⟨c, hc, hclosed⟩, ⟨_, (hcell a).trans (if_pos rfl), rfl⟩, ?_, hothers⟩
      exact fun hne b hb hba e he => hunused hne b hb e ((hothers b hba).symm.trans he)
  | none =>
    -- a new entry
    have hnew : l.heap.next ∉ as := fun hmem => (lt_next (h.chain.live _ hmem)).false
    have hcounter : inInt (l.clientId + 1) := by
      refine hnumber.resolve_left ?_
      rintro ⟨a, ha, c, hc, hclosed⟩
      exact hnone rfl a ha c hc hclosed
    have hinc : increment l.clientId = .ok (l.clientId + 1) := if_pos hcounter
    let n : Entry := { id := l.clientId + 1, next := l.head }
    have hcell : ∀ b, ((l.heap.alloc n).write (some l.heap.next) { n with socket := fd }).cell b =
        if b = l.heap.next then some { n with socket := fd } else l.heap.cell b := by
      intro b
      rw [write_cell (by rw [alloc_cell_next]; rfl), alloc_cell]
      split_ifs <;> rfl
    refine ⟨l.heap.next, { l with
      heap := (l.heap.alloc n).write (some l.heap.next) { n with socket := fd }
      head := some l.heap.next
      numClients := l.numClients + 1
      clientId := l.clientId + 1
      descriptors := if fd = -1 then l.descriptors else fd :: l.descriptors }, l.heap.next :: as, ?_, ?_, ?_⟩
    · unfold acceptClient getClient
      rw [hfound]
      dsimp only [bind, Except.bind]
      rw [hinc]
      dsimp only
      rw [read_eq (alloc_cell_next l.heap n)]
      rfl
    · exact h.cons rfl rfl hnew hcell rfl rfl hkept fun hne => ⟨hds hne, hfree hne⟩
    · have hothers : ∀ b, b ≠ l.heap.next → _ = l.heap.cell b := fun b hb => (hcell b).trans (if_neg hb)
      refine ⟨.inr rfl, List.mem_cons_self, .inl hnew, ⟨_, (hcell _).trans (if_pos rfl), rfl⟩, ?_, hothers⟩
      intro hne b hb hba e he
      have hold := (List.mem_cons.mp hb).resolve_left hba
      exact hunused hne b hold e ((hothers b hba).symm.trans he)

/-- The place of the pointer behind the nodes passed by. -/
def placeAfter (passed : List Nat) : Place :=
  match passed.getLast? with
  | none => .head
  | some d => .next d

theorem placeAfter_concat (passed : List Nat) (d : Nat) : placeAfter (passed ++ [d]) = .next d := by
  simp [placeAfter]

theorem deref_spec (hc : Chain Entry.next l.heap l.head (as ++ bs)) : l.deref (placeAfter as) = .ok bs.head? := by
  rcases List.eq_nil_or_concat as with rfl | ⟨as, d, rfl⟩
  · exact congrArg Except.ok hc.head_eq
  · rw [List.concat_eq_append] at hc ⊢
    rw [List.append_assoc, List.singleton_append] at hc
    obtain ⟨c, hd, hnext⟩ := hc.cell
    rw [placeAfter_concat]
    change (l.read (some d) >>= fun client => pure client.next) = _
    rw [read_eq hd]
    exact congrArg Except.ok hnext

/-- A list without one of its nodes, the others unchanged but for their links. -/
theorem Listed.without (h : Listed l (as ++ a :: bs)) (hc : l.heap.cell a = some c)
    (hchain : Chain Entry.next l'.heap l'.head (as ++ bs)) (hcount : l'.numClients = l.numClients - 1)
    (hds : l'.descriptors = l.descriptors.erase c.socket)
    (hcell : ∀ b ∈ as ++ bs, ∀ e, l'.heap.cell b = some e →
      ∃ e', l.heap.cell b = some e' ∧ e.socket = e'.socket ∧ e.promised = e'.promised) : Listed l' (as ++ bs) := by
  have hsub : (as ++ bs).Sublist (as ++ a :: bs) := (List.sublist_cons_self a bs).append_left as
  have hmem : ∀ b ∈ as ++ bs, b ∈ as ++ a :: bs := fun b hb => hsub.subset hb
  have hne : ∀ b ∈ as ++ bs, b ≠ a := by
    have hperm : (as ++ a :: bs).Perm (a :: (as ++ bs)) := List.perm_middle
    have hnotMem := (List.nodup_cons.mp (hperm.nodup_iff.mp h.nodup)).1
    rintro b hb rfl
    exact hnotMem hb
  refine ⟨hchain, h.nodup.sublist hsub, ?_, ?_, ?_, ?_⟩
  · rw [hcount, h.count]
    simp
    omega
  · intro b hb e he
    obtain ⟨e', he', -, hpromised⟩ := hcell b hb e he
    rw [hpromised]
    exact h.unpromised b (hmem b hb) e' he'
  · intro b hb e he hopen
    obtain ⟨e', he', hsocket, -⟩ := hcell b hb e he
    rw [hsocket] at hopen ⊢
    have hother : e'.socket ≠ c.socket := fun heq =>
      hne b hb (h.distinct b (hmem b hb) a (by simp) e' c he' hc hopen heq)
    rw [hds]
    exact (List.mem_erase_of_ne hother).mpr (h.opened b (hmem b hb) e' he' hopen)
  · intro b hb b' hb' e e' he he' hopen heq
    obtain ⟨f, hf, hsocket, -⟩ := hcell b hb e he
    obtain ⟨f', hf', hsocket', -⟩ := hcell b' hb' e' he'
    exact h.distinct b (hmem b hb) b' (hmem b' hb') f f' hf hf' (hsocket ▸ hopen) (hsocket ▸ hsocket' ▸ heq)

/-- Taking a node out of the list: what links to it is linked past it, and it is freed. -/
theorem Listed.unlink (h : Listed l (as ++ a :: bs)) (hc : l.heap.cell a = some c) :
    ∃ l', (l.closeSocket c.socket).assign (placeAfter as) c.next = .ok l' ∧
      Listed { l' with heap := l'.heap.free [some a], numClients := l'.numClients - 1 } (as ++ bs) := by
  have hnotMem : a ∉ as ++ bs := by
    have hperm : (as ++ a :: bs).Perm (a :: (as ++ bs)) := List.perm_middle
    exact (List.nodup_cons.mp (hperm.nodup_iff.mp h.nodup)).1
  have hkeep : ∀ (g : Heap Entry), ∀ b ∈ as ++ bs, (g.free [some a]).cell b = g.cell b := by
    intro g b hb
    refine free_cell_of_notMem ?_
    rw [List.mem_singleton, Option.some.injEq]
    rintro rfl
    exact hnotMem hb
  obtain ⟨x, hx, hnext⟩ := h.chain.cell
  obtain rfl := Option.some.inj (hc.symm.trans hx)
  rcases List.eq_nil_or_concat as with rfl | ⟨as, d, rfl⟩
  · -- the head of the list
    refine ⟨_, rfl, h.without hc ?_ rfl rfl ?_⟩
    · obtain ⟨-, x, hx, hrest⟩ := h.chain
      obtain rfl := Option.some.inj (hc.symm.trans hx)
      exact hrest.congr (hkeep l.heap)
    · intro b hb e he
      exact ⟨e, (hkeep l.heap b hb).symm.trans he, rfl, rfl⟩
  · -- the link of the node before it
    rw [List.concat_eq_append] at *
    have h' : Listed l (as ++ d :: a :: bs) := by simpa using h
    obtain ⟨e, hd, -⟩ := h'.chain.cell
    have hcell := write_cell (h := l.heap) (a := d) (by rw [hd]; rfl) { e with next := c.next }
    refine ⟨{ l with
      descriptors := l.descriptors.erase c.socket
      heap := l.heap.write (some d) { e with next := c.next } }, ?_, h.without hc ?_ rfl rfl ?_⟩
    · rw [placeAfter_concat]
      change ((l.closeSocket c.socket).read (some d) >>= _) = _
      rw [read_eq (l := l.closeSocket c.socket) hd]
      rfl
    · generalize hfreed : (l.heap.write (some d) { e with next := c.next }).free [some a] = freed
      have hafter : Chain Entry.next freed l.head (as ++ d :: bs) := h'.chain.unlink h'.nodup ?_
      · simpa [hfreed] using hafter
      · intro b hb w hw
        refine ⟨if b = d then { e with next := c.next } else w, ?_, ?_⟩
        · rw [← hfreed, hkeep _ b (by simpa using hb), hcell]
          split_ifs
          · rfl
          · exact hw
        · split_ifs
          · exact hnext
          · rfl
    · intro b hb w hw
      have hw' := (hkeep _ b hb).symm.trans hw
      rw [hcell] at hw'
      split_ifs at hw' with hbd
      · obtain rfl := Option.some.inj hw'
        exact ⟨e, hbd ▸ hd, rfl, rfl⟩
      · exact ⟨w, hw', rfl, rfl⟩

/-- The loop of `drop_client` finds a listed client and takes it out. -/
theorem dropLoop_spec {passed rest : List Nat} (h : Listed l (passed ++ rest ++ a :: bs)) (hc : l.heap.cell a = some c)
    {rounds : Nat} (hrounds : rest.length < rounds) :
    ∃ l', dropLoop a rounds (placeAfter passed) (l.closeSocket c.socket) = .ok l' ∧
      Listed l' (passed ++ rest ++ bs) := by
  induction rest generalizing passed rounds with
  | nil =>
    obtain ⟨rounds, rfl⟩ : ∃ r, rounds = r + 1 := ⟨rounds - 1, by simp at hrounds; omega⟩
    rw [List.append_nil] at h ⊢
    obtain ⟨l', hassign, hl'⟩ := h.unlink hc
    refine ⟨_, ?_, hl'⟩
    unfold dropLoop
    rw [deref_spec (l := l.closeSocket c.socket) h.chain]
    dsimp only [bind, Except.bind]
    rw [List.head?_cons]
    dsimp only
    rw [if_pos rfl, read_eq (l := l.closeSocket c.socket) hc]
    dsimp only
    rw [hassign]
    rfl
  | cons b rest ih =>
    obtain ⟨rounds, rfl⟩ : ∃ r, rounds = r + 1 := ⟨rounds - 1, by simp at hrounds; omega⟩
    have hne : b ≠ a := by
      rintro rfl
      have hnodup := h.nodup
      simp [List.nodup_append] at hnodup
    have hmoved : Listed l (passed ++ [b] ++ rest ++ a :: bs) := by simpa using h
    have hrounds : rest.length < rounds := by simpa using hrounds
    obtain ⟨l', hloop, hl'⟩ := ih hmoved hrounds
    refine ⟨l', ?_, by simpa using hl'⟩
    unfold dropLoop
    have hchain : Chain Entry.next l.heap l.head (passed ++ (b :: rest ++ a :: bs)) := by simpa using h.chain
    rw [deref_spec (l := l.closeSocket c.socket) hchain]
    dsimp only [bind, Except.bind]
    rw [List.cons_append, List.head?_cons]
    dsimp only
    rw [if_neg hne, ← placeAfter_concat passed b]
    exact hloop

/-- Dropping a listed client removes exactly it and keeps the order of the others. -/
theorem dropClient_spec (h : Listed l as) (ha : a ∈ as) (hc : l.heap.cell a = some c) (hssl : c.ssl = true) :
    ∃ l', l.dropClient a = .ok l' ∧ Listed l' (as.erase a) := by
  obtain ⟨front, back, rfl, hfront⟩ := List.eq_append_cons_of_mem ha
  have hrounds : front.length < l.heap.next + 1 := by
    have hle := h.rounds
    simp at hle
    omega
  have hlisted : Listed l ([] ++ front ++ a :: back) := h
  obtain ⟨l', hloop, hl'⟩ := dropLoop_spec hlisted hc hrounds
  refine ⟨l', ?_, ?_⟩
  · unfold dropClient
    rw [read_eq hc]
    dsimp only [bind, Except.bind]
    rw [h.unpromised a ha c hc, if_pos Bool.false_ne_true, hssl]
    exact hloop
  · rw [List.erase_append_right _ hfront, List.erase_cons_head]
    exact hl'

theorem closeClient_spec (h : Listed l as) (ha : a ∈ as) : ∃ l', l.closeClient a = .ok l' ∧ Listed l' as := by
  obtain ⟨c, hc⟩ := h.exists_cell ha
  refine ⟨(l.closeSocket c.socket).write a { c with state := .closed, socket := -1 }, ?_, ?_⟩
  · unfold closeClient
    rw [read_eq hc]
    rfl
  · refine h.write ha hc rfl (h.unpromised a ha c hc) ?_ (absurd rfl) (absurd rfl)
    intro b hb hba e he hopen
    have hother : e.socket ≠ c.socket := fun heq => hba (h.distinct b hb a ha e c he hc hopen heq)
    exact (List.mem_erase_of_ne hother).mpr (h.opened b hb e he hopen)

/-- What is left of `connection_setup` once the connection has its entry. -/
theorem connectionSetup_eq {mid : Clients} {fd : Int} (haccept : l.acceptClient fd = .ok (a, mid))
    (hc : mid.heap.cell a = some c) (tls : Tls) :
    l.connectionSetup fd tls =
      if ¬ tls.created then .ok (mid.write a { c with ssl := tls.created }, -1)
      else if ¬ tls.accepted then ((mid.write a { c with ssl := tls.created }).dropClient a).map fun l => (l, 0)
      else .ok (mid.write a { c with ssl := tls.created }, 0) := by
  unfold connectionSetup
  rw [haccept]
  dsimp only [bind, Except.bind]
  rw [read_eq hc]
  rfl

/-- The whole of `connection_setup`: the entry is given as `accept` returns, and is dropped again
if the handshake fails. -/
theorem connectionSetup_spec (h : Listed l as) {fd : Int} (hfd : Accepts l fd) (hnumber : Numbered l as) (tls : Tls) :
    ∃ a mid l' as' r, l.acceptClient fd = .ok (a, mid) ∧ Listed mid as' ∧ Given l mid as as' fd a ∧
      l.connectionSetup fd tls = .ok (l', r) ∧
      if tls.created ∧ ¬ tls.accepted then Listed l' (as'.erase a)
      else Listed l' as' ∧ Given l l' as as' fd a := by
  obtain ⟨a, mid, as', haccept, hmid, hgiven⟩ := acceptClient_spec h hfd hnumber
  obtain ⟨c, hc, hsocket⟩ := hgiven.socket
  let l' := mid.write a { c with ssl := tls.created }
  have hl' : Listed l' as' := by
    refine hmid.write hgiven.mem hc rfl (hmid.unpromised a hgiven.mem c hc) ?_ (hmid.opened a hgiven.mem c hc) ?_
    · exact fun b hb _ => hmid.opened b hb
    · intro hopen b hb hba e he heq
      exact hba (hmid.distinct b hb a hgiven.mem e c he hc (heq ▸ hopen) heq)
  have hcell := write_cell (h := mid.heap) (a := a) (by rw [hc]; rfl) { c with ssl := tls.created }
  have hothers : ∀ b, b ≠ a → l'.heap.cell b = mid.heap.cell b := fun b hb => (hcell b).trans (if_neg hb)
  have hgiven' : Given l l' as as' fd a := by
    refine ⟨hgiven.list, hgiven.mem, hgiven.own, ⟨_, (hcell a).trans (if_pos rfl), hsocket⟩, ?_, ?_⟩
    · intro hne b hb hba e he
      exact hgiven.alone hne b hb hba e ((hothers b hba).symm.trans he)
    · exact fun b hba => (hothers b hba).trans (hgiven.others b hba)
  have hsetup : l.connectionSetup fd tls =
      if ¬ tls.created then .ok (l', -1)
      else if ¬ tls.accepted then (l'.dropClient a).map fun l => (l, 0) else .ok (l', 0) :=
    connectionSetup_eq haccept hc tls
  cases hcreated : tls.created with
  | false =>
    -- the entry stays without an object
    rw [hcreated, if_pos Bool.false_ne_true] at hsetup
    exact ⟨a, mid, l', as', -1, haccept, hmid, hgiven, hsetup, by simpa using ⟨hl', hgiven'⟩⟩
  | true =>
    rw [hcreated, if_neg (not_not.mpr rfl)] at hsetup
    cases haccepted : tls.accepted with
    | true =>
      rw [haccepted, if_neg (not_not.mpr rfl)] at hsetup
      exact ⟨a, mid, l', as', 0, haccept, hmid, hgiven, hsetup, by simpa using ⟨hl', hgiven'⟩⟩
    | false =>
      obtain ⟨l'', hdrop, hl''⟩ := dropClient_spec hl' hgiven.mem ((hcell a).trans (if_pos rfl)) hcreated
      rw [haccepted, if_pos Bool.false_ne_true, hdrop] at hsetup
      exact ⟨a, mid, l'', as', 0, haccept, hmid, hgiven, hsetup, by simpa using hl''⟩

/-- `accept` gives a descriptor that is not open, and clients are dropped and closed while they are listed. -/
def Valid (done : List Call) : Call → Prop
  | .connectionSetup fd _ => ∀ l, run done = .ok l → Accepts l fd
  | .dropClient a => ∀ l as, run done = .ok l → Listed l as → a ∈ as
  | .closeClient a => ∀ l as, run done = .ok l → Listed l as → a ∈ as

/-- A client that is dropped has its OpenSSL object, and a connection an entry to go into or the next number. -/
def Secured (done : List Call) : Call → Prop
  | .connectionSetup _ _ => ∀ l as, run done = .ok l → Listed l as → Numbered l as
  | .dropClient a => ∀ l c, run done = .ok l → l.heap.cell a = some c → c.ssl = true
  | .closeClient _ => True

/-- The list is in order after some calls; if the last was `drop_client`, just that client is gone;
if it was `connection_setup`, the connection was given an entry of its own, and has it still unless
its handshake failed. -/
structure Kept (calls : List Call) : Prop where
  listed : ∃ l as, run calls = .ok l ∧ Listed l as
  dropped : ∀ done a, calls = done ++ [.dropClient a] → ∀ l as, run done = .ok l → Listed l as →
    ∃ l', run calls = .ok l' ∧ Listed l' (as.erase a)
  given : ∀ done fd tls, calls = done ++ [.connectionSetup fd tls] → ∀ l as, run done = .ok l → Listed l as →
    ∃ a mid l' as', l.acceptClient fd = .ok (a, mid) ∧ Listed mid as' ∧ Given l mid as as' fd a ∧
      run calls = .ok l' ∧
      if tls.created ∧ ¬ tls.accepted then Listed l' (as'.erase a) else Listed l' as' ∧ Given l l' as as' fd a

theorem run_append {calls : List Call} (h : run calls = .ok l) (call : Call) : run (calls ++ [call]) = l.step call := by
  unfold run at h ⊢
  rw [List.foldlM_append, h]
  exact bind_pure (l.step call)

theorem kept_nil : Kept [] := by
  refine ⟨⟨{}, [], rfl, listed_empty⟩, ?_, ?_⟩
  · intro done a h
    exact absurd h.symm (List.append_ne_nil_of_right_ne_nil done (List.cons_ne_nil _ []))
  · intro done fd tls h
    exact absurd h.symm (List.append_ne_nil_of_right_ne_nil done (List.cons_ne_nil _ []))

theorem Kept.step {calls : List Call} (h : Kept calls) {call : Call} (hvalid : Valid calls call)
    (hsecured : Secured calls call) : Kept (calls ++ [call]) := by
  obtain ⟨l, as, hrun, hl⟩ := h.listed
  cases call with
  | closeClient a =>
    obtain ⟨l', hclose, hl'⟩ := closeClient_spec hl (hvalid l as hrun hl)
    refine ⟨⟨l', as, (run_append hrun _).trans hclose, hl'⟩, ?_, ?_⟩
    · intro done b heq
      cases List.singleton_inj.mp (List.append_inj' heq rfl).2
    · intro done fd tls heq
      cases List.singleton_inj.mp (List.append_inj' heq rfl).2
  | dropClient a =>
    have hdropped : ∀ as, Listed l as → ∃ l', l.dropClient a = .ok l' ∧ Listed l' (as.erase a) := by
      intro as hl
      have ha := hvalid l as hrun hl
      obtain ⟨c, hc⟩ := hl.exists_cell ha
      exact dropClient_spec hl ha hc (hsecured l c hrun hc)
    obtain ⟨l', hdrop, hl'⟩ := hdropped as hl
    refine ⟨⟨l', as.erase a, (run_append hrun _).trans hdrop, hl'⟩, ?_, ?_⟩
    · intro done b heq l₀ as₀ hrun₀ hl₀
      obtain ⟨rfl, hlast⟩ := List.append_inj' heq rfl
      obtain rfl := Call.dropClient.inj (List.singleton_inj.mp hlast)
      obtain rfl := Except.ok.inj (hrun.symm.trans hrun₀)
      obtain ⟨l', hdrop, hl'⟩ := hdropped as₀ hl₀
      exact ⟨l', (run_append hrun _).trans hdrop, hl'⟩
    · intro done fd tls heq
      cases List.singleton_inj.mp (List.append_inj' heq rfl).2
  | connectionSetup fd tls =>
    have hstep : ∀ {r l'}, l.connectionSetup fd tls = .ok (l', r) →
      run (calls ++ [.connectionSetup fd tls]) = .ok l' := by
      intro r l' hsetup
      rw [run_append hrun]
      change (l.connectionSetup fd tls >>= _) = _
      rw [hsetup]
      rfl
    refine ⟨?_, ?_, ?_⟩
    · obtain ⟨a, mid, l', as', r, -, -, -, hsetup, hafter⟩ :=
        connectionSetup_spec hl (hvalid l hrun) (hsecured l as hrun hl) tls
      split_ifs at hafter
      · exact ⟨l', as'.erase a, hstep hsetup, hafter⟩
      · exact ⟨l', as', hstep hsetup, hafter.1⟩
    · intro done b heq
      cases List.singleton_inj.mp (List.append_inj' heq rfl).2
    · intro done fd' tls' heq l₀ as₀ hrun₀ hl₀
      obtain ⟨rfl, hlast⟩ := List.append_inj' heq rfl
      obtain ⟨rfl, rfl⟩ := Call.connectionSetup.inj (List.singleton_inj.mp hlast)
      obtain rfl := Except.ok.inj (hrun.symm.trans hrun₀)
      obtain ⟨a, mid, l', as', r, haccept, hmid, hgiven, hsetup, hafter⟩ :=
        connectionSetup_spec hl₀ (hvalid l hrun) (hsecured l as₀ hrun hl₀) tls
      exact ⟨a, mid, l', as', haccept, hmid, hgiven, hstep hsetup, hafter⟩

/-- The list is kept through every run of connections, drops and closes in which every client that is
dropped has its OpenSSL object and the numbers of the clients suffice. -/
theorem clients_kept (calls : List Call) (h : Obeys Valid calls) (hsecured : Obeys Secured calls) :
    Throughout Kept calls := by
  have hboth : Obeys (fun done call => Valid done call ∧ Secured done call) calls :=
    fun done call hdone => ⟨h done call hdone, hsecured done call hdone⟩
  exact hboth.throughout kept_nil fun _ _ hkept hguard => hkept.step hguard.1 hguard.2

/-- A connection whose handshake fails, one that is closed, a third that gets its entry, and a fourth that
is dropped before it. -/
def reusing : List Call :=
  [.connectionSetup 5 { accepted := false }, .connectionSetup 5 {}, .closeClient 1, .connectionSetup 6 {},
    .connectionSetup 5 {}, .dropClient 1]

theorem clients_kept_again : Throughout Kept reusing := by
  refine clients_kept reusing ?_ ?_
  · refine (((((obeys_nil.concat ?_).concat ?_).concat ?_).concat ?_).concat ?_).concat ?_
    · rintro l ⟨⟩
      exact .inr ⟨by decide, by decide⟩
    · rintro l ⟨⟩
      exact .inr ⟨by decide, by decide⟩
    · rintro l as ⟨⟩ hl
      exact List.mem_of_mem_head? hl.chain.head_eq.symm
    · rintro l ⟨⟩
      exact .inr ⟨by decide, by decide⟩
    · rintro l ⟨⟩
      exact .inr ⟨by decide, by decide⟩
    · rintro l as ⟨⟩ hl
      obtain rfl : as = [2, 1] := hl.chain.unique ⟨rfl, _, rfl, rfl, _, rfl, rfl⟩
      exact List.mem_cons_of_mem 2 (List.mem_singleton_self 1)
  · refine (((((obeys_nil.concat ?_).concat ?_).concat trivial).concat ?_).concat ?_).concat ?_
    · rintro l as ⟨⟩ -
      exact .inr (by decide)
    · rintro l as ⟨⟩ -
      exact .inr (by decide)
    · rintro l as ⟨⟩ -
      exact .inr (by decide)
    · rintro l as ⟨⟩ -
      exact .inr (by decide)
    · rintro l c ⟨⟩ hc
      obtain rfl := Option.some.inj hc
      rfl

/-- Where OpenSSL has no object for a connection its client is listed all the same, and dropping it reads
through a null pointer. -/
def unsecured : List Call := [.connectionSetup 5 { created := false }, .dropClient 0]

theorem clients_not_kept : Obeys Valid unsecured ∧ run unsecured = .error .undefined ∧ ¬ Throughout Kept unsecured := by
  refine ⟨(obeys_nil.concat ?_).concat ?_, rfl, ?_⟩
  · rintro l ⟨⟩
    exact .inr ⟨by decide, by decide⟩
  · rintro l as ⟨⟩ hl
    exact List.mem_of_mem_head? hl.chain.head_eq.symm
  · intro h
    obtain ⟨⟨l, as, hrun, -⟩, -⟩ := h unsecured List.prefix_rfl
    cases hrun

end Jericho.Server.Clients
