import Jericho.Server.LoopSafety

/-! How long a client of the server loop waits, and how often it is answered. -/
namespace Jericho.Server
open StdText Runs Heap Util Message Crypt Clients

variable {prizm : Prizm} {bio : Base64Filter} {average : List UInt64 → Bytes} {serve : Request → Bifrost → Exec Bifrost}
  {node : Bifrost} {s u : Loop} {as : List Nat} {a : Nat} {c : Entry} {es es' : List LoopEvent}

def LoopEvent.isPass : LoopEvent → Bool
  | .pass _ _ => true
  | .task _ _ => false

/-- A pass in which a connection arrives. -/
def LoopEvent.connects : LoopEvent → Bool
  | .pass p _ => p.accepted.any (·.2.accepted)
  | .task _ _ => false

/-- The clients that are answered. -/
def LoopEvent.answered : LoopEvent → List Nat
  | .pass _ visited => visited.map Prod.fst
  | .task _ _ => []

/-- The socket is set whenever there is a pass. -/
def LoopEvent.Sets (fd : Int) : LoopEvent → Prop
  | .pass p _ => p.ready fd = true
  | .task _ _ => True

theorem isSome_newClient (s : Loop) (p : Pass) (visited : List (Nat × Verdict)) :
    (newClient s p).isSome = (LoopEvent.pass p visited).connects := by
  change (newClient s p).isSome = p.accepted.any fun r => r.2.accepted
  unfold newClient
  cases p.accepted with
  | none => rfl
  | some r =>
    obtain ⟨fd, tls⟩ := r
    cases htls : tls.accepted <;> simp [htls]

/-- A client that waits: it is listed with its socket, and was passed over in these rounds. -/
structure Waiting (as : List Nat) (a : Nat) (fd : Int) (es : List LoopEvent) (u : Loop) : Prop where
  running : ∃ left rs, Run (InterruptedPass.Turn fun v : Verdict => v.ends = true) as rs left ∧ Running u left ∧
    Blank u left ∧ a ∈ left ∧ rs.length = es.countP LoopEvent.isPass ∧
    rs.countP (fun r => r.new.isSome) = es.countP LoopEvent.connects ∧ (∀ r ∈ rs, a ∉ r.new) ∧
    (∀ r ∈ rs, r.ready a) ∧ ∀ r ∈ rs, a ∉ r.served.map Prod.fst
  socket : ∃ c, u.clients.heap.cell a = some c ∧ c.socket = fd

/-- A step in which the client is not answered is a round of the pass over the list, or none. -/
theorem Waiting.step {fd : Int} {e : LoopEvent} {v : Loop} (h : Waiting as a fd es u)
    (hmove : Move prizm bio average serve u e v) (hset : e.Sets fd) (hnot : a ∉ e.answered) :
    Waiting as a fd (es ++ [e]) v := by
  obtain ⟨⟨left, rs, hrun, hu, hblank, hleft, hlength, hcount, hnew, hready, hserved⟩, c, hc, hsocket⟩ := h
  cases e with
  | task b state =>
    obtain ⟨hweb, htask⟩ := hmove
    obtain ⟨l', hl', hrunning, hblank', hframe⟩ := hu.task hblank hweb state
    obtain rfl := Except.ok.inj (htask.symm.trans hl')
    refine ⟨⟨left, rs, hrun, hrunning, hblank', hleft, ?_, ?_, hnew, hready, hserved⟩, ?_⟩
    · simp [List.countP_append, LoopEvent.isPass, hlength]
    · simp [List.countP_append, LoopEvent.connects, hcount]
    · obtain ⟨d, hd⟩ := hrunning.exists_cell hleft
      obtain ⟨d', hd', heq⟩ := hframe.sockets a d hd
      obtain rfl := Option.some.inj (hc.symm.trans hd')
      exact ⟨d, hd, heq.trans hsocket⟩
  | pass p visited =>
    obtain ⟨hp, hpass, hguard⟩ := hmove
    rcases hu.pass hblank hp with ⟨e, he, -⟩ | ⟨visited', left', v', hv', hpassed⟩
    · cases hpass.symm.trans he
    obtain ⟨rfl, rfl⟩ := Prod.mk.inj (Except.ok.inj (hpass.symm.trans hv'))
    obtain ⟨hrunning, hblank'⟩ := hpassed.running hguard
    let r : InterruptedPass.Round Nat Verdict :=
      ⟨newClient u p, Set u p, fun b w => w.stays (u.connections b).websocket = true, visited⟩
    have hleft' : a ∈ left' := hpassed.pass.mem_left (List.mem_append_right _ hleft) hnot
    have hfresh : a ∉ r.new := by
      intro hmem
      have hold : a ≠ u.clients.heap.next := (hu.lt_next hleft).ne
      exact hold (eq_next_of_mem hmem)
    refine ⟨⟨left', rs ++ [r], hrun.snoc hpassed.pass, hrunning, hblank', hleft', ?_, ?_, ?_, ?_, ?_⟩, ?_⟩
    · simp [List.countP_append, LoopEvent.isPass, hlength]
    · rw [List.countP_append, List.countP_append, hcount, List.countP_singleton, List.countP_singleton,
        ← isSome_newClient u p visited]
    · exact List.forall_mem_append.mpr ⟨hnew, fun x hx => (List.mem_singleton.mp hx) ▸ hfresh⟩
    · exact List.forall_mem_append.mpr ⟨hready, fun x hx => (List.mem_singleton.mp hx) ▸ ⟨c, hc, hsocket ▸ hset⟩⟩
    · exact List.forall_mem_append.mpr ⟨hserved, fun x hx => (List.mem_singleton.mp hx) ▸ hnot⟩
    · obtain ⟨d, hd⟩ := hrunning.exists_cell hleft'
      obtain ⟨d', hd', heq⟩ := hpassed.sockets a hleft d hd
      obtain rfl := Option.some.inj (hc.symm.trans hd')
      exact ⟨d, hd, heq.trans hsocket⟩

/-- Who was answered so far: a client that is no web socket at most once, and it is not listed any more. -/
structure Once (es : List LoopEvent) (u : Loop) : Prop where
  running : ∃ left, Running u left ∧ Blank u left ∧
    ∀ a ∈ es.flatMap LoopEvent.answered, (u.connections a).websocket = false → a ∉ left
  old : ∀ a ∈ es.flatMap LoopEvent.answered, a < u.clients.heap.next
  once : ∀ a, (u.connections a).websocket = false → (es.flatMap LoopEvent.answered).count a ≤ 1

theorem Once.step {e : LoopEvent} {v : Loop} (h : Once es u) (hmove : Move prizm bio average serve u e v) :
    Once (es ++ [e]) v := by
  obtain ⟨⟨left, hu, hblank, hgone⟩, hold, honce⟩ := h
  have hanswered : (es ++ [e]).flatMap LoopEvent.answered = es.flatMap LoopEvent.answered ++ e.answered := by simp
  cases e with
  | task b state =>
    obtain ⟨hweb, htask⟩ := hmove
    obtain ⟨l', hl', hrunning, hblank', hframe⟩ := hu.task hblank hweb state
    obtain rfl := Except.ok.inj (htask.symm.trans hl')
    have hsame : (es ++ [LoopEvent.task b state]).flatMap LoopEvent.answered = es.flatMap LoopEvent.answered :=
      hanswered.trans (List.append_nil _)
    rw [← hsame] at hgone hold
    refine ⟨⟨left, hrunning, hblank', hgone⟩, ?_, ?_⟩
    · intro a ha
      dsimp only
      rw [hframe.next]
      exact hold a ha
    · intro a hordinary
      rw [hsame]
      exact honce a hordinary
  | pass p visited =>
    obtain ⟨hp, hpass, hguard⟩ := hmove
    rcases hu.pass hblank hp with ⟨e, he, -⟩ | ⟨visited', left', v', hv', hpassed⟩
    · cases hpass.symm.trans he
    obtain ⟨rfl, rfl⟩ := Prod.mk.inj (Except.ok.inj (hpass.symm.trans hv'))
    obtain ⟨hrunning, hblank'⟩ := hpassed.running hguard
    -- those answered now were listed before
    have hlisted : ∀ a ∈ visited.map Prod.fst, a ∈ left := by
      intro a ha
      obtain ⟨x, hx, rfl⟩ := List.mem_map.mp ha
      obtain ⟨c, hc, -⟩ := hpassed.pass.ready_of_served x hx
      exact mem_of_cell (hpassed.pass.served_sublist.subset ha) hc
    have hordinary' : ∀ a, (v.connections a).websocket = false → (u.connections a).websocket = false := by
      intro a hordinary
      by_contra hweb
      rw [hpassed.flags a (by simpa using hweb)] at hordinary
      cases hordinary
    have hnodup : (visited.map Prod.fst).Nodup := by
      refine hpassed.pass.served_sublist.nodup (List.nodup_append.mpr ⟨?_, hu.listed.nodup, ?_⟩)
      · cases newClient u p with
        | none => exact List.nodup_nil
        | some b => exact List.nodup_singleton b
      · intro b hb d hd
        rw [eq_next_of_mem (Option.mem_toList.mp hb)]
        exact (hu.lt_next hd).ne'
    refine ⟨⟨left', hrunning, hblank', ?_⟩, ?_, ?_⟩
    · intro a ha hordinary
      rw [hanswered] at ha
      rcases List.mem_append.mp ha with hbefore | hnow
      · intro hleft
        rcases List.mem_append.mp (hpassed.pass.left_sublist.subset hleft) with hnew | hleft
        · exact (hold a hbefore).ne (eq_next_of_mem (Option.mem_toList.mp hnew))
        · exact hgone a hbefore (hordinary' a hordinary) hleft
      · obtain ⟨x, hx, rfl⟩ := List.mem_map.mp hnow
        intro hleft
        rw [hpassed.stayed x hx hleft] at hordinary
        cases hordinary
    · intro a ha
      rw [hanswered] at ha
      rcases List.mem_append.mp ha with hbefore | hnow
      · exact (hold a hbefore).trans_le hpassed.next
      · exact (hu.lt_next (hlisted a hnow)).trans_le hpassed.next
    · intro a hordinary
      rw [hanswered, List.count_append]
      by_cases hbefore : a ∈ es.flatMap LoopEvent.answered
      · have hnow : a ∉ visited.map Prod.fst := fun hnow => hgone a hbefore (hordinary' a hordinary) (hlisted a hnow)
        have hzero : (LoopEvent.pass p visited).answered.count a = 0 := List.count_eq_zero_of_not_mem hnow
        rw [hzero]
        exact honce a (hordinary' a hordinary)
      · rw [List.count_eq_zero_of_not_mem hbefore, Nat.zero_add]
        exact List.nodup_iff_count_le_one.mp hnodup a

end Jericho.Server
