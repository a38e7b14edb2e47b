import Jericho.Pool.Wakeups

/-! What becomes of a job. -/
namespace Jericho.Pool
open StdText Runs Ledger

variable {J : Type} {s : Threads J} {acts : List (Act J)} {l : Ledger J}

theorem Kept.not_destroyed (h : Kept acts l s) (hopen : s.pool.shutdown = false) : s.caller ≠ .destroyed := by
  intro hc
  have hawaited := h.awaited
  unfold Awaited at hawaited
  rw [hc] at hawaited
  exact nomatch hopen.symm.trans hawaited.1

theorem Kept.not_destroyed_of_alive (h : Kept acts l s) {i : Nat} {phase : Phase} (hi : s.workers[i]? = some phase)
    (halive : phase.alive = true) : s.caller ≠ .destroyed := by
  intro hc
  have hawaited := h.awaited
  unfold Awaited at hawaited
  rw [hc] at hawaited
  have hpos := h.counted.threads_pos hi halive
  rw [hawaited.2] at hpos
  exact lt_irrefl _ hpos

theorem Kept.append_returns (h : Kept acts l s) (hopen : s.pool.shutdown = false) (job : J) :
    ∃ tpool, s.pool.append job = .ok tpool := by
  have hlinked := h.refines.stored.queue (h.refines.stored.closed.trans hopen)
  unfold ThreadPool.append
  dsimp only
  split
  · exact ⟨_, rfl⟩
  · rename_i worker hhead
    have hne : l.waiting ≠ [] := by
      refine mt (hlinked.chain.eq_nil_iff).mpr ?_
      rw [hhead]
      exact Option.some_ne_none worker
    obtain ⟨as, z, hsplit⟩ := (List.eq_nil_or_concat l.waiting).resolve_left hne
    rw [List.concat_eq_append] at hsplit
    have hz : z ∈ l.waiting := by rw [hsplit]; simp
    have hlt : z < s.pool.heap.next := Heap.lt_next (hlinked.chain.live z hz)
    obtain ⟨w, hw⟩ := Option.isSome_iff_exists.mp (hlinked.chain.live z hz)
    have hread : (s.pool.heap.alloc { job := job }).read s.pool.tail = some w := by
      rw [hlinked.tail_eq, hsplit, List.getLast?_concat]
      exact (Heap.alloc_cell_of_lt hlt _).trans hw
    rw [hread]
    exact ⟨_, rfl⟩

theorem Kept.getWorker_returns (h : Kept acts l s) (hopen : s.pool.shutdown = false) :
    ∃ r, s.pool.getWorker = .ok r := by
  have hchain := (h.refines.stored.queue (h.refines.stored.closed.trans hopen)).chain
  unfold ThreadPool.getWorker
  split
  · exact ⟨_, rfl⟩
  · rename_i worker hhead
    rw [hhead] at hchain
    obtain ⟨a, as, hsplit⟩ := List.exists_cons_of_ne_nil (mt (hchain.eq_nil_iff).mpr (Option.some_ne_none worker))
    rw [hsplit] at hchain
    obtain ⟨hp, w, hw, -⟩ := hchain
    obtain rfl := Option.some.inj hp
    have hread : s.pool.heap.read (some worker) = some w := hw
    rw [hread]
    dsimp only
    split <;> exact ⟨_, rfl⟩

theorem Kept.held_live (h : Kept acts l s) {i worker : Nat}
    (hi : s.workers[i]? = some (.holding worker) ∨ s.workers[i]? = some (.running worker)) :
    ∃ w, s.pool.heap.read (some worker) = some w := by
  refine Option.isSome_iff_exists.mp ((h.refines.stored.live worker).mpr (.inr ⟨i, ?_⟩))
  rw [← h.refines.manned.holding, ← h.refines.manned.running]
  exact hi

theorem locked_returns {α : Type} {act : Exec α} (hc : s.caller ≠ .destroyed) (h : ∃ r, act = .ok r) :
    ∃ r, s.locked act = .ok r := by
  unfold Threads.locked
  rw [if_neg hc]
  exact h

theorem Kept.acquire_returns (h : Kept acts l s) (i : Nat) : ∃ r, s.acquire i = .ok r := by
  unfold Threads.acquire
  split_ifs with hsleep hshut
  · exact ⟨_, rfl⟩
  · exact ⟨_, rfl⟩
  · obtain ⟨⟨worker, tpool⟩, hget⟩ := h.getWorker_returns (by simpa using hshut)
    rw [hget]
    cases worker with
    | none => exact ⟨_, rfl⟩
    | some worker => exact ⟨_, rfl⟩

/-- No step reads a record that was freed, follows a null pointer or touches the freed pool. -/
theorem Kept.returns (h : Kept acts l s) {e : Event J} {x : Exec (Seen J × Threads J)} (hstep : s.step e = some x) :
    ∃ r, x = .ok r := by
  cases e with
  | add job =>
    unfold Threads.step at hstep
    dsimp only at hstep
    split_ifs at hstep with hshut
    obtain rfl := Option.some.inj hstep
    have hopen : s.pool.shutdown = false := by simpa using hshut
    obtain ⟨tpool, hadd⟩ := h.append_returns hopen job
    refine locked_returns (h.not_destroyed hopen) ?_
    unfold Threads.add
    rw [hadd]
    exact ⟨_, rfl⟩
  | acquire i =>
    unfold Threads.step at hstep
    dsimp only at hstep
    split_ifs at hstep with hi
    obtain rfl := Option.some.inj hstep
    exact locked_returns (h.not_destroyed_of_alive hi rfl) (h.acquire_returns i)
  | run i =>
    unfold Threads.step at hstep
    dsimp only at hstep
    split at hstep
    · rename_i worker hi
      obtain rfl := Option.some.inj hstep
      obtain ⟨w, hw⟩ := h.held_live (.inl hi)
      unfold Threads.run
      rw [hw]
      exact ⟨_, rfl⟩
    · cases hstep
  | finish i =>
    unfold Threads.step at hstep
    dsimp only at hstep
    split at hstep
    · rename_i worker hi
      obtain rfl := Option.some.inj hstep
      obtain ⟨w, hw⟩ := h.held_live (.inr hi)
      unfold Threads.finish
      rw [hw]
      exact ⟨_, rfl⟩
    · cases hstep
  | settle i =>
    unfold Threads.step at hstep
    dsimp only at hstep
    split_ifs at hstep with hi
    obtain rfl := Option.some.inj hstep
    exact locked_returns (h.not_destroyed_of_alive hi rfl) ⟨_, rfl⟩
  | destroy =>
    unfold Threads.step at hstep
    dsimp only at hstep
    split_ifs at hstep with hc
    obtain rfl := Option.some.inj hstep
    have hawaited := h.awaited
    unfold Awaited at hawaited
    rw [hc] at hawaited
    obtain ⟨heap, hfree, -⟩ := h.refines.stored.destroy h.accounts hawaited
    unfold Threads.destroy
    rw [hfree]
    exact ⟨_, rfl⟩
  | wake i | wait | check | wakeCaller =>
    unfold Threads.step at hstep
    dsimp only at hstep
    split at hstep
    · obtain rfl := Option.some.inj hstep
      exact ⟨_, rfl⟩
    · cases hstep

/-- A job with no deed yet waits in the queue. -/
def Waits (acts : List (Act J)) (a : Nat) : Prop := a < (added acts).length ∧ deeds acts a = []

theorem Kept.waits_iff (h : Kept acts l s) (a : Nat) : Waits acts a ↔ a ∈ l.waiting := by
  unfold Waits
  rw [h.accounts.deeds, ← h.accounts.jobs, mem_waiting]
  have hstage := h.accounts.stages a
  unfold story
  cases ha : l.stage a with
  | none =>
    rw [ha] at hstage
    have hge : l.taken ≤ a := Nat.not_lt.mp fun hlt => Bool.false_ne_true (hstage.mpr hlt)
    cases hclosed : l.closed with
    | true => simp
    | false => simp [hge]
  | some st =>
    rw [ha] at hstage
    have hlt : a < l.taken := hstage.mp rfl
    have hne : st.story ≠ [] := by cases st <;> exact List.cons_ne_nil _ _
    exact iff_of_false (fun hw => hne hw.2) fun hw => absurd hlt (Nat.not_lt.mpr hw.2.1)

/-- The pool and its jobs, at any time. -/
structure Orderly (acts : List (Act J)) (s : Threads J) : Prop where
  head : s.pool.shutdown = false → (s.pool.head = none ↔ ∀ a, ¬ Waits acts a)
  tail : s.pool.head = none → ∀ tail job, { s.pool with tail := tail }.append job = s.pool.append job
  queue : s.pool.shutdown = false → ∃ queue, queue.Pairwise (· < ·) ∧ (∀ a, a ∈ queue ↔ Waits acts a) ∧
    Heap.Linked Worker.next s.pool.heap s.pool.head s.pool.tail queue
  safe : ∀ e x, s.step e = some x → ∃ r, x = .ok r
  order : takes acts = List.range (takes acts).length
  jobs : ∀ i a job, Act.run i a job ∈ acts → (added acts)[a]? = some job
  deeds : ∀ a, (∃ i, deeds acts a <+: [.taken i, .run i, .released i]) ∨ deeds acts a = [.dropped]
  destroyed : s.caller = .destroyed → s.pool.threadCount = 0 ∧
    (∀ (i : Nat) (phase : Phase), s.workers[i]? = some phase → phase = .exited) ∧
    ∀ a < (added acts).length,
      (∃ i, Ledger.deeds acts a = [.taken i, .run i, .released i]) ∨ Ledger.deeds acts a = [.dropped]

theorem story_isPrefix (st : Stage) : ∃ i, st.story <+: [.taken i, .run i, .released i] := by
  cases st with
  | held i => exact ⟨i, [.run i, .released i], rfl⟩
  | running i => exact ⟨i, [.released i], rfl⟩
  | finished i => exact ⟨i, [], rfl⟩

theorem Kept.orderly (h : Kept acts l s) : Orderly acts s where
  head hopen := by
    have hchain := (h.refines.stored.queue (h.refines.stored.closed.trans hopen)).chain
    rw [hchain.eq_nil_iff, List.eq_nil_iff_forall_not_mem]
    exact forall_congr' fun a => not_congr (h.waits_iff a).symm
  tail hhead tail job := by
    unfold ThreadPool.append
    rw [hhead]
  queue hopen :=
    ⟨l.waiting, l.waiting_sorted, fun a => (h.waits_iff a).symm,
      h.refines.stored.queue (h.refines.stored.closed.trans hopen)⟩
  safe e x hstep := h.returns hstep
  order := by rw [h.accounts.order, List.length_range]
  jobs := h.accounts.runs
  deeds a := by
    rw [h.accounts.deeds]
    unfold story
    cases l.stage a with
    | some st => exact .inl (story_isPrefix st)
    | none =>
      dsimp only
      split_ifs
      · exact .inr rfl
      · exact .inl ⟨0, List.nil_prefix⟩
  destroyed hc := by
    have hawaited := h.awaited
    unfold Awaited at hawaited
    rw [hc] at hawaited
    obtain ⟨hshut, hzero⟩ := hawaited
    have hall : ∀ (i : Nat) (phase : Phase), s.workers[i]? = some phase → phase = .exited := by
      intro i phase hi
      by_contra hne
      have halive : phase.alive = true := by
        cases phase with
        | exited => exact absurd rfl hne
        | ready | asleep | holding | running | done => rfl
      exact h.not_destroyed_of_alive hi halive hc
    refine ⟨hzero, hall, fun a ha => ?_⟩
    rw [h.accounts.deeds]
    unfold story
    cases hstage : l.stage a with
    | none =>
      rw [← h.accounts.jobs] at ha
      exact .inr (if_pos ⟨h.refines.stored.closed.trans hshut, ha⟩)
    | some st =>
      cases st with
      | held i => exact nomatch hall i _ ((h.refines.manned.holding i a).mpr hstage)
      | running i => exact nomatch hall i _ ((h.refines.manned.running i a).mpr hstage)
      | finished i => exact .inl ⟨i, rfl⟩

/-- The queue of the pool. Before the shutdown its head is null exactly if no job waits; a job is
dispatched in its turn, and run and released once by one worker, or it is dropped when the pool is
destroyed; afterwards no thread is left. -/
theorem pool_orderly {num : Nat} {ls : List (Event J × Seen J)} (h : Run Threads.Move (Threads.create num) ls s) :
    Orderly (ls.map actOf) s := by
  obtain ⟨l, hkept⟩ := kept_run h
  exact hkept.orderly

/-- One job is run, and one is dropped. -/
theorem pool_orderly_two :
    ∃ (ls : List (Event Nat × Seen Nat)) (s : Threads Nat), Run Threads.Move (Threads.create 1) ls s ∧
      s.caller = .destroyed ∧ Orderly (ls.map actOf) s := by
  have hrun := Threads.run_schedule (s := Threads.create 1)
    [.add 5, .add 6, .acquire 0, .run 0, .destroy, .finish 0, .settle 0, .check, .acquire 0, .check] rfl
  exact ⟨_, _, hrun, rfl, pool_orderly hrun⟩

/-- After the shutdown the head still points to a record that was freed. -/
theorem pool_head_dangles :
    ∃ (ls : List (Event Nat × Seen Nat)) (s : Threads Nat), Run Threads.Move (Threads.create 1) ls s ∧
      (∀ a, ¬ Waits (ls.map actOf) a) ∧ s.pool.head ≠ none := by
  have hrun := Threads.run_schedule (s := Threads.create 1) [.add 5, .destroy] rfl
  refine ⟨_, _, hrun, ?_, Option.some_ne_none 0⟩
  rintro a ⟨hlt, hnone⟩
  obtain rfl : a = 0 := Nat.lt_one_iff.mp hlt
  revert hnone
  decide

end Jericho.Pool
