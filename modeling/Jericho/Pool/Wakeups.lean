import Jericho.Pool.Refinement

/-! Who sleeps on the two condition variables, and what the two counters count. -/
namespace Jericho.Pool
open StdText Runs Ledger

variable {J : Type}

/-- A thread between its two sections. -/
def Phase.busy : Phase → Bool
  | .holding _ | .running _ | .done => true
  | _ => false

/-- A thread that did not end. -/
def Phase.alive : Phase → Bool
  | .exited => false
  | _ => true

structure Counted (s : Threads J) : Prop where
  working : s.pool.workingCount = s.workers.countP Phase.busy
  threads : s.pool.threadCount = s.workers.countP Phase.alive

/-- A thread sleeps while the pool is open and empty, and ends after it was shut down. -/
structure Rested (s : Threads J) : Prop where
  asleep : ∀ i : Nat, s.workers[i]? = some Phase.asleep → s.pool.shutdown = false ∧ s.pool.head = none
  exited : ∀ i : Nat, s.workers[i]? = some Phase.exited → s.pool.shutdown = true

/-- The caller sleeps while something is left to wait for. -/
def Awaited (s : Threads J) : Prop :=
  match s.caller with
  | .idle => s.pool.shutdown = false
  | .checking destroying => s.pool.shutdown = destroying
  | .asleep destroying => s.pool.shutdown = destroying ∧
    if destroying then s.pool.threadCount ≠ 0 else s.pool.workingCount ≠ 0 ∨ s.pool.head ≠ none
  | .destroyed => s.pool.shutdown = true ∧ s.pool.threadCount = 0

/-- One thread that changes its phase changes a count by its own part. -/
theorem countP_set {workers : List Phase} {i : Nat} {phase : Phase} (hi : workers[i]? = some phase) (p : Phase → Bool)
    (phase' : Phase) :
    (workers.set i phase').countP p + (p phase).toNat = workers.countP p + (p phase').toNat := by
  obtain ⟨hlen, hget⟩ := List.getElem?_eq_some_iff.mp hi
  have hpos : (p phase).toNat ≤ workers.countP p := by
    cases hp : p phase with
    | false => exact Nat.zero_le _
    | true => exact List.countP_pos_iff.mpr ⟨phase, List.mem_of_getElem? hi, hp⟩
  rw [List.countP_set hlen, hget]
  cases hp : p phase <;> cases p phase' <;> rw [hp] at hpos <;>
    simp only [Bool.toNat_true, Bool.toNat_false, Bool.false_eq_true, if_true, if_false] at hpos ⊢ <;> omega

theorem countP_wake {p : Phase → Bool} (hp : p .asleep = p .ready) (workers : List Phase) :
    (workers.map Phase.wake).countP p = workers.countP p := by
  rw [List.countP_map]
  refine List.countP_congr fun phase _ => ?_
  cases phase with
  | asleep => exact iff_of_eq (congrArg (· = true) hp.symm)
  | ready | holding | running | done | exited => exact Iff.rfl

variable {s t : Threads J} {i : Nat} {phase : Phase}

theorem Counted.goto (h : Counted s) (hi : s.workers[i]? = some phase) {phase' : Phase} {tpool : ThreadPool J}
    (hworking : tpool.workingCount + phase.busy.toNat = s.pool.workingCount + phase'.busy.toNat)
    (hthreads : tpool.threadCount + phase.alive.toNat = s.pool.threadCount + phase'.alive.toNat) :
    Counted ({ s with pool := tpool }.goto i phase') where
  working := by
    have hcount := countP_set hi Phase.busy phase'
    rw [← h.working, ← hworking] at hcount
    exact (Nat.add_right_cancel hcount).symm
  threads := by
    have hcount := countP_set hi Phase.alive phase'
    rw [← h.threads, ← hthreads] at hcount
    exact (Nat.add_right_cancel hcount).symm

theorem Counted.signal (h : Counted s) : Counted s.signal where
  working := by
    rw [Threads.signal_pool, Threads.signal_workers]
    exact h.working
  threads := by
    rw [Threads.signal_pool, Threads.signal_workers]
    exact h.threads

theorem Counted.working_pos (h : Counted s) (hi : s.workers[i]? = some phase) (hbusy : phase.busy = true) :
    0 < s.pool.workingCount := by
  rw [h.working]
  exact List.countP_pos_iff.mpr ⟨phase, List.mem_of_getElem? hi, hbusy⟩

theorem Counted.threads_pos (h : Counted s) (hi : s.workers[i]? = some phase) (halive : phase.alive = true) :
    0 < s.pool.threadCount := by
  rw [h.threads]
  exact List.countP_pos_iff.mpr ⟨phase, List.mem_of_getElem? hi, halive⟩

theorem Counted.step {e : Event J} {seen : Seen J} (h : Counted s) (hstep : StepCase s e seen t) : Counted t := by
  have hwake : Counted s.broadcast :=
    ⟨h.working.trans (countP_wake rfl _).symm, h.threads.trans (countP_wake rfl _).symm⟩
  cases hstep with
  | addFirst | addLast | destroy => exact ⟨hwake.working, hwake.threads⟩
  | sleep hi | run hi | finish hi | wake hi => exact h.goto hi rfl rfl
  | @leave i hi hshut =>
    have hplain : Counted (({ s with pool := { s.pool with
        threadCount := s.pool.threadCount - 1 } } : Threads J).goto i .exited) :=
      h.goto hi rfl (Nat.sub_add_cancel (h.threads_pos hi rfl))
    exact hplain.signal
  | take hi => exact h.goto hi rfl rfl
  | @settle i hi =>
    have hplain : Counted (({ s with pool := { s.pool with
        workingCount := s.pool.workingCount - 1 } } : Threads J).goto i .ready) :=
      h.goto hi (Nat.sub_add_cancel (h.working_pos hi rfl)) rfl
    unfold Threads.settle
    dsimp only
    split_ifs
    · exact hplain.signal
    · exact hplain
  | wait | block | pass | wakeCaller => exact ⟨h.working, h.threads⟩

theorem getElem?_set_cases {workers : List Phase} {j : Nat} {phase' p : Phase}
    (h : (workers.set i phase')[j]? = some p) : p = phase' ∨ workers[j]? = some p := by
  rw [List.getElem?_set] at h
  by_cases hj : i = j
  · rw [if_pos hj] at h
    split_ifs at h
    exact .inl (Option.some.inj h).symm
  · rw [if_neg hj] at h
    exact .inr h

theorem Rested.goto (h : Rested s) {phase' : Phase} {tpool : ThreadPool J} (hshut : tpool.shutdown = s.pool.shutdown)
    (hasleep : phase' = .asleep → s.pool.shutdown = false ∧ tpool.head = none)
    (hexited : phase' = .exited → s.pool.shutdown = true) (hhead : s.pool.head = none → tpool.head = none) :
    Rested ({ s with pool := tpool }.goto i phase') where
  asleep j hj := by
    rw [Threads.goto_pool, hshut]
    rcases getElem?_set_cases hj with heq | hj
    · exact hasleep heq.symm
    · obtain ⟨hopen, hnone⟩ := h.asleep j hj
      exact ⟨hopen, hhead hnone⟩
  exited j hj := by
    rw [Threads.goto_pool, hshut]
    rcases getElem?_set_cases hj with heq | hj
    · exact hexited heq.symm
    · exact h.exited j hj

theorem Rested.wake (h : Rested s) {u : Threads J} (hworkers : u.workers = s.workers)
    (hshut : s.pool.shutdown = true → u.pool.shutdown = true) : Rested u.broadcast where
  asleep j hj := by
    rw [Threads.broadcast_workers, List.getElem?_map] at hj
    obtain ⟨p, -, hp⟩ := Option.map_eq_some_iff.mp hj
    cases p <;> cases hp
  exited j hj := by
    rw [Threads.broadcast_workers, List.getElem?_map, hworkers] at hj
    obtain ⟨p, hget, hp⟩ := Option.map_eq_some_iff.mp hj
    cases p with
    | exited => exact hshut (h.exited j hget)
    | ready | asleep | holding | running | done => cases hp

theorem Rested.signal (h : Rested s) : Rested s.signal where
  asleep := by
    rw [Threads.signal_workers, Threads.signal_pool]
    exact h.asleep
  exited := by
    rw [Threads.signal_workers, Threads.signal_pool]
    exact h.exited

theorem Rested.step {e : Event J} {seen : Seen J} (h : Rested s) (hstep : StepCase s e seen t) : Rested t := by
  cases hstep with
  | addFirst | addLast => exact h.wake rfl id
  | destroy => exact h.wake rfl fun _ => rfl
  | sleep hi hopen hhead => exact h.goto rfl (fun _ => ⟨hopen, hhead⟩) (fun heq => (nomatch heq)) id
  | leave hi hshut =>
    refine Rested.signal ?_
    exact h.goto rfl (fun heq => (nomatch heq)) (fun _ => hshut) id
  | take hi hopen hhead hw htail =>
    exact h.goto rfl (fun heq => (nomatch heq)) (fun heq => (nomatch heq)) fun hnone => (nomatch hhead.symm.trans hnone)
  | run hi | finish hi | wake hi => exact h.goto rfl (fun heq => (nomatch heq)) (fun heq => (nomatch heq)) id
  | @settle i hi =>
    have hplain : Rested (({ s with pool := { s.pool with
        workingCount := s.pool.workingCount - 1 } } : Threads J).goto i .ready) :=
      h.goto rfl (fun heq => (nomatch heq)) (fun heq => (nomatch heq)) id
    unfold Threads.settle
    dsimp only
    split_ifs
    · exact hplain.signal
    · exact hplain
  | wait | block | pass | wakeCaller => exact ⟨h.asleep, h.exited⟩

/-- A step of another thread that leaves the caller something to wait for. -/
theorem Awaited.of_keep (h : Awaited s) (hcaller : t.caller = s.caller) (hshut : t.pool.shutdown = s.pool.shutdown)
    (hthreads : t.pool.threadCount = s.pool.threadCount)
    (hkeep : t.pool.shutdown = false → s.pool.workingCount ≠ 0 ∨ s.pool.head ≠ none →
      t.pool.workingCount ≠ 0 ∨ t.pool.head ≠ none) : Awaited t := by
  unfold Awaited at h ⊢
  rw [hcaller, hshut, hthreads]
  rw [hshut] at hkeep
  cases hc : s.caller with
  | idle | checking | destroyed =>
    rw [hc] at h
    exact h
  | asleep destroying =>
    rw [hc] at h
    cases destroying with
    | true => exact h
    | false => exact ⟨h.1, hkeep h.1 h.2⟩

/-- A step that wakes the caller. -/
theorem Awaited.of_signal (h : Awaited s) {u : Threads J} (hcaller : u.caller = s.caller)
    (hshut : u.pool.shutdown = s.pool.shutdown) (hthreads : s.pool.threadCount = 0 → u.pool.threadCount = 0) :
    Awaited u.signal := by
  unfold Awaited at h ⊢
  rw [Threads.signal_pool, hshut]
  rcases u.signal_caller with ⟨destroying, hasleep, hcheck⟩ | ⟨hawake, hsame⟩
  · rw [hcaller] at hasleep
    rw [hasleep] at h
    rw [hcheck]
    exact h.1
  · rw [hsame, hcaller]
    rw [hcaller] at hawake
    cases hc : s.caller with
    | idle | checking =>
      rw [hc] at h
      exact h
    | asleep destroying => exact absurd hc (hawake destroying)
    | destroyed =>
      rw [hc] at h
      exact ⟨h.1, hthreads h.2⟩

theorem Awaited.step {e : Event J} {seen : Seen J} (h : Awaited s) (hstep : StepCase s e seen t) : Awaited t := by
  cases hstep with
  | addFirst hopen hhead => exact h.of_keep rfl rfl rfl fun _ _ => .inr (Option.some_ne_none _)
  | addLast | sleep | run | finish | wake => exact h.of_keep rfl rfl rfl fun _ hkeep => hkeep
  | leave hi hshut =>
    refine h.of_signal rfl rfl fun hzero => ?_
    rw [Threads.goto_pool, hzero]
  | take => exact h.of_keep rfl rfl rfl fun _ _ => .inl (Nat.succ_ne_zero _)
  | settle hi =>
    unfold Threads.settle
    dsimp only
    split_ifs with hdrained
    · exact h.of_signal rfl rfl id
    · refine h.of_keep rfl rfl rfl fun hopen _ => ?_
      by_contra hnone
      rw [not_or, not_not, not_not] at hnone
      exact hdrained ⟨hopen, hnone⟩
  | wait hc =>
    unfold Awaited at h ⊢
    rw [hc] at h
    exact h
  | destroy => rfl
  | @block destroying hc hwaits =>
    unfold Awaited at h ⊢
    rw [hc] at h
    have hshut : s.pool.shutdown = destroying := h
    refine ⟨hshut, ?_⟩
    unfold ThreadPool.waits at hwaits
    rw [hshut] at hwaits
    cases destroying with
    | true => simpa using hwaits
    | false => exact .inl (by simpa using hwaits)
  | @pass destroying hc hwaits =>
    unfold Awaited at h ⊢
    rw [hc] at h
    have hshut : s.pool.shutdown = destroying := h
    unfold ThreadPool.waits at hwaits
    rw [hshut] at hwaits
    cases destroying with
    | true => exact ⟨hshut, by simpa using hwaits⟩
    | false => exact hshut
  | wakeCaller hc =>
    unfold Awaited at h ⊢
    rw [hc] at h
    exact h.1

/-- What every run keeps. -/
structure Kept (acts : List (Act J)) (l : Ledger J) (s : Threads J) : Prop where
  accounts : Accounts acts l
  refines : Refines l s
  counted : Counted s
  rested : Rested s
  awaited : Awaited s

theorem kept_create (num : Nat) : Kept [] {} (Threads.create (J := J) num) where
  accounts := accounts_empty
  refines :=
    { stored :=
        { alloc := rfl
          closed := rfl
          queue := fun _ => ⟨rfl, rfl⟩
          live := fun a => by simp [Threads.create, ThreadPool.create, Heap.empty, Ledger.Kept, waiting]
          jobs := fun a w hw => nomatch hw }
      manned :=
        { holding := fun i a => by simp [Threads.create, List.getElem?_replicate]
          running := fun i a => by simp [Threads.create, List.getElem?_replicate] } }
  counted := by
    refine ⟨?_, ?_⟩
    · exact (List.countP_replicate (p := Phase.busy) (a := Phase.ready)).symm
    · exact (List.countP_replicate (p := Phase.alive) (a := Phase.ready)).symm
  rested := ⟨fun i hi => by simp [Threads.create, List.getElem?_replicate] at hi, fun i hi => by
    simp [Threads.create, List.getElem?_replicate] at hi⟩
  awaited := rfl

theorem Kept.advance {acts : List (Act J)} {l : Ledger J} {e : Event J} {seen : Seen J} (h : Kept acts l s)
    (hmove : s.Move (e, seen) t) : ∃ l', Step l (actOf (e, seen)) l' ∧ Kept (acts ++ [actOf (e, seen)]) l' t := by
  have hcase := Threads.step_spec hmove
  have hidle : s.caller = .idle → s.pool.shutdown = false := by
    intro hc
    have hawaited := h.awaited
    unfold Awaited at hawaited
    rwa [hc] at hawaited
  obtain ⟨l', hstep, hrefines⟩ := h.refines.step h.accounts hidle hcase
  exact ⟨l', hstep, h.accounts.step hstep, hrefines, h.counted.step hcase, h.rested.step hcase, h.awaited.step hcase⟩

theorem kept_run {num : Nat} {ls : List (Event J × Seen J)} (h : Run Threads.Move (Threads.create num) ls s) :
    ∃ l, Kept (ls.map actOf) l s := by
  refine Run.history (P := fun ls s => ∃ l, Kept (ls.map actOf) l s) ?_ ⟨{}, kept_create num⟩ h
  rintro ls t ⟨e, seen⟩ u ⟨l, hkept⟩ hmove
  obtain ⟨l', -, hkept'⟩ := hkept.advance hmove
  rw [List.map_append]
  exact ⟨l', hkept'⟩

/-- A record that the links from the head lead to. -/
def Queued (s : Threads J) (worker : Nat) : Prop :=
  ∃ workers, Heap.Chain Worker.next s.pool.heap s.pool.head workers ∧ worker ∈ workers

theorem Kept.queued_iff {acts : List (Act J)} {l : Ledger J} (h : Kept acts l s) (hopen : s.pool.shutdown = false)
    (a : Nat) : Queued s a ↔ a ∈ l.waiting := by
  have hchain := (h.refines.stored.queue (h.refines.stored.closed.trans hopen)).chain
  constructor
  · rintro ⟨workers, hworkers, hmem⟩
    rwa [hworkers.unique hchain] at hmem
  · exact fun hmem => ⟨l.waiting, hchain, hmem⟩

theorem Kept.exists_queued {acts : List (Act J)} {l : Ledger J} (h : Kept acts l s) (hopen : s.pool.shutdown = false)
    (hhead : s.pool.head ≠ none) : ∃ a, Queued s a := by
  have hchain := (h.refines.stored.queue (h.refines.stored.closed.trans hopen)).chain
  obtain ⟨a, hmem⟩ := List.exists_mem_of_ne_nil _ (mt (hchain.eq_nil_iff).mpr hhead)
  exact ⟨a, l.waiting, hchain, hmem⟩

/-- No wake-up is lost: nobody sleeps on `worker_cond` with a job queued or after the shutdown, and
the caller sleeps only while something is left to wait for. -/
theorem no_lost_wakeup {num : Nat} {ls : List (Event J × Seen J)}
    (h : Run Threads.Move (Threads.create num) ls s) :
    (s.pool.shutdown = false → (∃ worker, Queued s worker) → ∀ i : Nat, s.workers[i]? ≠ some Phase.asleep) ∧
    (s.pool.shutdown = true → ∀ i : Nat, s.workers[i]? ≠ some Phase.asleep) ∧
    ∀ destroying, s.caller = .asleep destroying →
      s.pool.workingCount ≠ 0 ∨ (∃ worker, Queued s worker) ∨ s.pool.shutdown = true ∧ s.pool.threadCount ≠ 0 := by
  obtain ⟨l, hkept⟩ := kept_run h
  refine ⟨?_, ?_, ?_⟩
  · rintro - ⟨worker, workers, hchain, hmem⟩ i hi
    have hnone := (hkept.rested.asleep i hi).2
    rw [(hchain.eq_nil_iff).mp hnone] at hmem
    exact absurd hmem List.not_mem_nil
  · intro hshut i hi
    exact nomatch hshut.symm.trans (hkept.rested.asleep i hi).1
  · intro destroying hc
    have hawaited := hkept.awaited
    unfold Awaited at hawaited
    rw [hc] at hawaited
    obtain ⟨hshut, hleft⟩ := hawaited
    cases destroying with
    | true => exact .inr (.inr ⟨hshut, hleft⟩)
    | false => exact hleft.imp_right fun hhead => .inl (hkept.exists_queued hshut hhead)

/-- A worker falls asleep, and an added job wakes it. -/
theorem no_lost_wakeup_added :
    ∃ (ls : List (Event Unit × Seen Unit)) (s : Threads Unit), Run Threads.Move (Threads.create 1) ls s ∧
      Queued s 0 ∧ ∀ i : Nat, s.workers[i]? ≠ some Phase.asleep := by
  have hrun := Threads.run_schedule (s := Threads.create 1) [.acquire 0, .add ()] rfl
  refine ⟨_, _, hrun, ?_, (no_lost_wakeup hrun).1 rfl ⟨0, ?_⟩⟩
  · exact ⟨[0], ⟨rfl, _, rfl, rfl⟩, List.mem_singleton_self 0⟩
  · exact ⟨[0], ⟨rfl, _, rfl, rfl⟩, List.mem_singleton_self 0⟩

end Jericho.Pool
