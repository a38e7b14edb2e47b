import Jericho.Pool.ThreadPool

/-! What each step of the threads can do. -/
namespace Jericho.Pool
open StdText Runs

variable {J : Type}

namespace Threads

@[simp] theorem goto_pool (s : Threads J) (i : Nat) (phase : Phase) : (s.goto i phase).pool = s.pool := rfl
@[simp] theorem goto_caller (s : Threads J) (i : Nat) (phase : Phase) : (s.goto i phase).caller = s.caller := rfl
@[simp] theorem goto_workers (s : Threads J) (i : Nat) (phase : Phase) :
    (s.goto i phase).workers = s.workers.set i phase := rfl
@[simp] theorem broadcast_pool (s : Threads J) : s.broadcast.pool = s.pool := rfl
@[simp] theorem broadcast_caller (s : Threads J) : s.broadcast.caller = s.caller := rfl
@[simp] theorem broadcast_workers (s : Threads J) : s.broadcast.workers = s.workers.map Phase.wake := rfl

@[simp] theorem signal_pool (s : Threads J) : s.signal.pool = s.pool := by
  unfold signal
  split <;> rfl

@[simp] theorem signal_workers (s : Threads J) : s.signal.workers = s.workers := by
  unfold signal
  split <;> rfl

/-- After a signal nobody sleeps on `working_cond`. -/
theorem signal_caller (s : Threads J) :
    (∃ destroying, s.caller = .asleep destroying ∧ s.signal.caller = .checking destroying) ∨
      (∀ destroying, s.caller ≠ .asleep destroying) ∧ s.signal.caller = s.caller := by
  unfold signal
  cases hc : s.caller with
  | asleep destroying => exact .inl ⟨destroying, rfl, rfl⟩
  | idle | checking | destroyed => exact .inr ⟨fun _ h => (nomatch h), hc⟩

end Threads

/-- The ways a step ends. -/
inductive StepCase (s : Threads J) : Event J → Seen J → Threads J → Prop
  | addFirst {job : J} (hopen : s.pool.shutdown = false) (hhead : s.pool.head = none) :
      StepCase s (.add job) (.added s.pool.heap.next)
        { s with pool := { s.pool with
          heap := s.pool.heap.alloc { job := job }
          head := some s.pool.heap.next
          tail := some s.pool.heap.next } }.broadcast
  | addLast {job : J} {last : Worker J} (hopen : s.pool.shutdown = false) (hhead : s.pool.head ≠ none)
      (hlast : (s.pool.heap.alloc { job := job }).read s.pool.tail = some last) :
      StepCase s (.add job) (.added s.pool.heap.next)
        { s with pool := { s.pool with
          heap := (s.pool.heap.alloc { job := job }).write s.pool.tail { last with next := some s.pool.heap.next }
          tail := some s.pool.heap.next } }.broadcast
  | sleep {i : Nat} (hi : s.workers[i]? = some .ready) (hopen : s.pool.shutdown = false) (hhead : s.pool.head = none) :
      StepCase s (.acquire i) .slept (s.goto i .asleep)
  | leave {i : Nat} (hi : s.workers[i]? = some .ready) (hshut : s.pool.shutdown = true) :
      StepCase s (.acquire i) .left
        ({ s with pool := { s.pool with threadCount := s.pool.threadCount - 1 } }.goto i .exited).signal
  | take {i worker : Nat} {w : Worker J} {tail : Option Nat} (hi : s.workers[i]? = some .ready)
      (hopen : s.pool.shutdown = false) (hhead : s.pool.head = some worker) (hw : s.pool.heap.cell worker = some w)
      (htail : tail = if w.next = none then none else s.pool.tail) :
      StepCase s (.acquire i) (.took worker)
        ({ s with pool := { s.pool with
          head := w.next, tail := tail, workingCount := s.pool.workingCount + 1 } }.goto i (.holding worker))
  | run {i worker : Nat} {w : Worker J} (hi : s.workers[i]? = some (.holding worker))
      (hw : s.pool.heap.cell worker = some w) :
      StepCase s (.run i) (.ran worker w.job) (s.goto i (.running worker))
  | finish {i worker : Nat} (hi : s.workers[i]? = some (.running worker)) (hw : (s.pool.heap.cell worker).isSome) :
      StepCase s (.finish i) (.freed worker)
        ({ s with pool := { s.pool with heap := s.pool.heap.free [some worker] } }.goto i .done)
  | settle {i : Nat} (hi : s.workers[i]? = some .done) : StepCase s (.settle i) .done (s.settle i)
  | wake {i : Nat} (hi : s.workers[i]? = some .asleep) : StepCase s (.wake i) .done (s.goto i .ready)
  | wait (hc : s.caller = .idle) : StepCase s .wait .done { s with caller := .checking false }
  | destroy {freed : List Nat} {heap : Heap (Worker J)} (hc : s.caller = .idle)
      (hfree : ThreadPool.freeChain s.pool.heap.next s.pool.heap s.pool.head = .ok (freed, heap)) :
      StepCase s .destroy (.cleared freed)
        { s with pool := { s.pool with heap := heap, shutdown := true }, caller := .checking true }.broadcast
  | block {destroying : Bool} (hc : s.caller = .checking destroying) (hwaits : s.pool.waits = true) :
      StepCase s .check .slept { s with caller := .asleep destroying }
  | pass {destroying : Bool} (hc : s.caller = .checking destroying) (hwaits : s.pool.waits = false) :
      StepCase s .check (.returned destroying) { s with caller := if destroying then .destroyed else .idle }
  | wakeCaller {destroying : Bool} (hc : s.caller = .asleep destroying) :
      StepCase s .wakeCaller .done { s with caller := .checking destroying }

namespace Threads
variable {s t : Threads J} {seen : Seen J}

theorem locked_eq_ok {α : Type} {act : Exec α} {x : α} (h : s.locked act = .ok x) :
    s.caller ≠ .destroyed ∧ act = .ok x := by
  unfold locked at h
  split_ifs at h with hc
  exact ⟨hc, h⟩

theorem add_spec {job : J} (hopen : s.pool.shutdown = false) (h : s.add job = .ok (seen, t)) :
    StepCase s (.add job) seen t := by
  obtain ⟨pool, hpool, heq⟩ := map_eq_ok.mp h
  obtain ⟨rfl, rfl⟩ := Prod.mk.inj heq
  unfold ThreadPool.append at hpool
  dsimp only at hpool
  split at hpool
  · rename_i hhead
    obtain rfl := Except.ok.inj hpool
    exact .addFirst hopen hhead
  · rename_i worker hhead
    split at hpool
    · cases hpool
    · rename_i last hlast
      obtain rfl := Except.ok.inj hpool
      exact .addLast hopen (by rw [hhead]; exact Option.some_ne_none worker) hlast

theorem getWorker_spec {tpool tpool' : ThreadPool J} {worker : Nat} {r : Option Nat} (hhead : tpool.head = some worker)
    (h : tpool.getWorker = .ok (r, tpool')) :
    ∃ w, tpool.heap.cell worker = some w ∧ r = some worker ∧
      tpool' = { tpool with head := w.next, tail := if w.next = none then none else tpool.tail } := by
  unfold ThreadPool.getWorker at h
  rw [hhead] at h
  dsimp only at h
  cases hw : tpool.heap.read (some worker) with
  | none =>
    rw [hw] at h
    cases h
  | some w =>
    rw [hw] at h
    dsimp only at h
    refine ⟨w, hw, ?_⟩
    cases hnext : w.next with
    | none =>
      rw [hnext] at h
      obtain ⟨rfl, rfl⟩ := Prod.mk.inj (Except.ok.inj h)
      exact ⟨rfl, rfl⟩
    | some next =>
      rw [hnext] at h
      obtain ⟨rfl, rfl⟩ := Prod.mk.inj (Except.ok.inj h)
      exact ⟨rfl, rfl⟩

theorem acquire_spec {i : Nat} (hi : s.workers[i]? = some .ready) (h : s.acquire i = .ok (seen, t)) :
    StepCase s (.acquire i) seen t := by
  unfold acquire at h
  split_ifs at h with hsleep hshut
  · obtain ⟨rfl, rfl⟩ := Prod.mk.inj (Except.ok.inj h)
    exact .sleep hi hsleep.2 hsleep.1
  · obtain ⟨rfl, rfl⟩ := Prod.mk.inj (Except.ok.inj h)
    exact .leave hi hshut
  · have hopen : s.pool.shutdown = false := by simpa using hshut
    obtain ⟨worker, hhead⟩ := Option.ne_none_iff_exists'.mp fun hnone => hsleep ⟨hnone, hopen⟩
    obtain ⟨⟨r, pool⟩, hget, h⟩ := bind_eq_ok.mp h
    obtain ⟨w, hw, rfl, rfl⟩ := getWorker_spec hhead hget
    obtain ⟨rfl, rfl⟩ := Prod.mk.inj (Except.ok.inj h)
    exact .take hi hopen hhead hw rfl

theorem step_spec {e : Event J} (h : s.step e = some (.ok (seen, t))) : StepCase s e seen t := by
  cases e with
  | add job =>
    unfold step at h
    dsimp only at h
    split_ifs at h with hshut
    obtain ⟨-, h⟩ := locked_eq_ok (Option.some.inj h)
    exact add_spec (by simpa using hshut) h
  | acquire i =>
    unfold step at h
    dsimp only at h
    split_ifs at h with hi
    obtain ⟨-, h⟩ := locked_eq_ok (Option.some.inj h)
    exact acquire_spec hi h
  | run i =>
    unfold step at h
    dsimp only at h
    split at h
    · rename_i worker hi
      unfold Threads.run at h
      cases hw : s.pool.heap.read (some worker) with
      | none => rw [hw] at h; cases h
      | some w =>
        rw [hw] at h
        obtain ⟨rfl, rfl⟩ := Prod.mk.inj (Except.ok.inj (Option.some.inj h))
        exact .run hi hw
    · cases h
  | finish i =>
    unfold step at h
    dsimp only at h
    split at h
    · rename_i worker hi
      unfold Threads.finish at h
      cases hw : s.pool.heap.read (some worker) with
      | none => rw [hw] at h; cases h
      | some w =>
        rw [hw] at h
        obtain ⟨rfl, rfl⟩ := Prod.mk.inj (Except.ok.inj (Option.some.inj h))
        exact .finish hi (Option.isSome_iff_exists.mpr ⟨w, hw⟩)
    · cases h
  | settle i =>
    unfold step at h
    dsimp only at h
    split_ifs at h with hi
    obtain ⟨-, h⟩ := locked_eq_ok (Option.some.inj h)
    obtain ⟨rfl, rfl⟩ := Prod.mk.inj (Except.ok.inj h)
    exact .settle hi
  | wake i =>
    unfold step at h
    dsimp only at h
    split_ifs at h with hi
    obtain ⟨rfl, rfl⟩ := Prod.mk.inj (Except.ok.inj (Option.some.inj h))
    exact .wake hi
  | wait =>
    unfold step at h
    dsimp only at h
    split_ifs at h with hc
    obtain ⟨rfl, rfl⟩ := Prod.mk.inj (Except.ok.inj (Option.some.inj h))
    exact .wait hc
  | destroy =>
    unfold step at h
    dsimp only at h
    split_ifs at h with hc
    obtain ⟨⟨freed, heap⟩, hfree, heq⟩ := map_eq_ok.mp (Option.some.inj h)
    obtain ⟨rfl, rfl⟩ := Prod.mk.inj heq
    exact .destroy hc hfree
  | check =>
    unfold step at h
    dsimp only at h
    split at h
    · rename_i destroying hc
      unfold check at h
      cases hwaits : s.pool.waits with
      | true =>
        rw [hwaits] at h
        obtain ⟨rfl, rfl⟩ := Prod.mk.inj (Except.ok.inj (Option.some.inj h))
        exact .block hc hwaits
      | false =>
        rw [hwaits] at h
        obtain ⟨rfl, rfl⟩ := Prod.mk.inj (Except.ok.inj (Option.some.inj h))
        exact .pass hc hwaits
    · cases h
  | wakeCaller =>
    unfold step at h
    dsimp only at h
    split at h
    · rename_i destroying hc
      obtain ⟨rfl, rfl⟩ := Prod.mk.inj (Except.ok.inj (Option.some.inj h))
      exact .wakeCaller hc
    · cases h

end Threads
end Jericho.Pool
