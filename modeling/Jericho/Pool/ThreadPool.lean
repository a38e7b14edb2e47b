import Jericho.Library.LinkedQueue
import Jericho.Library.Runs
import Jericho.Library.StdText

/-! The thread pool: the queue of job records, what the threads of the pool do with it, and the
thread that waits for them or destroys it. A section under the mutex is one step. -/
namespace Jericho.Pool
open StdText Runs

/-- The record of a job: the function with its argument, and the next record. -/
structure Worker (J : Type) where
  job : J
  next : Option Nat := none

structure ThreadPool (J : Type) where
  head : Option Nat := none
  tail : Option Nat := none
  heap : Heap (Worker J) := Heap.empty
  workingCount : Nat := 0
  threadCount : Nat
  shutdown : Bool := false

variable {J : Type}

namespace ThreadPool

/-- `thread_pool_create` -/
def create (num : Nat) : ThreadPool J := { threadCount := if num = 0 then 2 else num }

/-- `get_worker` -/
def getWorker (tpool : ThreadPool J) : Exec (Option Nat × ThreadPool J) :=
  match tpool.head with
  | none => .ok (none, tpool)
  | some worker =>
    match tpool.heap.read (some worker) with
    | none => .error .undefined
    | some w =>
      match w.next with
      | none => .ok (some worker, { tpool with head := none, tail := none })
      | some next => .ok (some worker, { tpool with head := some next })

/-- The new record of `thread_pool_add` goes behind the tail. -/
def append (tpool : ThreadPool J) (job : J) : Exec (ThreadPool J) :=
  let worker := tpool.heap.next
  let heap := tpool.heap.alloc { job := job }
  match tpool.head with
  | none => .ok { tpool with heap := heap, head := some worker, tail := some worker }
  | some _ =>
    match heap.read tpool.tail with
    | none => .error .undefined
    | some last =>
      .ok { tpool with heap := heap.write tpool.tail { last with next := some worker }, tail := some worker }

/-- The loop of `thread_pool_destroy`; the records it frees. It never makes more rounds than
there are records. -/
def freeChain : Nat → Heap (Worker J) → Option Nat → Exec (List Nat × Heap (Worker J))
  | _, heap, none => .ok ([], heap)
  | 0, _, some _ => .error .undefined
  | rounds + 1, heap, some worker =>
    match heap.read (some worker) with
    | none => .error .undefined
    | some w => (freeChain rounds (heap.free [some worker]) w.next).map fun r => (worker :: r.1, r.2)

/-- The condition on which `thread_pool_wait` goes to sleep. -/
def waits (tpool : ThreadPool J) : Bool :=
  !tpool.shutdown && tpool.workingCount ≠ 0 || tpool.shutdown && tpool.threadCount ≠ 0

end ThreadPool

/-- Where a thread stands in `work`: before its first section or asleep in it, with a record that
it took, in the job of the record, before its second section, or at its end. -/
inductive Phase where
  | ready
  | asleep
  | holding (worker : Nat)
  | running (worker : Nat)
  | done
  | exited
  deriving DecidableEq

/-- The thread that calls `thread_pool_wait`, by itself or as the end of `thread_pool_destroy`. -/
inductive Caller where
  | idle
  | checking (destroying : Bool)
  | asleep (destroying : Bool)
  | destroyed
  deriving DecidableEq

/-- The pool with its threads. -/
structure Threads (J : Type) where
  pool : ThreadPool J
  workers : List Phase
  caller : Caller := .idle

/-- Steps of the threads. A condition variable may wake a thread for no reason. -/
inductive Event (J : Type) where
  | add (job : J)
  | acquire (i : Nat)
  | run (i : Nat)
  | finish (i : Nat)
  | settle (i : Nat)
  | wake (i : Nat)
  | wait
  | destroy
  | check
  | wakeCaller

/-- What a step did. -/
inductive Seen (J : Type) where
  | done
  | added (worker : Nat)
  | slept
  | left
  | took (worker : Nat)
  | ran (worker : Nat) (job : J)
  | freed (worker : Nat)
  | cleared (workers : List Nat)
  | returned (destroying : Bool)

def Phase.wake : Phase → Phase
  | .asleep => .ready
  | phase => phase

namespace Threads

def create (num : Nat) : Threads J :=
  { pool := .create num, workers := List.replicate (ThreadPool.create (J := J) num).threadCount .ready }

def goto (s : Threads J) (i : Nat) (phase : Phase) : Threads J := { s with workers := s.workers.set i phase }

/-- `pthread_cond_broadcast` on `worker_cond` -/
def broadcast (s : Threads J) : Threads J := { s with workers := s.workers.map Phase.wake }

/-- `pthread_cond_signal` on `working_cond` -/
def signal (s : Threads J) : Threads J :=
  match s.caller with
  | .asleep destroying => { s with caller := .checking destroying }
  | _ => s

/-- The first section of `work`. -/
def acquire (s : Threads J) (i : Nat) : Exec (Seen J × Threads J) :=
  if s.pool.head = none ∧ s.pool.shutdown = false then .ok (.slept, s.goto i .asleep)
  else if s.pool.shutdown then
    .ok (.left, ({ s with pool := { s.pool with threadCount := s.pool.threadCount - 1 } }.goto i .exited).signal)
  else do
    let (worker, pool) ← s.pool.getWorker
    let s := { s with pool := { pool with workingCount := pool.workingCount + 1 } }
    match worker with
    | some worker => return (.took worker, s.goto i (.holding worker))
    | none => return (.done, s.goto i .done)

/-- `worker->fn(worker->arg)` -/
def run (s : Threads J) (i worker : Nat) : Exec (Seen J × Threads J) :=
  match s.pool.heap.read (some worker) with
  | none => .error .undefined
  | some w => .ok (.ran worker w.job, s.goto i (.running worker))

/-- `worker_destroy` -/
def finish (s : Threads J) (i worker : Nat) : Exec (Seen J × Threads J) :=
  match s.pool.heap.read (some worker) with
  | none => .error .undefined
  | some _ =>
    .ok (.freed worker,
      { s with pool := { s.pool with heap := s.pool.heap.free [some worker] } }.goto i .done)

/-- The second section of `work`. -/
def settle (s : Threads J) (i : Nat) : Threads J :=
  let s := { s with pool := { s.pool with workingCount := s.pool.workingCount - 1 } }.goto i .ready
  if s.pool.shutdown = false ∧ s.pool.workingCount = 0 ∧ s.pool.head = none then s.signal else s

/-- `thread_pool_add` -/
def add (s : Threads J) (job : J) : Exec (Seen J × Threads J) :=
  (s.pool.append job).map fun pool => (.added s.pool.heap.next, { s with pool := pool }.broadcast)

/-- The section of `thread_pool_destroy`. The head stays as it was. -/
def destroy (s : Threads J) : Exec (Seen J × Threads J) :=
  (ThreadPool.freeChain s.pool.heap.next s.pool.heap s.pool.head).map fun r =>
    (.cleared r.1, { s with pool := { s.pool with heap := r.2, shutdown := true }, caller := .checking true }.broadcast)

/-- A round of `thread_pool_wait`. At the end of `thread_pool_destroy` the pool is freed. -/
def check (s : Threads J) (destroying : Bool) : Seen J × Threads J :=
  if s.pool.waits then (.slept, { s with caller := .asleep destroying })
  else (.returned destroying, { s with caller := if destroying then .destroyed else .idle })

/-- A section needs the pool. -/
def locked {α : Type} (s : Threads J) (act : Exec α) : Exec α :=
  if s.caller = .destroyed then .error .undefined else act

/-- The next step of a thread, if it is at such a step. Jobs are added before the pool is
destroyed. -/
def step (s : Threads J) : Event J → Option (Exec (Seen J × Threads J))
  | .add job => if s.pool.shutdown then none else some (s.locked (s.add job))
  | .acquire i => if s.workers[i]? = some .ready then some (s.locked (s.acquire i)) else none
  | .run i =>
    match s.workers[i]? with
    | some (.holding worker) => some (s.run i worker)
    | _ => none
  | .finish i =>
    match s.workers[i]? with
    | some (.running worker) => some (s.finish i worker)
    | _ => none
  | .settle i => if s.workers[i]? = some .done then some (s.locked (.ok (.done, s.settle i))) else none
  | .wake i => if s.workers[i]? = some .asleep then some (.ok (.done, s.goto i .ready)) else none
  | .wait => if s.caller = .idle then some (.ok (.done, { s with caller := .checking false })) else none
  | .destroy => if s.caller = .idle then some s.destroy else none
  | .check =>
    match s.caller with
    | .checking destroying => some (.ok (s.check destroying))
    | _ => none
  | .wakeCaller =>
    match s.caller with
    | .asleep destroying => some (.ok (.done, { s with caller := .checking destroying }))
    | _ => none

/-- A step with what it did. -/
def Move (s : Threads J) (l : Event J × Seen J) (t : Threads J) : Prop := s.step l.1 = some (.ok (l.2, t))

/-- The steps of a schedule, one after the other. -/
def schedule (s : Threads J) : List (Event J) → Option (List (Event J × Seen J) × Threads J)
  | [] => some ([], s)
  | e :: es =>
    match s.step e with
    | some (.ok (seen, t)) => (schedule t es).map fun r => ((e, seen) :: r.1, r.2)
    | _ => none

theorem run_schedule {s u : Threads J} (es : List (Event J)) {ls : List (Event J × Seen J)}
    (h : s.schedule es = some (ls, u)) : Run Move s ls u := by
  induction es generalizing s ls with
  | nil =>
    obtain ⟨rfl, rfl⟩ := Prod.mk.inj (Option.some.inj h)
    exact .nil
  | cons e es ih =>
    unfold schedule at h
    split at h
    · rename_i seen t hstep
      obtain ⟨⟨ls', v⟩, hrest, heq⟩ := Option.map_eq_some_iff.mp h
      obtain ⟨rfl, rfl⟩ := Prod.mk.inj heq
      have hfirst : Run Move s [(e, seen)] t := Run.single hstep
      exact hfirst.trans (ih hrest)
    · cases h

end Threads
end Jericho.Pool
