import Jericho.Library.JobLedger
import Jericho.Pool.Sections

/-! The pool keeps a ledger: every step of the threads is an act of the ledger or none. -/
namespace Jericho.Pool
open StdText Runs Ledger

variable {J : Type}

/-- What a step of the threads means for the jobs. -/
def actOf : Event J × Seen J → Act J
  | (.add job, _) => .add job
  | (.acquire i, .took worker) => .take i worker
  | (.run i, .ran worker job) => .run i worker job
  | (.finish i, .freed worker) => .finish i worker
  | (.destroy, .cleared workers) => .close workers
  | _ => .idle

/-- The records of a pool and the queue through them, against a ledger. -/
structure Stored (l : Ledger J) (tpool : ThreadPool J) : Prop where
  alloc : tpool.heap.next = l.jobs.length
  closed : l.closed = tpool.shutdown
  queue : l.closed = false → Heap.Linked Worker.next tpool.heap tpool.head tpool.tail l.waiting
  live : ∀ a, (tpool.heap.cell a).isSome ↔ l.Kept a
  jobs : ∀ a w, tpool.heap.cell a = some w → l.jobs[a]? = some w.job

/-- The taken jobs and the threads that have them. -/
structure Manned (stage : Nat → Option Stage) (workers : List Phase) : Prop where
  holding : ∀ i a, workers[i]? = some (.holding a) ↔ stage a = some (.held i)
  running : ∀ i a, workers[i]? = some (.running a) ↔ stage a = some (.running i)

structure Refines (l : Ledger J) (s : Threads J) : Prop where
  stored : Stored l s.pool
  manned : Manned l.stage s.workers

variable {l : Ledger J} {acts : List (Act J)} {tpool : ThreadPool J}

/-- A pool whose queue did not change. -/
theorem Stored.of_same (h : Stored l tpool) {tpool' : ThreadPool J} (hhead : tpool'.head = tpool.head)
    (htail : tpool'.tail = tpool.tail) (hheap : tpool'.heap = tpool.heap) (hshut : tpool'.shutdown = tpool.shutdown) :
    Stored l tpool' where
  alloc := hheap ▸ h.alloc
  closed := hshut ▸ h.closed
  queue := by
    rw [hhead, htail, hheap]
    exact h.queue
  live := hheap ▸ h.live
  jobs := hheap ▸ h.jobs

/-- A stage that changes while the record stays. -/
theorem Stored.of_stage (h : Stored l tpool) {a : Nat} {st st' : Stage}
    (hstage : l.stage a = some st) (hst : (∃ i, st = .held i ∨ st = .running i) ∧ ∃ i, st' = .held i ∨ st' = .running i) :
    Stored { l with stage := Function.update l.stage a (some st') } tpool where
  alloc := h.alloc
  closed := h.closed
  queue := h.queue
  live b := by
    rw [h.live]
    refine or_congr_right ?_
    dsimp only
    by_cases hb : b = a
    · subst hb
      rw [Function.update_self, hstage]
      simpa using iff_of_true hst.1 hst.2
    · rw [Function.update_of_ne hb]
  jobs := h.jobs

theorem kept_add (hopen : l.closed = false) (hbound : l.taken ≤ l.jobs.length) (job : J) (a : Nat) :
    Kept { l with jobs := l.jobs ++ [job] } a ↔ l.Kept a ∨ a = l.jobs.length := by
  unfold Kept
  rw [waiting_add hopen hbound, List.mem_append, List.mem_singleton]
  exact or_right_comm

/-- A new record, at a fresh address, that some other record may link to. -/
theorem Stored.add (h : Stored l tpool) (ha : Accounts acts l) (hopen : tpool.shutdown = false) {job : J}
    {heap : Heap (Worker J)} {head tail : Option Nat} (hnext : heap.next = tpool.heap.next + 1)
    (hnew : heap.cell tpool.heap.next = some { job := job })
    (hold : ∀ a, a ≠ tpool.heap.next → (heap.cell a).map Worker.job = (tpool.heap.cell a).map Worker.job)
    (hqueue : Heap.Linked Worker.next heap head tail (l.waiting ++ [l.jobs.length])) :
    Stored { l with jobs := l.jobs ++ [job] } { tpool with heap := heap, head := head, tail := tail } where
  alloc := by
    dsimp only
    rw [hnext, h.alloc, List.length_append, List.length_singleton]
  closed := h.closed
  queue _ := by
    rw [waiting_add (h.closed.trans hopen) ha.bound]
    exact hqueue
  live a := by
    rw [kept_add (h.closed.trans hopen) ha.bound, ← h.live, ← h.alloc]
    by_cases hne : a = tpool.heap.next
    · simp [hne, hnew]
    · have hsome := congrArg Option.isSome (hold a hne)
      rw [Option.isSome_map, Option.isSome_map] at hsome
      dsimp only
      rw [hsome]
      simp [hne]
  jobs a w hw := by
    by_cases hne : a = tpool.heap.next
    · rw [hne] at hw
      obtain rfl := Option.some.inj (hnew.symm.trans hw)
      rw [hne, h.alloc, List.getElem?_concat_length]
    · have hjob := hold a hne
      dsimp only at hw
      rw [hw] at hjob
      obtain ⟨w', hw', hsame⟩ := Option.map_eq_some_iff.mp hjob.symm
      have hget := h.jobs a w' hw'
      dsimp only
      rw [List.getElem?_append_left (List.getElem?_eq_some_iff.mp hget).1, hget, hsame]

theorem Stored.addFirst (h : Stored l tpool) (ha : Accounts acts l) (hopen : tpool.shutdown = false)
    (hhead : tpool.head = none) (job : J) :
    Stored { l with jobs := l.jobs ++ [job] } { tpool with
      heap := tpool.heap.alloc { job := job }, head := some tpool.heap.next, tail := some tpool.heap.next } := by
  have hempty : l.waiting = [] := ((h.queue (h.closed.trans hopen)).chain.eq_nil_iff).mp hhead
  have hnew := Heap.alloc_cell_next tpool.heap { job := job }
  refine h.add ha hopen rfl hnew (fun a hne => by rw [Heap.alloc_cell_of_ne hne]) ?_
  rw [hempty, ← h.alloc]
  exact ⟨⟨rfl, _, hnew, rfl⟩, rfl⟩

theorem Stored.addLast (h : Stored l tpool) (ha : Accounts acts l) (hopen : tpool.shutdown = false)
    (hhead : tpool.head ≠ none) {job : J} {last : Worker J}
    (hlast : (tpool.heap.alloc { job := job }).read tpool.tail = some last) :
    Stored { l with jobs := l.jobs ++ [job] } { tpool with
      heap := (tpool.heap.alloc { job := job }).write tpool.tail { last with next := some tpool.heap.next }
      tail := some tpool.heap.next } := by
  have hlinked := h.queue (h.closed.trans hopen)
  have hne : l.waiting ≠ [] := mt (hlinked.chain.eq_nil_iff).mpr hhead
  obtain ⟨as, z, hsplit⟩ := (List.eq_nil_or_concat l.waiting).resolve_left hne
  rw [List.concat_eq_append] at hsplit
  have htail : tpool.tail = some z := by rw [hlinked.tail_eq, hsplit, List.getLast?_concat]
  have hbelow : ∀ a ∈ l.waiting, a ≠ tpool.heap.next := by
    intro a hmem heq
    have hlt := (mem_waiting.mp hmem).2.2
    rw [heq, h.alloc] at hlt
    exact lt_irrefl _ hlt
  have hz : z ≠ tpool.heap.next := hbelow z (by rw [hsplit]; simp)
  have hnodup := l.waiting_nodup
  rw [hsplit, List.nodup_append] at hnodup
  rw [htail] at hlast
  have hcell : tpool.heap.cell z = some last := (Heap.alloc_cell_of_ne hz _).symm.trans hlast
  have hsome : ((tpool.heap.alloc { job := job }).cell z).isSome := by
    rw [Heap.alloc_cell_of_ne hz, hcell]
    rfl
  have hwrite := Heap.write_cell_self hsome { last with next := some tpool.heap.next }
  have hkeep : ∀ a, a ≠ z → a ≠ tpool.heap.next → ((tpool.heap.alloc { job := job }).write (some z)
      { last with next := some tpool.heap.next }).cell a = tpool.heap.cell a := by
    intro a haz hnew
    rw [Heap.write_cell_of_ne (by simpa using Ne.symm haz), Heap.alloc_cell_of_ne hnew]
  have hnew : ((tpool.heap.alloc { job := job }).write (some z) { last with next := some tpool.heap.next }).cell
      tpool.heap.next = some { job := job } := by
    rw [Heap.write_cell_of_ne (by simpa using hz), Heap.alloc_cell_next]
  rw [htail]
  refine h.add ha hopen rfl hnew ?_ ⟨?_, ?_⟩
  · intro a hnext
    by_cases haz : a = z
    · rw [haz, hwrite, hcell]
      rfl
    · rw [hkeep a haz hnext]
  · have hchain := hlinked.chain
    rw [hsplit] at hchain ⊢
    rw [← h.alloc]
    refine hchain.snoc ?_ ?_ hwrite rfl hnew rfl
    · exact fun hmem => hnodup.2.2 z hmem z (List.mem_singleton_self z) rfl
    · intro b hb
      refine hkeep b ?_ (hbelow b (by rw [hsplit]; exact List.mem_append_left _ hb))
      exact fun heq => hnodup.2.2 b hb z (List.mem_singleton_self z) heq
  · rw [List.getLast?_concat, h.alloc]

/-- The first waiting job is taken off the queue. -/
theorem Stored.take (h : Stored l tpool) (ha : Accounts acts l) (hopen : tpool.shutdown = false) {worker : Nat}
    {w : Worker J} (hhead : tpool.head = some worker) (hw : tpool.heap.cell worker = some w) (i count : Nat) :
    worker = l.taken ∧ l.taken < l.jobs.length ∧
    Stored { l with taken := l.taken + 1, stage := Function.update l.stage l.taken (some (.held i)) } { tpool with
      head := w.next, tail := if w.next = none then none else tpool.tail, workingCount := count } := by
  have hlinked := h.queue (h.closed.trans hopen)
  have hlt : l.taken < l.jobs.length := by
    by_contra hge
    have hempty : l.waiting = [] := by
      rw [List.eq_nil_iff_forall_not_mem]
      intro a hmem
      have := mem_waiting.mp hmem
      omega
    rw [hempty] at hlinked
    exact nomatch hhead.symm.trans hlinked.chain
  have hcons := waiting_cons (h.closed.trans hopen) hlt (Function.update l.stage l.taken (some (.held i)))
  rw [hcons] at hlinked
  obtain ⟨hp, x, hx, hrest⟩ := hlinked.chain
  obtain rfl := Option.some.inj (hhead.symm.trans hp)
  obtain rfl := Option.some.inj (hw.symm.trans hx)
  refine ⟨rfl, hlt, ⟨h.alloc, h.closed, fun _ => ⟨hrest, ?_⟩, ?_, h.jobs⟩⟩
  · have htail := hlinked.tail_eq
    dsimp only
    by_cases hnext : w.next = none
    · rw [if_pos hnext, (hrest.eq_nil_iff).mp hnext]
      rfl
    · rw [if_neg hnext, htail]
      have hne := mt (hrest.eq_nil_iff).mpr hnext
      rw [List.getLast?_cons]
      obtain ⟨as, z, hsplit⟩ := (List.eq_nil_or_concat _).resolve_left hne
      rw [hsplit]
      simp
  · intro a
    have hnone := ha.stage_eq_none (Nat.le_refl l.taken)
    rw [h.live]
    unfold Kept
    rw [hcons, List.mem_cons]
    dsimp only
    by_cases hb : a = l.taken
    · subst hb
      rw [Function.update_self]
      simp
    · rw [Function.update_of_ne hb]
      simp [hb]

/-- A finished job's record is freed. -/
theorem Stored.finish (h : Stored l tpool) (ha : Accounts acts l) {i a : Nat} (hstage : l.stage a = some (.running i)) :
    Stored { l with stage := Function.update l.stage a (some (.finished i)) }
      { tpool with heap := tpool.heap.free [some a] } where
  alloc := h.alloc
  closed := h.closed
  queue hopen := by
    refine (h.queue hopen).congr fun b hb => Heap.free_cell_of_notMem ?_
    have hne : b ≠ a := fun heq => notMem_waiting_of_stage ha hstage (heq ▸ hb)
    simpa using hne
  live b := by
    dsimp only
    by_cases hb : b = a
    · subst hb
      have hno : b ∉ waiting { l with stage := Function.update l.stage b (some (.finished i)) } :=
        notMem_waiting_of_stage ha hstage
      rw [Heap.free_cell_of_mem (List.mem_singleton_self _)]
      unfold Kept
      dsimp only
      rw [Function.update_self]
      simpa using hno
    · rw [Heap.free_cell_of_notMem (by simpa using hb), h.live]
      unfold Kept
      dsimp only
      rw [Function.update_of_ne hb]
      rfl
  jobs b w hw := h.jobs b w (Heap.cell_of_free hw)

/-- The loop of `thread_pool_destroy` frees the records of a chain. -/
theorem freeChain_spec {rounds : Nat} {heap : Heap (Worker J)} {p : Option Nat} {as : List Nat}
    (hchain : Heap.Chain Worker.next heap p as) (hnodup : as.Nodup) (hrounds : as.length ≤ rounds) :
    ∃ heap', ThreadPool.freeChain rounds heap p = .ok (as, heap') ∧ heap'.next = heap.next ∧
      ∀ a, heap'.cell a = if a ∈ as then none else heap.cell a := by
  induction as generalizing rounds heap p with
  | nil =>
    obtain rfl : p = none := hchain
    refine ⟨heap, ?_, rfl, fun a => rfl⟩
    cases rounds <;> rfl
  | cons a as ih =>
    obtain ⟨rfl, w, hw, hrest⟩ := hchain
    obtain ⟨hno, hnodup⟩ := List.nodup_cons.mp hnodup
    obtain ⟨rounds, rfl⟩ := Nat.exists_eq_add_of_lt (Nat.lt_of_lt_of_le (Nat.succ_pos _) hrounds)
    have hframe : ∀ b ∈ as, (heap.free [some a]).cell b = heap.cell b := by
      intro b hb
      refine Heap.free_cell_of_notMem ?_
      have hne : b ≠ a := fun heq => hno (heq ▸ hb)
      simpa using hne
    have hfewer : as.length ≤ rounds := by
      rw [List.length_cons] at hrounds
      omega
    obtain ⟨heap', hfree, hnext, hcell⟩ := ih (hrest.congr hframe) hnodup hfewer
    refine ⟨heap', ?_, hnext, ?_⟩
    · have hread : heap.read (some a) = some w := hw
      rw [Nat.zero_add]
      unfold ThreadPool.freeChain
      rw [hread]
      dsimp only
      rw [hfree]
      rfl
    · intro b
      rw [hcell b]
      by_cases hb : b = a
      · subst hb
        rw [if_neg hno, if_pos List.mem_cons_self, Heap.free_cell_of_mem (List.mem_singleton_self _)]
      · rw [Heap.free_cell_of_notMem (by simpa using hb)]
        simp [hb]

/-- The queue is freed, and its head stays. -/
theorem Stored.destroy (h : Stored l tpool) (ha : Accounts acts l) (hopen : tpool.shutdown = false) :
    ∃ heap', ThreadPool.freeChain tpool.heap.next tpool.heap tpool.head = .ok (l.waiting, heap') ∧
      Stored { l with closed := true } { tpool with heap := heap', shutdown := true } := by
  have hlong : l.waiting.length ≤ tpool.heap.next := by
    unfold waiting
    split_ifs
    · exact Nat.zero_le _
    · rw [List.length_range', h.alloc]
      exact Nat.sub_le _ _
  obtain ⟨heap', hfree, hnext, hcell⟩ :=
    freeChain_spec (h.queue (h.closed.trans hopen)).chain l.waiting_nodup hlong
  refine ⟨heap', hfree, ⟨hnext.trans h.alloc, rfl, fun hno => (nomatch hno), ?_, ?_⟩⟩
  · intro a
    dsimp only
    rw [hcell a]
    unfold Kept
    rw [waiting_of_closed (l := { l with closed := true }) rfl]
    by_cases hmem : a ∈ l.waiting
    · rw [if_pos hmem]
      have hnone := ha.stage_eq_none (mem_waiting.mp hmem).2.1
      simp [hnone]
    · rw [if_neg hmem, h.live]
      unfold Kept
      simp [hmem]
  · intro a w hw
    dsimp only at hw
    rw [hcell a] at hw
    split_ifs at hw
    exact h.jobs a w hw

/-- A phase in which a thread has a record. -/
def Phase.record : Phase → Option Nat
  | .holding a | .running a => some a
  | _ => none

variable {stage : Nat → Option Stage} {workers : List Phase} {i a : Nat} {phase : Phase}

theorem Manned.congr (h : Manned stage workers) {workers' : List Phase}
    (hsame : ∀ (j : Nat) (p : Phase), p.record ≠ none → (workers'[j]? = some p ↔ workers[j]? = some p)) :
    Manned stage workers' :=
  ⟨fun j b => (hsame j (.holding b) (Option.some_ne_none b)).trans (h.holding j b),
    fun j b => (hsame j (.running b) (Option.some_ne_none b)).trans (h.running j b)⟩

/-- Phases without a record do not matter. -/
theorem Manned.of_neutral (h : Manned stage workers) (hi : workers[i]? = some phase) (hphase : phase.record = none)
    {phase' : Phase} (hphase' : phase'.record = none) : Manned stage (workers.set i phase') := by
  have hsame : ∀ (j : Nat) (p : Phase), p.record ≠ none → ((workers.set i phase')[j]? = some p ↔ workers[j]? = some p) := by
    intro j p hp
    rw [List.getElem?_set]
    by_cases hj : i = j
    · subst hj
      rw [if_pos rfl, if_pos (List.getElem?_eq_some_iff.mp hi).1, hi]
      refine iff_of_false (fun heq => ?_) (fun heq => ?_)
      · exact hp (Option.some.inj heq ▸ hphase')
      · exact hp (Option.some.inj heq ▸ hphase)
    · rw [if_neg hj]
  exact h.congr hsame

theorem Manned.wake (h : Manned stage workers) : Manned stage (workers.map Phase.wake) := by
  have hsame : ∀ (j : Nat) (p : Phase), p.record ≠ none → ((workers.map Phase.wake)[j]? = some p ↔ workers[j]? = some p) := by
    intro j p hp
    rw [List.getElem?_map]
    cases workers[j]? with
    | none => simp
    | some q =>
      rw [Option.map_some, Option.some.injEq, Option.some.injEq]
      cases q with
      | asleep =>
        refine iff_of_false (fun heq => ?_) fun heq => ?_
        · exact hp (heq ▸ rfl)
        · exact hp (heq ▸ rfl)
      | ready | holding | running | done | exited => exact Iff.rfl
  exact h.congr hsame

/-- One thread and its record, before and after; no other thread has that record. -/
theorem Manned.update (h : Manned stage workers) {st : Stage} {phase' : Phase}
    (hi : workers[i]? = some phase) (hbefore : ∀ b, b ≠ a → phase ≠ .holding b ∧ phase ≠ .running b)
    (hothers : ∀ j, j ≠ i → stage a ≠ some (.held j) ∧ stage a ≠ some (.running j))
    (hholding : ∀ j b, (i = j ∧ phase' = .holding b) ↔ b = a ∧ st = .held j)
    (hrunning : ∀ j b, (i = j ∧ phase' = .running b) ↔ b = a ∧ st = .running j) :
    Manned (Function.update stage a (some st)) (workers.set i phase') := by
  have hlen := (List.getElem?_eq_some_iff.mp hi).1
  have hcase : ∀ (make : Nat → Phase) (st' : Nat → Stage),
      (∀ j b, workers[j]? = some (make b) ↔ stage b = some (st' j)) →
      (∀ b, b ≠ a → phase ≠ make b) → (∀ j, j ≠ i → stage a ≠ some (st' j)) →
      (∀ j b, (i = j ∧ phase' = make b) ↔ b = a ∧ st = st' j) →
      ∀ j b, (workers.set i phase')[j]? = some (make b) ↔ Function.update stage a (some st) b = some (st' j) := by
    intro make st' hold hphase hother hnew j b
    rw [List.getElem?_set]
    have hiff := hnew j b
    by_cases hj : i = j
    · subst hj
      rw [if_pos rfl, if_pos hlen, Option.some.injEq]
      by_cases hb : b = a
      · subst hb
        rw [Function.update_self, Option.some.injEq]
        simpa using hiff
      · rw [Function.update_of_ne hb, ← hold, hi, Option.some.injEq]
        exact iff_of_false (fun heq => hb (hiff.mp ⟨rfl, heq⟩).1) (hphase b hb)
    · rw [if_neg hj]
      by_cases hb : b = a
      · subst hb
        rw [Function.update_self, Option.some.injEq, hold]
        exact iff_of_false (hother j (Ne.symm hj)) fun heq => hj (hiff.mpr ⟨rfl, heq⟩).1
      · rw [Function.update_of_ne hb, hold]
  exact ⟨hcase Phase.holding Stage.held h.holding (fun b hb => (hbefore b hb).1) (fun j hj => (hothers j hj).1) hholding,
    hcase Phase.running Stage.running h.running (fun b hb => (hbefore b hb).2) (fun j hj => (hothers j hj).2) hrunning⟩

theorem Manned.take (h : Manned stage workers) (hnone : stage a = none) (hi : workers[i]? = some .ready) :
    Manned (Function.update stage a (some (.held i))) (workers.set i (.holding a)) := by
  refine h.update hi (fun b _ => ⟨fun heq => (nomatch heq), fun heq => (nomatch heq)⟩) (fun j _ => ?_) ?_ ?_
  · rw [hnone]
    exact ⟨fun heq => (nomatch heq), fun heq => (nomatch heq)⟩
  · intro j b
    simp only [Phase.holding.injEq, Stage.held.injEq]
    exact ⟨fun heq => ⟨heq.2.symm, heq.1⟩, fun heq => ⟨heq.2, heq.1.symm⟩⟩
  · exact fun j b => iff_of_false (fun heq => (nomatch heq.2)) fun heq => (nomatch heq.2)

theorem Manned.run (h : Manned stage workers) (hi : workers[i]? = some (.holding a)) :
    Manned (Function.update stage a (some (.running i))) (workers.set i (.running a)) := by
  have hstage := (h.holding i a).mp hi
  refine h.update hi (fun b hb => ⟨fun heq => ?_, fun heq => (nomatch heq)⟩) (fun j hj => ?_) ?_ ?_
  · exact hb (Phase.holding.inj heq).symm
  · rw [hstage]
    exact ⟨fun heq => hj (Stage.held.inj (Option.some.inj heq)).symm, fun heq => (nomatch Option.some.inj heq)⟩
  · exact fun j b => iff_of_false (fun heq => (nomatch heq.2)) fun heq => (nomatch heq.2)
  · intro j b
    simp only [Phase.running.injEq, Stage.running.injEq]
    exact ⟨fun heq => ⟨heq.2.symm, heq.1⟩, fun heq => ⟨heq.2, heq.1.symm⟩⟩

theorem Manned.finish (h : Manned stage workers) (hi : workers[i]? = some (.running a)) :
    Manned (Function.update stage a (some (.finished i))) (workers.set i .done) := by
  have hstage := (h.running i a).mp hi
  refine h.update hi (fun b hb => ⟨fun heq => (nomatch heq), fun heq => ?_⟩) (fun j hj => ?_) ?_ ?_
  · exact hb (Phase.running.inj heq).symm
  · rw [hstage]
    exact ⟨fun heq => (nomatch Option.some.inj heq), fun heq => hj (Stage.running.inj (Option.some.inj heq)).symm⟩
  · exact fun j b => iff_of_false (fun heq => (nomatch heq.2)) fun heq => (nomatch heq.2)
  · exact fun j b => iff_of_false (fun heq => (nomatch heq.2)) fun heq => (nomatch heq.2)

/-- A step of the threads is an act of the ledger. -/
theorem Refines.step {s t : Threads J} {e : Event J} {seen : Seen J} (h : Refines l s) (ha : Accounts acts l)
    (hidle : s.caller = .idle → s.pool.shutdown = false) (hstep : StepCase s e seen t) :
    ∃ l', Ledger.Step l (actOf (e, seen)) l' ∧ Refines l' t := by
  cases hstep with
  | addFirst hopen hhead =>
    exact ⟨_, .add _ (h.stored.closed.trans hopen), h.stored.addFirst ha hopen hhead _, h.manned.wake⟩
  | addLast hopen hhead hlast =>
    exact ⟨_, .add _ (h.stored.closed.trans hopen), h.stored.addLast ha hopen hhead hlast, h.manned.wake⟩
  | sleep hi hopen hhead => exact ⟨l, .idle, h.stored, h.manned.of_neutral hi rfl rfl⟩
  | leave hi hshut =>
    refine ⟨l, .idle, ?_, ?_⟩
    · rw [Threads.signal_pool]
      exact h.stored.of_same rfl rfl rfl rfl
    · rw [Threads.signal_workers]
      exact h.manned.of_neutral hi rfl rfl
  | @take i worker w tail hi hopen hhead hw htail =>
    subst htail
    obtain ⟨rfl, hlt, hstored⟩ := h.stored.take ha hopen hhead hw i (s.pool.workingCount + 1)
    exact ⟨_, .take i (h.stored.closed.trans hopen) hlt, hstored, h.manned.take (ha.stage_eq_none (Nat.le_refl _)) hi⟩
  | @run i worker w hi hw =>
    have hstage := (h.manned.holding i worker).mp hi
    exact ⟨_, .run hstage (h.stored.jobs worker w hw),
      h.stored.of_stage hstage ⟨⟨i, .inl rfl⟩, ⟨i, .inr rfl⟩⟩, h.manned.run hi⟩
  | @finish i worker hi hw =>
    have hstage := (h.manned.running i worker).mp hi
    exact ⟨_, .finish hstage, h.stored.finish ha hstage, h.manned.finish hi⟩
  | @settle i hi =>
    have hkept : ∀ u : Threads J, u = s.settle i → Refines l u := by
      rintro u rfl
      have hplain : Refines l (({ s with pool := { s.pool with
          workingCount := s.pool.workingCount - 1 } } : Threads J).goto i .ready) :=
        ⟨h.stored.of_same rfl rfl rfl rfl, h.manned.of_neutral hi rfl rfl⟩
      unfold Threads.settle
      dsimp only
      split_ifs
      · refine ⟨?_, ?_⟩
        · rw [Threads.signal_pool]
          exact hplain.stored
        · rw [Threads.signal_workers]
          exact hplain.manned
      · exact hplain
    exact ⟨l, .idle, hkept _ rfl⟩
  | wake hi => exact ⟨l, .idle, h.stored, h.manned.of_neutral hi rfl rfl⟩
  | @destroy freed heap hc hfree =>
    obtain ⟨heap', hfree', hstored⟩ := h.stored.destroy ha (hidle hc)
    obtain ⟨rfl, rfl⟩ := Prod.mk.inj (Except.ok.inj (hfree.symm.trans hfree'))
    exact ⟨_, .close (h.stored.closed.trans (hidle hc)), hstored, h.manned.wake⟩
  | wait hc | block hc hwaits | pass hc hwaits | wakeCaller hc => exact ⟨l, .idle, h.stored, h.manned⟩

end Jericho.Pool
