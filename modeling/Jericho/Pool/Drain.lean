import Jericho.Pool.Jobs

/-! What `thread_pool_wait` waits for. -/
namespace Jericho.Pool
open StdText Runs Ledger

variable {J : Type} {s t u : Threads J} {acts : List (Act J)} {l : Ledger J}

/-- A job was taken, run and released. -/
def Finished (acts : List (Act J)) (a : Nat) : Prop :=
  ∃ i, deeds acts a = [.taken i, .run i, .released i]

theorem story_finished {a i : Nat} (h : l.story a = [.taken i, .run i, .released i]) :
    l.stage a = some (.finished i) := by
  unfold story at h
  split at h
  · rename_i st hst
    cases st with
    | held j => cases h
    | running j => cases h
    | finished j =>
      cases h
      exact hst
  · split_ifs at h
    cases h

theorem Kept.finished_iff (h : Kept acts l s) (a : Nat) : Finished acts a ↔ ∃ i, l.stage a = some (.finished i) := by
  refine exists_congr fun i => ?_
  rw [h.accounts.deeds]
  constructor
  · exact story_finished
  · intro hstage
    rw [story_of_stage hstage]
    rfl

theorem Kept.not_queued_of_finished (h : Kept acts l s) (hopen : s.pool.shutdown = false) {a : Nat}
    (hdone : Finished acts a) : ¬ Queued s a := by
  rw [h.queued_iff hopen]
  obtain ⟨i, hstage⟩ := (h.finished_iff a).mp hdone
  exact notMem_waiting_of_stage h.accounts hstage

/-- While no worker is counted, a job that left the queue is finished. -/
theorem Kept.finished_of_rest (h : Kept acts l s) (hopen : s.pool.shutdown = false) (hrest : s.pool.workingCount = 0)
    {a : Nat} (ha : a < l.jobs.length) (hleft : ¬ Queued s a) : Finished acts a := by
  rw [h.finished_iff]
  have hclosed : l.closed = false := h.refines.stored.closed.trans hopen
  have hfree : ∀ (i : Nat) (phase : Phase), s.workers[i]? = some phase → phase.busy = false := by
    intro i phase hi
    by_contra hbusy
    have hpos := h.counted.working_pos hi (Bool.not_eq_false _ ▸ hbusy)
    exact absurd hrest (Nat.pos_iff_ne_zero.mp hpos)
  have htaken : a < l.taken := by
    rw [h.queued_iff hopen, mem_waiting] at hleft
    by_contra hge
    exact hleft ⟨hclosed, Nat.not_lt.mp hge, ha⟩
  obtain ⟨st, hst⟩ := Option.isSome_iff_exists.mp ((h.accounts.stages a).mpr htaken)
  cases st with
  | held i => exact nomatch hfree i _ ((h.refines.manned.holding i a).mpr hst)
  | running i => exact nomatch hfree i _ ((h.refines.manned.running i a).mpr hst)
  | finished i => exact ⟨i, hst⟩

/-- A finished job is not dropped. -/
theorem not_dropped (h : Accounts acts l) {a : Nat} {done later : List (Act J)} (hacts : acts = done ++ later)
    (hdone : Finished done a) {dropped : List Nat} (hclose : Act.close dropped ∈ later) : a ∉ dropped := by
  intro hmem
  obtain ⟨i, hdeeds⟩ := hdone
  have hall : l.story a = [.taken i, .run i, .released i] ++ deeds later a := by
    rw [← h.deeds, hacts, ← hdeeds]
    exact List.filterMap_append
  have hdropped : Deed.dropped ∈ deeds later a :=
    List.mem_filterMap.mpr ⟨.close dropped, hclose, by rw [about_close, if_pos hmem]⟩
  have hin : Deed.dropped ∈ l.story a := by
    rw [hall]
    exact List.mem_append_right _ hdropped
  have hhead : Deed.taken i ∈ l.story a := by
    rw [hall]
    exact List.mem_cons_self
  unfold story at hin hhead
  split at hin
  · rename_i st hst
    cases st <;> simp [Stage.story] at hin
  · rename_i hnone
    rw [hnone] at hhead
    dsimp only at hhead
    split_ifs at hhead <;> simp at hhead

/-- The pool is drained of the jobs of a part of its run: they are all finished, and a later
`thread_pool_destroy` drops none of them. -/
structure Drained (before during : List (Event J × Seen J)) (s : Threads J) : Prop where
  finished : ∀ a < (added (before.map actOf)).length, Finished ((before ++ during).map actOf) a
  kept : ∀ later t, Run Threads.Move s later t → ∀ workers, (Event.destroy, Seen.cleared workers) ∈ later →
    ∀ a < (added (before.map actOf)).length, a ∉ workers

theorem added_append (xs ys : List (Act J)) : added (xs ++ ys) = added xs ++ added ys :=
  List.filterMap_append

/-- A call of `thread_pool_wait` that returns looked at the workers, not at the queue. -/
theorem wait_rest (hreturn : s.Move (.check, .returned false) t) (hkept : Kept acts l s) :
    s.pool.shutdown = false ∧ s.pool.workingCount = 0 := by
  have hcase := Threads.step_spec hreturn
  have hawaited := hkept.awaited
  cases hcase with
  | pass hc hwaits =>
    unfold Awaited at hawaited
    rw [hc] at hawaited
    have hopen : s.pool.shutdown = false := hawaited
    unfold ThreadPool.waits at hwaits
    rw [hopen] at hwaits
    exact ⟨hopen, by simpa using hwaits⟩

/-- When `thread_pool_wait` returns, the jobs that were added before the call are finished, and
stay so, exactly if none of them is still in the queue. -/
theorem wait_drains_iff {num : Nat} {before during : List (Event J × Seen J)}
    (hbefore : Run Threads.Move (Threads.create num) before s)
    (hcall : Run Threads.Move s ((.wait, .done) :: during) t) (hreturn : t.Move (.check, .returned false) u) :
    Drained before ((.wait, .done) :: during) u ↔ ∀ a < (added (before.map actOf)).length, ¬ Queued t a := by
  have hrun := hbefore.trans hcall
  obtain ⟨l, hkept⟩ := kept_run hrun
  obtain ⟨hopen, hrest⟩ := wait_rest hreturn hkept
  constructor
  · intro hdrained a ha
    exact hkept.not_queued_of_finished hopen (hdrained.finished a ha)
  · intro hleft
    have hfinished : ∀ a < (added (before.map actOf)).length,
        Finished ((before ++ (.wait, .done) :: during).map actOf) a := by
      intro a ha
      refine hkept.finished_of_rest hopen hrest ?_ (hleft a ha)
      rw [hkept.accounts.jobs, List.map_append, added_append, List.length_append]
      exact Nat.lt_add_right _ ha
    refine ⟨hfinished, fun later v hlater workers hcleared a ha => ?_⟩
    obtain ⟨l', hkept'⟩ := kept_run (hrun.trans ((Run.single hreturn).trans hlater))
    refine not_dropped hkept'.accounts List.map_append (hfinished a ha) ?_
    exact List.mem_map.mpr ⟨_, List.mem_append_right _ hcleared, rfl⟩

/-- The worker is in the only job when the call comes. -/
theorem wait_drains_running :
    ∃ (before during : List (Event Nat × Seen Nat)) (u : Threads Nat),
      added (before.map actOf) = [5] ∧ Drained before ((.wait, .done) :: during) u := by
  have hbefore := Threads.run_schedule (s := Threads.create 1) [.add 5, .acquire 0, .run 0] rfl
  refine ⟨_, _, _, ?_, (wait_drains_iff hbefore
    (Threads.run_schedule [.wait, .check, .finish 0, .settle 0] rfl) rfl).mpr ?_⟩
  · rfl
  · rintro a - ⟨workers, hchain, hmem⟩
    rw [(hchain.eq_nil_iff).mp rfl] at hmem
    exact absurd hmem List.not_mem_nil

/-- The call returns at once, and the job is dropped. -/
theorem wait_loses_job :
    ∃ (before during later : List (Event Nat × Seen Nat)) (s t u v : Threads Nat),
      Run Threads.Move (Threads.create 1) before s ∧ Run Threads.Move s ((.wait, .done) :: during) t ∧
      t.Move (.check, .returned false) u ∧ Run Threads.Move u later v ∧
      (.destroy, .cleared [0]) ∈ later ∧ ¬ Drained before ((.wait, .done) :: during) u := by
  have hbefore := Threads.run_schedule (s := Threads.create 1) [.add 5] rfl
  refine ⟨_, [], _, _, _, _, _, hbefore, Threads.run_schedule [.wait] rfl, rfl,
    Threads.run_schedule [.destroy] rfl, List.mem_singleton_self _, fun hdrained => ?_⟩
  obtain ⟨i, hdeeds⟩ := hdrained.finished 0 Nat.one_pos
  cases hdeeds

end Jericho.Pool
