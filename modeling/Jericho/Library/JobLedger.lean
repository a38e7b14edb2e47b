import Mathlib.Data.List.Range
import Mathlib.Logic.Function.Basic

/-! What a queue of jobs with several workers is for. Jobs are numbered in the order they come;
each is taken once, in that order, and run and released by the worker that took it, or it is
dropped when the queue is closed. -/
namespace Ledger

/-- How far a taken job has come, and with which worker. -/
inductive Stage where
  | held (i : Nat)
  | running (i : Nat)
  | finished (i : Nat)
  deriving DecidableEq

inductive Act (J : Type*) where
  | add (job : J)
  | take (i a : Nat)
  | run (i a : Nat) (job : J)
  | finish (i a : Nat)
  | close (dropped : List Nat)
  | idle

/-- What happens to one job. -/
inductive Deed where
  | taken (i : Nat)
  | run (i : Nat)
  | released (i : Nat)
  | dropped
  deriving DecidableEq

/-- What must have happened to a job that came so far. -/
def Stage.story : Stage → List Deed
  | .held i => [.taken i]
  | .running i => [.taken i, .run i]
  | .finished i => [.taken i, .run i, .released i]

end Ledger

/-- The jobs so far, how many of them were taken, and what became of these. -/
structure Ledger (J : Type*) where
  jobs : List J := []
  taken : Nat := 0
  closed : Bool := false
  stage : Nat → Option Ledger.Stage := fun _ => none

namespace Ledger
variable {J : Type*}

/-- The numbers of the jobs that wait. -/
def waiting (l : Ledger J) : List Nat :=
  if l.closed then [] else List.range' l.taken (l.jobs.length - l.taken)

inductive Step (l : Ledger J) : Act J → Ledger J → Prop
  | add (job : J) (hopen : l.closed = false) : Step l (.add job) { l with jobs := l.jobs ++ [job] }
  | take (i : Nat) (hopen : l.closed = false) (ha : l.taken < l.jobs.length) :
      Step l (.take i l.taken)
        { l with taken := l.taken + 1, stage := Function.update l.stage l.taken (some (.held i)) }
  | run {i a : Nat} {job : J} (hstage : l.stage a = some (.held i)) (hjob : l.jobs[a]? = some job) :
      Step l (.run i a job) { l with stage := Function.update l.stage a (some (.running i)) }
  | finish {i a : Nat} (hstage : l.stage a = some (.running i)) :
      Step l (.finish i a) { l with stage := Function.update l.stage a (some (.finished i)) }
  | close (hopen : l.closed = false) : Step l (.close l.waiting) { l with closed := true }
  | idle : Step l .idle l

def Act.job : Act J → Option J
  | .add job => some job
  | _ => none

def Act.took : Act J → Option Nat
  | .take _ a => some a
  | _ => none

/-- What an act does to the job with a number. -/
def Act.about (a : Nat) : Act J → Option Deed
  | .take i b => if b = a then some (.taken i) else none
  | .run i b _ => if b = a then some (.run i) else none
  | .finish i b => if b = a then some (.released i) else none
  | .close dropped => if a ∈ dropped then some .dropped else none
  | _ => none

/-- The jobs that acts brought, in order. -/
def added (acts : List (Act J)) : List J := acts.filterMap Act.job

/-- The numbers of the jobs that acts took, in order. -/
def takes (acts : List (Act J)) : List Nat := acts.filterMap Act.took

/-- Everything that acts did to one job, in order. -/
def deeds (acts : List (Act J)) (a : Nat) : List Deed := acts.filterMap (Act.about a)

/-- What must have happened to a job by now. -/
def story (l : Ledger J) (a : Nat) : List Deed :=
  match l.stage a with
  | some st => st.story
  | none => if l.closed ∧ a < l.jobs.length then [.dropped] else []

/-- A ledger and the acts that led to it. -/
structure Accounts (acts : List (Act J)) (l : Ledger J) : Prop where
  jobs : l.jobs = added acts
  bound : l.taken ≤ l.jobs.length
  stages : ∀ a, (l.stage a).isSome ↔ a < l.taken
  order : takes acts = List.range l.taken
  deeds : ∀ a, deeds acts a = l.story a
  runs : ∀ i a job, Act.run i a job ∈ acts → (added acts)[a]? = some job

theorem accounts_empty : Accounts (J := J) [] {} where
  jobs := rfl
  bound := Nat.le_refl 0
  stages a := by simp
  order := rfl
  deeds a := by simp [Ledger.deeds, story]
  runs i a job h := absurd h List.not_mem_nil

variable {l l' : Ledger J} {acts : List (Act J)} {act : Act J}

theorem mem_waiting {a : Nat} : a ∈ l.waiting ↔ l.closed = false ∧ l.taken ≤ a ∧ a < l.jobs.length := by
  unfold waiting
  cases l.closed with
  | true => simp
  | false =>
    simp only [Bool.false_eq_true, if_false, List.mem_range'_1, true_and]
    omega

theorem Accounts.stage_eq_none (h : Accounts acts l) {a : Nat} (ha : l.taken ≤ a) : l.stage a = none := by
  have hstage := h.stages a
  rw [Option.isSome_iff_ne_none] at hstage
  by_contra hne
  exact absurd (hstage.mp hne) (Nat.not_lt.mpr ha)

theorem Accounts.lt_taken (h : Accounts acts l) {a : Nat} {st : Stage} (ha : l.stage a = some st) : a < l.taken :=
  (h.stages a).mp (by rw [ha]; rfl)

theorem story_of_stage {a : Nat} {st : Stage} (h : l.stage a = some st) : l.story a = st.story := by
  unfold story
  rw [h]

theorem story_update {a : Nat} {st : Stage} {taken : Nat} (b : Nat) :
    story { l with taken := taken, stage := Function.update l.stage a (some st) } b =
      if b = a then st.story else l.story b := by
  unfold story
  by_cases hb : b = a
  · subst hb
    rw [if_pos rfl]
    dsimp only
    rw [Function.update_self]
  · rw [if_neg hb]
    dsimp only
    rw [Function.update_of_ne hb]

@[simp] theorem about_add (a : Nat) (job : J) : (Act.add job).about a = none := rfl
@[simp] theorem about_idle (a : Nat) : (Act.idle (J := J)).about a = none := rfl
@[simp] theorem about_take (a i b : Nat) :
    (Act.take (J := J) i b).about a = if b = a then some (.taken i) else none := rfl
@[simp] theorem about_run (a i b : Nat) (job : J) :
    (Act.run i b job).about a = if b = a then some (.run i) else none := rfl
@[simp] theorem about_finish (a i b : Nat) :
    (Act.finish (J := J) i b).about a = if b = a then some (.released i) else none := rfl
@[simp] theorem about_close (a : Nat) (dropped : List Nat) :
    (Act.close (J := J) dropped).about a = if a ∈ dropped then some .dropped else none := rfl

/-- A stage that comes next adds its deed to the story of its job, and to no other one. -/
theorem story_advance {a : Nat} {st : Stage} {taken : Nat} {deed : Deed} (hstory : st.story = l.story a ++ [deed])
    (b : Nat) :
    story { l with taken := taken, stage := Function.update l.stage a (some st) } b =
      l.story b ++ (if a = b then some deed else none).toList := by
  rw [story_update]
  by_cases hb : b = a
  · rw [if_pos hb, if_pos hb.symm, hstory, hb]
    rfl
  · rw [if_neg hb, if_neg (Ne.symm hb), Option.toList_none, List.append_nil]

/-- An act adds its deed to the story of the job. -/
theorem Accounts.story_step (h : Accounts acts l) (hstep : Step l act l') (b : Nat) :
    l'.story b = l.story b ++ (act.about b).toList := by
  cases hstep with
  | add job hopen =>
    unfold story
    simp [hopen]
  | take i hopen ha =>
    have hnone : l.story l.taken = [] := by
      unfold story
      rw [h.stage_eq_none (Nat.le_refl _), hopen]
      simp
    exact story_advance (by rw [hnone]; rfl) b
  | run hstage hjob => exact story_advance (by rw [story_of_stage hstage]; rfl) b
  | finish hstage => exact story_advance (by rw [story_of_stage hstage]; rfl) b
  | close hopen =>
    have hmem := mem_waiting (l := l) (a := b)
    rw [about_close]
    cases hstage : l.stage b with
    | none =>
      have hge : l.taken ≤ b := by
        by_contra hlt
        have hsome := (h.stages b).mpr (Nat.not_le.mp hlt)
        rw [hstage] at hsome
        cases hsome
      unfold story
      dsimp only
      rw [hstage]
      by_cases hb : b < l.jobs.length
      · simp [hopen, hb, hmem.mpr ⟨hopen, hge, hb⟩]
      · simp [hb, mt hmem.mp fun hw => hb hw.2.2]
    | some st =>
      have hno : b ∉ l.waiting := fun hw => absurd (h.lt_taken hstage) (Nat.not_lt.mpr (hmem.mp hw).2.1)
      rw [if_neg hno, story_of_stage hstage]
      exact (story_of_stage (l := { l with closed := true }) hstage).trans (List.append_nil _).symm
  | idle => simp

/-- The list of a step's worth of history. -/
private theorem filterMap_snoc {β : Type*} (f : Act J → Option β) :
    (acts ++ [act]).filterMap f = acts.filterMap f ++ (f act).toList := by
  rw [List.filterMap_append]
  cases hact : f act <;> simp [hact]

private theorem isSome_update {stage : Nat → Option Stage} {a : Nat} {st : Stage} (hsome : (stage a).isSome) (b : Nat) :
    (Function.update stage a (some st) b).isSome = (stage b).isSome := by
  by_cases hb : b = a
  · rw [hb, Function.update_self, hsome]
    rfl
  · rw [Function.update_of_ne hb]

theorem Step.jobs_eq (h : Step l act l') : l'.jobs = l.jobs ++ act.job.toList := by
  cases h with
  | add job hopen => rfl
  | take | run | finish | close | idle => exact (List.append_nil _).symm

theorem Step.range_taken (h : Step l act l') : List.range l'.taken = List.range l.taken ++ act.took.toList := by
  cases h with
  | take i hopen ha => exact List.range_succ
  | add | run | finish | close | idle => exact (List.append_nil _).symm

theorem Accounts.step (h : Accounts acts l) (hstep : Step l act l') : Accounts (acts ++ [act]) l' where
  jobs := by
    rw [hstep.jobs_eq, h.jobs]
    exact (filterMap_snoc _).symm
  bound := by
    cases hstep with
    | add job hopen =>
      have := h.bound
      simp only [List.length_append, List.length_singleton]
      omega
    | take i hopen ha => exact ha
    | run | finish | close | idle => exact h.bound
  stages b := by
    have hb := h.stages b
    cases hstep with
    | take i hopen ha =>
      by_cases heq : b = l.taken
      · simp [heq]
      · dsimp only
        rw [Function.update_of_ne heq, hb]
        omega
    | run hstage | finish hstage =>
      dsimp only
      rw [isSome_update (by rw [hstage]; rfl)]
      exact hb
    | add | close | idle => exact hb
  order := by
    rw [hstep.range_taken, ← h.order]
    exact filterMap_snoc _
  deeds b := by
    rw [h.story_step hstep, ← h.deeds]
    exact filterMap_snoc _
  runs i a job hin := by
    have hkept : (added acts)[a]? = some job → (added (acts ++ [act]))[a]? = some job := by
      intro hjob
      have hadded : added (acts ++ [act]) = added acts ++ act.job.toList := filterMap_snoc _
      rw [hadded, List.getElem?_append_left (List.getElem?_eq_some_iff.mp hjob).1]
      exact hjob
    rcases List.mem_append.mp hin with hin | hin
    · exact hkept (h.runs i a job hin)
    · obtain rfl := List.mem_singleton.mp hin
      cases hstep with
      | run hstage hjob => exact hkept (h.jobs ▸ hjob)

/-! The queue of the waiting jobs, and the jobs whose records are still needed. -/

theorem waiting_nodup (l : Ledger J) : l.waiting.Nodup := by
  unfold waiting
  split_ifs
  · exact List.nodup_nil
  · exact List.nodup_range'

theorem waiting_sorted (l : Ledger J) : l.waiting.Pairwise (· < ·) := by
  unfold waiting
  split_ifs
  · exact List.Pairwise.nil
  · exact List.pairwise_lt_range'

theorem waiting_of_closed (hclosed : l.closed = true) : l.waiting = [] := by
  unfold waiting
  rw [if_pos hclosed]

theorem waiting_add (hopen : l.closed = false) (hbound : l.taken ≤ l.jobs.length) (job : J) :
    waiting { l with jobs := l.jobs ++ [job] } = l.waiting ++ [l.jobs.length] := by
  unfold waiting
  have hnot : ¬ l.closed = true := by simp [hopen]
  dsimp only
  rw [if_neg hnot, if_neg hnot, List.length_append, List.length_singleton]
  obtain ⟨n, hn⟩ := Nat.exists_eq_add_of_le hbound
  have hlong : l.jobs.length + 1 - l.taken = n + 1 := by omega
  have hshort : l.jobs.length - l.taken = n := by omega
  rw [hlong, hshort, List.range'_1_concat, hn]

theorem waiting_cons (hopen : l.closed = false) (ha : l.taken < l.jobs.length) (stage : Nat → Option Stage) :
    l.waiting = l.taken :: waiting { l with taken := l.taken + 1, stage := stage } := by
  unfold waiting
  have hnot : ¬ l.closed = true := by simp [hopen]
  dsimp only
  rw [if_neg hnot, if_neg hnot]
  obtain ⟨n, hn⟩ := Nat.exists_eq_add_of_lt ha
  have hlong : l.jobs.length - l.taken = n + 1 := by omega
  have hshort : l.jobs.length - (l.taken + 1) = n := by omega
  rw [hlong, hshort, List.range'_succ]

/-- The record of a job is needed while the job waits and while it is worked on. -/
def Kept (l : Ledger J) (a : Nat) : Prop :=
  a ∈ l.waiting ∨ ∃ i, l.stage a = some (.held i) ∨ l.stage a = some (.running i)

theorem notMem_waiting_of_stage (h : Accounts acts l) {a : Nat} {st : Stage} (ha : l.stage a = some st) :
    a ∉ l.waiting :=
  fun hw => absurd (h.lt_taken ha) (Nat.not_lt.mpr (mem_waiting.mp hw).2.1)

end Ledger
