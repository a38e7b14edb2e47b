import Mathlib.Data.List.Induction

/-! Runs of a labelled step relation, and the two ways invariants are proved about them. -/
namespace Runs
variable {S L : Type*}

/-- A run from one state to another, with the labels of its steps in order. -/
inductive Run (step : S → L → S → Prop) (s : S) : List L → S → Prop
  | nil : Run step s [] s
  | snoc {ls : List L} {t u : S} {l : L} (prior : Run step s ls t) (last : step t l u) : Run step s (ls ++ [l]) u

variable {step : S → L → S → Prop} {s t u : S} {ls ls' : List L}

theorem Run.single {l : L} (h : step s l t) : Run step s [l] t := Run.nil.snoc h

theorem Run.trans (h : Run step s ls t) (h' : Run step t ls' u) : Run step s (ls ++ ls') u := by
  induction h' with
  | nil => simpa using h
  | snoc _ last ih =>
    rw [← List.append_assoc]
    exact ih.snoc last

theorem Run.of_snoc {l : L} (h : Run step s (ls ++ [l]) u) : ∃ t, Run step s ls t ∧ step t l u := by
  generalize hall : ls ++ [l] = all at h
  cases h with
  | nil => simp at hall
  | snoc prior last =>
    obtain ⟨rfl, hlast⟩ := List.append_inj' hall rfl
    obtain rfl := List.singleton_inj.mp hlast
    exact ⟨_, prior, last⟩

/-- A run can be cut at every label. -/
theorem Run.split (h : Run step s (ls ++ ls') u) : ∃ t, Run step s ls t ∧ Run step t ls' u := by
  induction ls' using List.reverseRecOn generalizing u with
  | nil => exact ⟨u, by simpa using h, .nil⟩
  | append_singleton ls' l ih =>
    rw [← List.append_assoc] at h
    obtain ⟨v, hprior, hlast⟩ := h.of_snoc
    obtain ⟨t, hleft, hright⟩ := ih hprior
    exact ⟨t, hleft, hright.snoc hlast⟩

/-- What every step keeps holds of every state reached. -/
theorem Run.invariant {P : S → Prop} (hstep : ∀ t l u, P t → step t l u → P u) (h0 : P s) (h : Run step s ls t) :
    P t := by
  induction h with
  | nil => exact h0
  | snoc _ last ih => exact hstep _ _ _ ih last

/-- The same for a property of the labels so far and the state. -/
theorem Run.history {P : List L → S → Prop} (hstep : ∀ ls t l u, P ls t → step t l u → P (ls ++ [l]) u)
    (h0 : P [] s) (h : Run step s ls t) : P ls t := by
  induction h with
  | nil => exact h0
  | snoc _ last ih => exact hstep _ _ _ _ ih last

/-- Steps of one relation that are steps of another. -/
theorem Run.mono {step' : S → L → S → Prop} (hle : ∀ t l u, step t l u → step' t l u) (h : Run step s ls t) :
    Run step' s ls t := by
  induction h with
  | nil => exact .nil
  | snoc _ last ih => exact ih.snoc (hle _ _ _ last)

/-- Every step of a run keeps to a condition on the state before it and its label. -/
def Restrict (guard : S → L → Prop) (step : S → L → S → Prop) : S → L → S → Prop :=
  fun t l u => guard t l ∧ step t l u

theorem Run.ofRestrict {guard : S → L → Prop} (h : Run (Restrict guard step) s ls t) : Run step s ls t :=
  h.mono fun _ _ _ hstep => hstep.2

/-- A condition that every label of a run meets in every state. -/
theorem Run.restrict {guard : S → L → Prop} (hguard : ∀ l ∈ ls, ∀ t, guard t l) (h : Run step s ls t) :
    Run (Restrict guard step) s ls t := by
  induction h with
  | nil => exact .nil
  | @snoc ls t u l _ last ih =>
    obtain ⟨hprior, hlast⟩ := List.forall_mem_append.mp hguard
    exact (ih hprior).snoc ⟨hlast l (List.mem_singleton_self l) _, last⟩

section Histories
/-! A machine that takes every call has one run for each list of calls, its history. -/
variable {Guard : List L → L → Prop} {Good : List L → Prop}

/-- Every call meets a condition on itself and on the calls before it. -/
def Obeys (Guard : List L → L → Prop) (calls : List L) : Prop := ∀ done l, done ++ [l] <+: calls → Guard done l

/-- A property of the history after every call. -/
def Throughout (Good : List L → Prop) (calls : List L) : Prop := ∀ done, done <+: calls → Good done

theorem Obeys.throughout (h0 : Good []) (hstep : ∀ done l, Good done → Guard done l → Good (done ++ [l]))
    {calls : List L} (h : Obeys Guard calls) : Throughout Good calls := by
  intro done hdone
  induction done using List.reverseRecOn with
  | nil => exact h0
  | append_singleton done l ih => exact hstep done l (ih ((List.prefix_append done [l]).trans hdone)) (h done l hdone)

theorem obeys_nil : Obeys Guard [] := by
  intro done l h
  exact absurd (List.prefix_nil.mp h) (List.append_ne_nil_of_right_ne_nil done (List.cons_ne_nil l []))

theorem Obeys.concat {calls : List L} {l : L} (h : Obeys Guard calls) (hl : Guard calls l) :
    Obeys Guard (calls ++ [l]) := by
  intro done l' hdone
  rcases List.prefix_concat_iff.mp hdone with heq | hdone
  · obtain ⟨rfl, hlast⟩ := List.append_inj' heq rfl
    rwa [List.singleton_inj.mp hlast]
  · exact h done l' hdone

/-- Where the condition is what a call needs to keep the property, it is exact for whole histories. -/
theorem obeys_iff_throughout (h0 : Good []) (hstep : ∀ done l, Good done → (Guard done l ↔ Good (done ++ [l])))
    (calls : List L) : Obeys Guard calls ↔ Throughout Good calls := by
  constructor
  · intro h
    exact h.throughout h0 fun done l hgood => (hstep done l hgood).mp
  · intro h done l hdone
    apply (hstep done l (h done ((List.prefix_append done [l]).trans hdone))).mpr
    exact h _ hdone

end Histories
end Runs
