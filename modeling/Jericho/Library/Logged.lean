import Mathlib.Control.Basic

/-! Computations that write down what they do, up to the place where they fail: what a computation
computes does not depend on it, and a condition on what is written down goes from part to part. -/
namespace Logging

/-- What was done, and what came of it. -/
structure Logged (L ε α : Type*) where
  log : List L
  result : Except ε α

variable {L ε α β : Type}

def record (ls : List L) : Logged L ε Unit := ⟨ls, .ok ()⟩

/-- A computation that does nothing that is written down. -/
def lift (x : Except ε α) : Logged L ε α := ⟨[], x⟩

instance : Monad (Logged L ε) where
  pure a := ⟨[], .ok a⟩
  bind x f := match x.result with
    | .error e => ⟨x.log, .error e⟩
    | .ok a => ⟨x.log ++ (f a).log, (f a).result⟩

variable {x : Logged L ε α} {f : α → Logged L ε β} {a : α} {b : β} {e : ε} {P : L → Prop}

@[simp] theorem result_pure : (pure a : Logged L ε α).result = .ok a := rfl

@[simp] theorem result_record (ls : List L) : (record ls : Logged L ε Unit).result = .ok () := rfl

@[simp] theorem result_lift (y : Except ε α) : (lift y : Logged L ε α).result = y := rfl

@[simp] theorem result_bind : (x >>= f).result = x.result >>= fun a => (f a).result := by
  obtain ⟨log, result⟩ := x
  cases result with
  | error e => rfl
  | ok a => rfl

theorem bind_of_ok (h : x.result = .ok a) : x >>= f = ⟨x.log ++ (f a).log, (f a).result⟩ := by
  obtain ⟨log, result⟩ := x
  cases h
  rfl

theorem bind_of_error (h : x.result = .error e) : x >>= f = ⟨x.log, .error e⟩ := by
  obtain ⟨log, result⟩ := x
  cases h
  rfl

/-- What two parts come to is what the second one makes of what the first one came to. -/
theorem result_bind_eq_ok : (x >>= f).result = .ok b ↔ ∃ a, x.result = .ok a ∧ (f a).result = .ok b := by
  cases h : x.result with
  | error e =>
    rw [bind_of_error h]
    constructor
    · intro heq
      cases heq
    · rintro ⟨a, heq, -⟩
      cases heq
  | ok a =>
    rw [bind_of_ok h]
    constructor
    · exact fun heq => ⟨a, rfl, heq⟩
    · rintro ⟨a', heq, hb⟩
      obtain rfl := Except.ok.inj heq
      exact hb

/-- Everything written down meets a condition. -/
def Keeps (P : L → Prop) (x : Logged L ε α) : Prop := ∀ l ∈ x.log, P l

@[simp] theorem keeps_pure : Keeps P (pure a : Logged L ε α) := fun _ h => absurd h List.not_mem_nil

@[simp] theorem keeps_lift (y : Except ε α) : Keeps P (lift y : Logged L ε α) := fun _ h => absurd h List.not_mem_nil

@[simp] theorem keeps_record (ls : List L) : Keeps P (record ls : Logged L ε Unit) ↔ ∀ l ∈ ls, P l := Iff.rfl

/-- The second part counts only if there is one. -/
theorem keeps_bind : Keeps P (x >>= f) ↔ Keeps P x ∧ ∀ a, x.result = .ok a → Keeps P (f a) := by
  unfold Keeps
  cases h : x.result with
  | error e =>
    rw [bind_of_error h]
    refine (and_iff_left ?_).symm
    intro a heq
    cases heq
  | ok a =>
    rw [bind_of_ok h, List.forall_mem_append]
    refine and_congr_right fun _ => ?_
    constructor
    · intro hall a' heq
      obtain rfl := Except.ok.inj heq
      exact hall
    · exact fun hall => hall a rfl

/-- Where the first part comes to one thing if it meets the condition, the second part is known. -/
theorem keeps_bind_iff {A : Prop} (hx : Keeps P x ↔ A) (hok : A → x.result = .ok a) :
    Keeps P (x >>= f) ↔ A ∧ Keeps P (f a) := by
  rw [keeps_bind, hx]
  refine and_congr_right fun hA => ?_
  rw [hok hA]
  constructor
  · exact fun hall => hall a rfl
  · intro hkeeps a' heq
    obtain rfl := Except.ok.inj heq
    exact hkeeps

end Logging
