import Jericho.Library.Runs
import Mathlib.Data.List.Basic

/-! A server that passes over its clients in order, again and again. A client may leave when it is served,
and the pass may stop there. New clients come to the front. -/
namespace InterruptedPass
open Runs

variable {α V : Type*}

/-- A pass over the clients: who is served with which verdict, and who is left. -/
inductive Pass (ready : α → Prop) (stays : α → V → Prop) (ends : V → Prop) : List α → List (α × V) → List α → Prop
  | nil : Pass ready stays ends [] [] []
  | skip {a : α} {as left : List α} {served : List (α × V)} (hready : ¬ ready a)
      (rest : Pass ready stays ends as served left) : Pass ready stays ends (a :: as) served (a :: left)
  | stay {a : α} {v : V} {as left : List α} {served : List (α × V)} (hready : ready a) (hends : ¬ ends v)
      (hstays : stays a v) (rest : Pass ready stays ends as served left) :
      Pass ready stays ends (a :: as) ((a, v) :: served) (a :: left)
  | leave {a : α} {v : V} {as left : List α} {served : List (α × V)} (hready : ready a) (hends : ¬ ends v)
      (hstays : ¬ stays a v) (rest : Pass ready stays ends as served left) :
      Pass ready stays ends (a :: as) ((a, v) :: served) left
  | stop {a : α} {v : V} {as : List α} (hready : ready a) (hends : ends v) :
      Pass ready stays ends (a :: as) [(a, v)] as

section Pass
variable {ready : α → Prop} {stays : α → V → Prop} {ends : V → Prop} {as left : List α} {served : List (α × V)} {a : α}
  {v : V}

theorem Pass.left_sublist (h : Pass ready stays ends as served left) : left.Sublist as := by
  induction h with
  | nil => exact List.Sublist.refl []
  | skip _ _ ih => exact ih.cons_cons _
  | stay _ _ _ _ ih => exact ih.cons_cons _
  | leave _ _ _ _ ih => exact ih.cons _
  | stop => exact List.sublist_cons_self _ _

theorem Pass.served_sublist (h : Pass ready stays ends as served left) : (served.map Prod.fst).Sublist as := by
  induction h with
  | nil => exact List.Sublist.refl []
  | skip _ _ ih => exact ih.cons _
  | stay _ _ _ _ ih => exact ih.cons_cons _
  | leave _ _ _ _ ih => exact ih.cons_cons _
  | stop => exact (List.nil_sublist _).cons_cons _

theorem Pass.ready_of_served (h : Pass ready stays ends as served left) : ∀ x ∈ served, ready x.1 := by
  induction h with
  | nil => exact fun x hx => absurd hx List.not_mem_nil
  | skip _ _ ih => exact ih
  | stay hready _ _ _ ih => exact List.forall_mem_cons.mpr ⟨hready, ih⟩
  | leave hready _ _ _ ih => exact List.forall_mem_cons.mpr ⟨hready, ih⟩
  | stop hready _ => exact List.forall_mem_cons.mpr ⟨hready, fun x hx => absurd hx List.not_mem_nil⟩

/-- Who is not served is not lost. -/
theorem Pass.mem_left (h : Pass ready stays ends as served left) (ha : a ∈ as) (hnot : a ∉ served.map Prod.fst) :
    a ∈ left := by
  induction h with
  | nil => exact ha
  | skip _ _ ih =>
    rcases List.mem_cons.mp ha with rfl | ha
    · exact List.mem_cons_self
    · exact List.mem_cons_of_mem _ (ih ha hnot)
  | stay _ _ _ _ ih =>
    obtain ⟨hne, hnot⟩ := List.ne_and_not_mem_of_not_mem_cons hnot
    exact List.mem_cons_of_mem _ (ih ((List.mem_cons.mp ha).resolve_left hne) hnot)
  | leave _ _ _ _ ih =>
    obtain ⟨hne, hnot⟩ := List.ne_and_not_mem_of_not_mem_cons hnot
    exact ih ((List.mem_cons.mp ha).resolve_left hne) hnot
  | stop =>
    obtain ⟨hne, -⟩ := List.ne_and_not_mem_of_not_mem_cons hnot
    exact (List.mem_cons.mp ha).resolve_left hne

variable [DecidableEq α]

/-- Who is ready and is not served has moved up: somebody before it stopped the pass and is gone. -/
theorem Pass.moves_up (h : Pass ready stays ends as served left) (ha : a ∈ as) (hready : ready a)
    (hnot : a ∉ served.map Prod.fst) : left.idxOf a + 1 ≤ as.idxOf a := by
  induction h with
  | nil => exact absurd ha List.not_mem_nil
  | @skip b as left served hb rest ih =>
    have hne : b ≠ a := by
      rintro rfl
      exact hb hready
    have hrest := ih ((List.mem_cons.mp ha).resolve_left hne.symm) hnot
    rw [List.idxOf_cons_ne _ hne, List.idxOf_cons_ne _ hne]
    omega
  | stay _ _ _ _ ih =>
    obtain ⟨hne, hnot⟩ := List.ne_and_not_mem_of_not_mem_cons hnot
    have hrest := ih ((List.mem_cons.mp ha).resolve_left hne) hnot
    rw [List.idxOf_cons_ne _ (Ne.symm hne), List.idxOf_cons_ne _ (Ne.symm hne)]
    omega
  | leave _ _ _ _ ih =>
    obtain ⟨hne, hnot⟩ := List.ne_and_not_mem_of_not_mem_cons hnot
    have hrest := ih ((List.mem_cons.mp ha).resolve_left hne) hnot
    rw [List.idxOf_cons_ne _ (Ne.symm hne)]
    omega
  | stop =>
    obtain ⟨hne, -⟩ := List.ne_and_not_mem_of_not_mem_cons hnot
    exact Nat.le_of_eq (List.idxOf_cons_ne _ (Ne.symm hne)).symm

end Pass

/-- What happens in a round: a new client may come, and there is a pass. -/
structure Round (α V : Type*) where
  new : Option α
  ready : α → Prop
  stays : α → V → Prop
  served : List (α × V)

/-- The clients before and after a round. -/
def Turn (ends : V → Prop) (as : List α) (r : Round α V) (left : List α) : Prop :=
  Pass r.ready r.stays ends (r.new.toList ++ as) r.served left

section Waiting
variable [DecidableEq α] {ends : V → Prop} {as left : List α} {rs : List (Round α V)} {a : α}

/-- Whoever waits in every round of a run moves up by one in each, but for the new clients. -/
theorem waits (h : Run (Turn ends) as rs left) (ha : a ∈ as) (hnew : ∀ r ∈ rs, a ∉ r.new)
    (hready : ∀ r ∈ rs, r.ready a) (hnot : ∀ r ∈ rs, a ∉ r.served.map Prod.fst) :
    a ∈ left ∧ left.idxOf a + rs.length ≤ as.idxOf a + rs.countP (·.new.isSome) := by
  induction h with
  | nil => exact ⟨ha, Nat.le_refl _⟩
  | @snoc rs bs left r _ last ih =>
    obtain ⟨hnew, hnew'⟩ := List.forall_mem_append.mp hnew
    obtain ⟨hready, hready'⟩ := List.forall_mem_append.mp hready
    obtain ⟨hnot, hnot'⟩ := List.forall_mem_append.mp hnot
    obtain ⟨hmem, hle⟩ := ih hnew hready hnot
    have hmem' : a ∈ r.new.toList ++ bs := List.mem_append_right _ hmem
    have hserved := hnot' r (List.mem_singleton_self r)
    have hup := last.moves_up hmem' (hready' r (List.mem_singleton_self r)) hserved
    have hfront : (r.new.toList ++ bs).idxOf a = bs.idxOf a + if r.new.isSome then 1 else 0 := by
      cases hr : r.new with
      | none => rfl
      | some b =>
        have hne : b ≠ a := fun heq => hnew' r (List.mem_singleton_self r) (heq ▸ hr)
        exact List.idxOf_cons_ne bs hne
    refine ⟨last.mem_left hmem' hserved, ?_⟩
    rw [List.length_append, List.length_singleton, List.countP_append, List.countP_singleton]
    omega

end Waiting
end InterruptedPass
