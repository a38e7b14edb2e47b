import Mathlib.Data.List.Pairwise
import Mathlib.Order.Lattice

/-! Counts kept in a list that is sorted by its keys. -/
namespace Tally
variable {α β : Type*} [LinearOrder β] {key : α → β}

/-- One more of a name, at its place in the order. -/
def bump (key : α → β) (a : α) : List (α × Int) → List (α × Int)
  | [] => [(a, 1)]
  | e :: rest =>
    if key a < key e.1 then (a, 1) :: e :: rest
    else if key a = key e.1 then (e.1, e.2 + 1) :: rest
    else e :: bump key a rest

/-- One less of a name, wherever it stands. -/
def lower [DecidableEq α] (a : α) (l : List (α × Int)) : List (α × Int) :=
  l.map fun e => if e.1 = a then (e.1, e.2 - 1) else e

/-- The keys increase strictly. -/
def Sorted (key : α → β) (l : List (α × Int)) : Prop := l.Pairwise fun e f => key e.1 < key f.1

/-- A name goes between the smaller and the greater ones, or is counted where it stands. -/
theorem bump_cases (a : α) {l : List (α × Int)} (hl : Sorted key l) :
    (∃ front back, l = front ++ back ∧ bump key a l = front ++ (a, 1) :: back ∧
        (∀ e ∈ front, key e.1 < key a) ∧ ∀ e ∈ back, key a < key e.1) ∨
      ∃ front e back, l = front ++ e :: back ∧ bump key a l = front ++ (e.1, e.2 + 1) :: back ∧ key e.1 = key a := by
  induction l with
  | nil => exact .inl ⟨[], [], rfl, rfl, by simp, by simp⟩
  | cons e rest ih =>
    obtain ⟨hbelow, hrest⟩ := List.pairwise_cons.mp hl
    unfold bump
    rcases lt_trichotomy (key a) (key e.1) with hlt | heq | hgt
    · refine .inl ⟨[], e :: rest, rfl, if_pos hlt, by simp, ?_⟩
      exact List.forall_mem_cons.mpr ⟨hlt, fun f hf => hlt.trans (hbelow f hf)⟩
    · refine .inr ⟨[], e, rest, rfl, ?_, heq.symm⟩
      rw [if_neg (not_lt_of_ge heq.ge), if_pos heq]
      rfl
    · rw [if_neg hgt.not_gt, if_neg hgt.ne']
      rcases ih hrest with ⟨front, back, hl', hbump, hfront, hback⟩ | ⟨front, f, back, hl', hbump, hkey⟩
      · refine .inl ⟨e :: front, back, by rw [hl']; rfl, by rw [hbump]; rfl, ?_, hback⟩
        exact List.forall_mem_cons.mpr ⟨hgt, hfront⟩
      · exact .inr ⟨e :: front, f, back, by rw [hl']; rfl, by rw [hbump]; rfl, hkey⟩

theorem Sorted.bump {l : List (α × Int)} (hl : Sorted key l) (a : α) : Sorted key (bump key a l) := by
  rcases bump_cases a hl with ⟨front, back, rfl, hbump, hfront, hback⟩ | ⟨front, e, back, rfl, hbump, -⟩
  · rw [hbump]
    obtain ⟨hf, hb, hboth⟩ := List.pairwise_append.mp hl
    refine List.pairwise_append.mpr ⟨hf, List.pairwise_cons.mpr ⟨hback, hb⟩, ?_⟩
    intro e he
    exact List.forall_mem_cons.mpr ⟨hfront e he, hboth e he⟩
  · rw [hbump]
    obtain ⟨hf, hb, hboth⟩ := List.pairwise_append.mp hl
    obtain ⟨hbelow, hb⟩ := List.pairwise_cons.mp hb
    refine List.pairwise_append.mpr ⟨hf, List.pairwise_cons.mpr ⟨hbelow, hb⟩, ?_⟩
    intro f hfmem
    obtain ⟨he, hrest⟩ := List.forall_mem_cons.mp (hboth f hfmem)
    exact List.forall_mem_cons.mpr ⟨he, hrest⟩

/-- Each name stands once in a sorted list. -/
theorem Sorted.nodup {l : List (α × Int)} (hl : Sorted key l) : (l.map Prod.fst).Nodup := by
  refine List.pairwise_map.mpr (hl.imp ?_)
  intro e f hlt heq
  rw [heq] at hlt
  exact hlt.false

theorem Sorted.lower [DecidableEq α] {l : List (α × Int)} (hl : Sorted key l) (a : α) : Sorted key (lower a l) := by
  refine List.pairwise_map.mpr (hl.imp ?_)
  intro e f hlt
  split_ifs <;> exact hlt

@[simp]
theorem names_lower [DecidableEq α] (a : α) (l : List (α × Int)) : (lower a l).map Prod.fst = l.map Prod.fst := by
  unfold Tally.lower
  rw [List.map_map]
  refine List.map_congr_left fun e _ => ?_
  dsimp only [Function.comp]
  split_ifs <;> rfl

theorem mem_names_bump (hkey : Function.Injective key) {l : List (α × Int)} (hl : Sorted key l) (a b : α) :
    b ∈ (bump key a l).map Prod.fst ↔ b = a ∨ b ∈ l.map Prod.fst := by
  rcases bump_cases a hl with ⟨front, back, rfl, hbump, -⟩ | ⟨front, e, back, rfl, hbump, heq⟩
  · rw [hbump]
    simp only [List.map_append, List.map_cons, List.mem_append, List.mem_cons]
    exact or_left_comm
  · obtain rfl := hkey heq
    rw [hbump]
    simp only [List.map_append, List.map_cons, List.mem_append, List.mem_cons]
    exact ⟨Or.inr, fun h => h.elim (fun heq => .inr (.inl heq)) id⟩

end Tally
