import Jericho.Library.Heap
import Mathlib.Data.List.Nodup

/-! A list linked both ways through the cells of a heap. -/
namespace Heap
variable {α γ : Type*} {val : α → γ} {prev next : α → Option Nat} {h h' : Heap α}

/-- The address of the first node, or what stands behind an empty list. -/
def firstOr (after : Option Nat) : List (Nat × γ) → Option Nat
  | [] => after
  | node :: _ => some node.1

/-- The address of the last node, or what stands before an empty list. -/
def lastOr (before : Option Nat) : List (Nat × γ) → Option Nat
  | [] => before
  | node :: rest => lastOr (some node.1) rest

@[simp] theorem firstOr_nil (p : Option Nat) : firstOr p ([] : List (Nat × γ)) = p := rfl
@[simp] theorem firstOr_cons (p : Option Nat) (node : Nat × γ) (rest : List (Nat × γ)) :
    firstOr p (node :: rest) = some node.1 := rfl
@[simp] theorem lastOr_nil (p : Option Nat) : lastOr p ([] : List (Nat × γ)) = p := rfl
@[simp] theorem lastOr_cons (p : Option Nat) (node : Nat × γ) (rest : List (Nat × γ)) :
    lastOr p (node :: rest) = lastOr (some node.1) rest := rfl

theorem firstOr_append (p : Option Nat) (xs ys : List (Nat × γ)) :
    firstOr p (xs ++ ys) = firstOr (firstOr p ys) xs := by
  cases xs <;> rfl

@[simp]
theorem lastOr_concat (p : Option Nat) (xs : List (Nat × γ)) (node : Nat × γ) :
    lastOr p (xs ++ [node]) = some node.1 := by
  induction xs generalizing p with
  | nil => rfl
  | cons x xs ih => exact ih (some x.1)

theorem mem_of_firstOr {ys : List (Nat × γ)} {a : Nat} (hfirst : firstOr none ys = some a) : a ∈ ys.map Prod.fst := by
  cases ys with
  | nil => cases hfirst
  | cons node ys =>
    obtain rfl := Option.some.inj hfirst
    exact List.mem_cons_self

theorem mem_of_lastOr_of_ne_nil {p : Option Nat} {xs : List (Nat × γ)} {a : Nat} (hlast : lastOr p xs = some a)
    (hne : xs ≠ []) : a ∈ xs.map Prod.fst := by
  rcases List.eq_nil_or_concat xs with rfl | ⟨xs, node, rfl⟩
  · exact absurd rfl hne
  · rw [List.concat_eq_append, lastOr_concat] at hlast
    obtain rfl := Option.some.inj hlast
    simp

theorem mem_of_lastOr {xs : List (Nat × γ)} {a : Nat} (hlast : lastOr none xs = some a) : a ∈ xs.map Prod.fst := by
  refine mem_of_lastOr_of_ne_nil hlast ?_
  rintro rfl
  cases hlast

/-- The nodes follow each other, linked both ways, from one pointer to another. -/
def Links (val : α → γ) (prev next : α → Option Nat) (h : Heap α) :
    Option Nat → List (Nat × γ) → Option Nat → Prop
  | _, [], _ => True
  | before, node :: rest, after =>
    (∃ x, h.cell node.1 = some x ∧ val x = node.2 ∧ prev x = before ∧ next x = firstOr after rest) ∧
      Links val prev next h (some node.1) rest after

variable {before after : Option Nat} {xs ys : List (Nat × γ)}

theorem Links.cons_iff {node : Nat × γ} : Links val prev next h before (node :: xs) after ↔
    (∃ x, h.cell node.1 = some x ∧ val x = node.2 ∧ prev x = before ∧ next x = firstOr after xs) ∧
      Links val prev next h (some node.1) xs after :=
  Iff.rfl

/-- The links of two lists in a row, and those of the seam. -/
theorem links_append : Links val prev next h before (xs ++ ys) after ↔
    Links val prev next h before xs (firstOr after ys) ∧ Links val prev next h (lastOr before xs) ys after := by
  induction xs generalizing before with
  | nil => exact (iff_of_eq (true_and _)).symm
  | cons node xs ih =>
    rw [List.cons_append, Links.cons_iff, Links.cons_iff, ih, lastOr_cons, firstOr_append, and_assoc]

theorem Links.live (hl : Links val prev next h before xs after) : ∀ node ∈ xs, (h.cell node.1).isSome := by
  induction xs generalizing before with
  | nil => exact fun node hnode => absurd hnode List.not_mem_nil
  | cons node xs ih =>
    obtain ⟨⟨x, hx, -⟩, hrest⟩ := hl
    exact List.forall_mem_cons.mpr ⟨by rw [hx]; rfl, ih hrest⟩

/-- Links depend on what the cells of their own nodes hold. -/
theorem Links.congr (hl : Links val prev next h before xs after)
    (hcell : ∀ node ∈ xs, ∀ x, h.cell node.1 = some x → ∃ y, h'.cell node.1 = some y ∧ val y = val x ∧
      prev y = prev x ∧ next y = next x) : Links val prev next h' before xs after := by
  induction xs generalizing before with
  | nil => trivial
  | cons node xs ih =>
    obtain ⟨⟨x, hx, hval, hprev, hnext⟩, hrest⟩ := hl
    obtain ⟨hfirst, hxs⟩ := List.forall_mem_cons.mp hcell
    obtain ⟨y, hy, hyval, hyprev, hynext⟩ := hfirst x hx
    exact ⟨⟨y, hy, hyval.trans hval, hyprev.trans hprev, hynext.trans hnext⟩, ih hrest hxs⟩

/-- A list whose last node is linked to another place behind it. -/
theorem Links.relinkLast {after' : Option Nat} (hl : Links val prev next h before xs after)
    (hnodup : (xs.map Prod.fst).Nodup)
    (hcell : ∀ node ∈ xs, ∀ x, h.cell node.1 = some x → ∃ y, h'.cell node.1 = some y ∧ val y = val x ∧
      prev y = prev x ∧ next y = if lastOr before xs = some node.1 then after' else next x) :
    Links val prev next h' before xs after' := by
  induction xs generalizing before with
  | nil => trivial
  | cons node xs ih =>
    obtain ⟨⟨x, hx, hval, hprev, hnext⟩, hrest⟩ := hl
    obtain ⟨hfirst, hxs⟩ := List.forall_mem_cons.mp hcell
    obtain ⟨hnew, hnodup⟩ := List.nodup_cons.mp hnodup
    obtain ⟨y, hy, hyval, hyprev, hynext⟩ := hfirst x hx
    refine ⟨⟨y, hy, hyval.trans hval, hyprev.trans hprev, ?_⟩, ih hrest hnodup hxs⟩
    cases xs with
    | nil => simpa using hynext
    | cons second rest =>
      have hother : lastOr before (node :: second :: rest) ≠ some node.1 := by
        intro hlast
        exact hnew (mem_of_lastOr_of_ne_nil (p := some node.1) hlast (List.cons_ne_nil second rest))
      rw [hynext, if_neg hother, hnext]
      rfl

/-- A list whose first node is linked to another place before it. -/
theorem Links.relinkFirst {before' : Option Nat} (hl : Links val prev next h before xs after)
    (hnodup : (xs.map Prod.fst).Nodup)
    (hcell : ∀ node ∈ xs, ∀ x, h.cell node.1 = some x → ∃ y, h'.cell node.1 = some y ∧ val y = val x ∧
      next y = next x ∧ prev y = if firstOr after xs = some node.1 then before' else prev x) :
    Links val prev next h' before' xs after := by
  cases xs with
  | nil => trivial
  | cons node xs =>
    obtain ⟨⟨x, hx, hval, -, hnext⟩, hrest⟩ := hl
    obtain ⟨hfirst, hxs⟩ := List.forall_mem_cons.mp hcell
    obtain ⟨hnew, -⟩ := List.nodup_cons.mp hnodup
    obtain ⟨y, hy, hyval, hynext, hyprev⟩ := hfirst x hx
    refine ⟨⟨y, hy, hyval.trans hval, by simpa using hyprev, hynext.trans hnext⟩, ?_⟩
    refine hrest.congr ?_
    intro other hother z hz
    have hne : firstOr after (node :: xs) ≠ some other.1 := by
      intro heq
      exact hnew (List.mem_map.mpr ⟨other, hother, (Option.some.inj heq).symm⟩)
    obtain ⟨w, hw, hwval, hwnext, hwprev⟩ := hxs other hother z hz
    rw [if_neg hne] at hwprev
    exact ⟨w, hw, hwval, hwprev, hwnext⟩

/-- A new node between two lists. Its neighbours are linked to it, all other cells stay. -/
theorem Links.insert (hl : Links val prev next h none (xs ++ ys) none) (hnodup : ((xs ++ ys).map Prod.fst).Nodup)
    {a : Nat} {v : γ} {y : α} (hnew : h'.cell a = some y) (hval : val y = v) (hprev : prev y = lastOr none xs)
    (hnext : next y = firstOr none ys)
    (hcell : ∀ node ∈ xs ++ ys, ∀ x, h.cell node.1 = some x → ∃ z, h'.cell node.1 = some z ∧ val z = val x ∧
      (prev z = if firstOr none ys = some node.1 then some a else prev x) ∧
      next z = if lastOr none xs = some node.1 then some a else next x) :
    Links val prev next h' none (xs ++ (a, v) :: ys) none := by
  obtain ⟨hxs, hys⟩ := links_append.mp hl
  rw [List.map_append] at hnodup
  obtain ⟨hnodupx, hnodupy, hdisjoint⟩ := List.nodup_append'.mp hnodup
  refine links_append.mpr ⟨hxs.relinkLast hnodupx ?_, ⟨y, hnew, hval, hprev, hnext⟩, hys.relinkFirst hnodupy ?_⟩
  · intro node hnode x hx
    obtain ⟨z, hz, hzval, hzprev, hznext⟩ := hcell node (List.mem_append_left _ hnode) x hx
    have hother : firstOr none ys ≠ some node.1 := fun hfirst =>
      hdisjoint (List.mem_map_of_mem hnode) (mem_of_firstOr hfirst)
    rw [if_neg hother] at hzprev
    exact ⟨z, hz, hzval, hzprev, hznext⟩
  · intro node hnode x hx
    obtain ⟨z, hz, hzval, hzprev, hznext⟩ := hcell node (List.mem_append_right _ hnode) x hx
    have hother : lastOr none xs ≠ some node.1 := fun hlast =>
      hdisjoint (mem_of_lastOr hlast) (List.mem_map_of_mem hnode)
    rw [if_neg hother] at hznext
    exact ⟨z, hz, hzval, hznext, hzprev⟩

/-- Another value in a node. -/
theorem Links.update {node : Nat × γ} {v : γ} (hl : Links val prev next h none (xs ++ node :: ys) none)
    (hnodup : ((xs ++ node :: ys).map Prod.fst).Nodup)
    (hnode : ∀ x, h.cell node.1 = some x → ∃ z, h'.cell node.1 = some z ∧ val z = v ∧ prev z = prev x ∧ next z = next x)
    (hcell : ∀ b, b ≠ node.1 → h'.cell b = h.cell b) :
    Links val prev next h' none (xs ++ (node.1, v) :: ys) none := by
  obtain ⟨hxs, ⟨x, hx, -, hprev, hnext⟩, hys⟩ := links_append.mp hl
  obtain ⟨z, hz, hzval, hzprev, hznext⟩ := hnode x hx
  rw [List.map_append, List.map_cons] at hnodup
  obtain ⟨-, hnodupy, hdisjoint⟩ := List.nodup_append'.mp hnodup
  have hsame : ∀ other ∈ xs ++ ys, h'.cell other.1 = h.cell other.1 := by
    intro other hother
    refine hcell other.1 ?_
    intro heq
    rcases List.mem_append.mp hother with hother | hother
    · exact hdisjoint (List.mem_map_of_mem hother) (heq ▸ List.mem_cons_self)
    · exact (List.nodup_cons.mp hnodupy).1 (heq ▸ List.mem_map_of_mem hother)
  refine links_append.mpr ⟨hxs.congr ?_, ⟨z, hz, hzval, hzprev.trans hprev, hznext.trans hnext⟩, hys.congr ?_⟩
  · intro other hother w hw
    exact ⟨w, (hsame other (List.mem_append_left _ hother)).trans hw, rfl, rfl, rfl⟩
  · intro other hother w hw
    exact ⟨w, (hsame other (List.mem_append_right _ hother)).trans hw, rfl, rfl, rfl⟩

end Heap
