import Mathlib.Data.List.Perm.Subperm
import Mathlib.Data.List.Range
import Mathlib.Data.Option.Basic

/-! A heap whose addresses are given out in order and never twice. -/

/-- Cells of a type. Beyond `next` nothing was allocated yet. -/
structure Heap (α : Type*) where
  cell : Nat → Option α
  next : Nat
  fresh : ∀ a, next ≤ a → cell a = none

namespace Heap
variable {α : Type*}

def empty : Heap α := ⟨fun _ => none, 0, fun _ _ => rfl⟩

/-- Reading through a pointer, which may be null or dangle. -/
def read (h : Heap α) (p : Option Nat) : Option α := p.bind h.cell

/-- A new cell, at the address `next`. -/
def alloc (h : Heap α) (x : α) : Heap α where
  cell a := if a = h.next then some x else h.cell a
  next := h.next + 1
  fresh a ha := by rw [if_neg (by omega), h.fresh a (by omega)]

/-- Writing through a pointer to a live cell. -/
def write (h : Heap α) (p : Option Nat) (x : α) : Heap α where
  cell a := if p = some a ∧ (h.cell a).isSome then some x else h.cell a
  next := h.next
  fresh a ha := by simp [h.fresh a ha]

/-- Deleting what the pointers of a list point to. -/
def free (h : Heap α) (ps : List (Option Nat)) : Heap α where
  cell a := if some a ∈ ps then none else h.cell a
  next := h.next
  fresh a ha := by simp [h.fresh a ha]

@[simp] theorem alloc_next (h : Heap α) (x : α) : (h.alloc x).next = h.next + 1 := rfl
@[simp] theorem write_next (h : Heap α) (p : Option Nat) (x : α) : (h.write p x).next = h.next := rfl
@[simp] theorem free_next (h : Heap α) (ps : List (Option Nat)) : (h.free ps).next = h.next := rfl

theorem read_eq_some {h : Heap α} {p : Option Nat} {x : α} :
    h.read p = some x ↔ ∃ a, p = some a ∧ h.cell a = some x :=
  Option.bind_eq_some_iff

theorem lt_next {h : Heap α} {a : Nat} (ha : (h.cell a).isSome) : a < h.next := by
  by_contra hge
  rw [h.fresh a (Nat.le_of_not_lt hge)] at ha
  exact absurd ha Bool.false_ne_true

/-- There are no more live cells than were allocated. -/
theorem length_le_next {h : Heap α} {as : List Nat} (hnodup : as.Nodup) (hlive : ∀ a ∈ as, (h.cell a).isSome) :
    as.length ≤ h.next := by
  have hsub : as ⊆ List.range h.next := fun a ha => List.mem_range.mpr (lt_next (hlive a ha))
  simpa using (hnodup.subperm hsub).length_le

@[simp] theorem alloc_cell_next (h : Heap α) (x : α) : (h.alloc x).cell h.next = some x := if_pos rfl

theorem alloc_read_next (h : Heap α) (x : α) : (h.alloc x).read (some h.next) = some x := if_pos rfl

theorem alloc_cell_of_ne {h : Heap α} {a : Nat} (ha : a ≠ h.next) (x : α) : (h.alloc x).cell a = h.cell a :=
  if_neg ha

theorem alloc_cell_of_lt {h : Heap α} {a : Nat} (ha : a < h.next) (x : α) : (h.alloc x).cell a = h.cell a :=
  alloc_cell_of_ne (Nat.ne_of_lt ha) x

theorem write_cell_self {h : Heap α} {a : Nat} (ha : (h.cell a).isSome) (x : α) :
    (h.write (some a) x).cell a = some x :=
  if_pos ⟨rfl, ha⟩

theorem write_cell_of_ne {h : Heap α} {p : Option Nat} {a : Nat} (ha : p ≠ some a) (x : α) :
    (h.write p x).cell a = h.cell a :=
  if_neg fun hp => ha hp.1

theorem write_cell {h : Heap α} {a : Nat} (ha : (h.cell a).isSome) (x : α) (b : Nat) :
    (h.write (some a) x).cell b = if b = a then some x else h.cell b := by
  by_cases hb : b = a
  · rw [if_pos hb, hb, write_cell_self ha]
  · rw [if_neg hb, write_cell_of_ne (by simpa using Ne.symm hb)]

theorem alloc_cell (h : Heap α) (x : α) (b : Nat) : (h.alloc x).cell b = if b = h.next then some x else h.cell b := rfl

/-- Writing neither makes a cell live nor frees one. -/
@[simp] theorem isSome_write (h : Heap α) (p : Option Nat) (x : α) (a : Nat) :
    ((h.write p x).cell a).isSome = (h.cell a).isSome := by
  by_cases hp : p = some a ∧ (h.cell a).isSome
  · have hw : (h.write p x).cell a = some x := if_pos hp
    rw [hw, hp.2]
    rfl
  · have hw : (h.write p x).cell a = h.cell a := if_neg hp
    rw [hw]

theorem free_cell_of_notMem {h : Heap α} {ps : List (Option Nat)} {a : Nat} (ha : some a ∉ ps) :
    (h.free ps).cell a = h.cell a :=
  if_neg ha

theorem free_cell_of_mem {h : Heap α} {ps : List (Option Nat)} {a : Nat} (ha : some a ∈ ps) :
    (h.free ps).cell a = none :=
  if_pos ha

theorem cell_of_free {h : Heap α} {ps : List (Option Nat)} {a : Nat} {x : α} (ha : (h.free ps).cell a = some x) :
    h.cell a = some x := by
  by_cases hm : some a ∈ ps
  · rw [free_cell_of_mem hm] at ha
    cases ha
  · rwa [free_cell_of_notMem hm] at ha

end Heap
