import Jericho.Library.Heap
import Mathlib.Data.List.Basic

/-! A queue linked through the cells of a heap. -/
namespace Heap
variable {α : Type*} {next : α → Option Nat} {h h' : Heap α}

/-- The links from a pointer run through these cells and end after the last one. -/
def Chain (next : α → Option Nat) (h : Heap α) : Option Nat → List Nat → Prop
  | p, [] => p = none
  | p, a :: as => p = some a ∧ ∃ x, h.cell a = some x ∧ Chain next h (next x) as

theorem Chain.head_eq {p : Option Nat} {as : List Nat} (hc : Chain next h p as) : p = as.head? := by
  cases as with
  | nil => exact hc
  | cons a as => exact hc.1

theorem Chain.eq_nil_iff {p : Option Nat} {as : List Nat} (hc : Chain next h p as) : p = none ↔ as = [] := by
  rw [hc.head_eq, List.head?_eq_none_iff]

theorem Chain.live {p : Option Nat} {as : List Nat} (hc : Chain next h p as) : ∀ a ∈ as, (h.cell a).isSome := by
  induction as generalizing p with
  | nil => exact fun a ha => absurd ha List.not_mem_nil
  | cons a as ih =>
    obtain ⟨-, x, hx, hrest⟩ := hc
    exact List.forall_mem_cons.mpr ⟨by rw [hx]; rfl, ih hrest⟩

/-- A chain depends on its own cells only. -/
theorem Chain.congr {p : Option Nat} {as : List Nat} (hcell : ∀ a ∈ as, h'.cell a = h.cell a) (hc : Chain next h p as) :
    Chain next h' p as := by
  induction as generalizing p with
  | nil => exact hc
  | cons a as ih =>
    obtain ⟨hp, x, hx, hrest⟩ := hc
    obtain ⟨ha, has⟩ := List.forall_mem_cons.mp hcell
    exact ⟨hp, x, ha.trans hx, ih has hrest⟩

/-- From a later cell on it is a chain too. -/
theorem Chain.suffix {p : Option Nat} {as bs : List Nat} (hc : Chain next h p (as ++ bs)) : Chain next h bs.head? bs := by
  induction as generalizing p with
  | nil => exact hc.head_eq ▸ hc
  | cons a as ih =>
    obtain ⟨-, x, -, hrest⟩ := hc
    exact ih hrest

/-- There is one way to follow the links. -/
theorem Chain.unique {p : Option Nat} {as bs : List Nat} (hc : Chain next h p as) (hc' : Chain next h p bs) :
    as = bs := by
  induction as generalizing p bs with
  | nil => exact ((hc'.eq_nil_iff).mp hc).symm
  | cons a as ih =>
    obtain ⟨rfl, x, hx, hrest⟩ := hc
    cases bs with
    | nil => cases hc'
    | cons b bs =>
      obtain ⟨hb, y, hy, hrest'⟩ := hc'
      obtain rfl := Option.some.inj hb
      obtain rfl := Option.some.inj (hx.symm.trans hy)
      rw [ih hrest hrest']

/-- The last cell links to nothing. -/
theorem Chain.last {p : Option Nat} {as : List Nat} {z : Nat} (hc : Chain next h p (as ++ [z])) :
    ∃ x, h.cell z = some x ∧ next x = none := by
  induction as generalizing p with
  | nil =>
    obtain ⟨-, x, hx, hrest⟩ := hc
    exact ⟨x, hx, hrest⟩
  | cons a as ih =>
    obtain ⟨-, x, -, hrest⟩ := hc
    exact ih hrest

/-- Linking a new cell behind the last one makes the chain one longer. -/
theorem Chain.snoc {p : Option Nat} {as : List Nat} {z a : Nat} {x y : α} (hc : Chain next h p (as ++ [z]))
    (hnodup : z ∉ as) (hcell : ∀ b ∈ as, h'.cell b = h.cell b) (hlast : h'.cell z = some x) (hlink : next x = some a)
    (hnew : h'.cell a = some y) (hend : next y = none) : Chain next h' p (as ++ [z] ++ [a]) := by
  induction as generalizing p with
  | nil =>
    obtain ⟨hp, -⟩ := hc
    exact ⟨hp, x, hlast, hlink, y, hnew, hend⟩
  | cons b as ih =>
    obtain ⟨hp, w, hw, hrest⟩ := hc
    obtain ⟨hb, has⟩ := List.forall_mem_cons.mp hcell
    obtain ⟨-, hnodup⟩ := not_or.mp (mt List.mem_cons.mpr hnodup)
    exact ⟨hp, w, hb.trans hw, ih hrest hnodup has⟩

/-- A cell of a chain, and what it links to. -/
theorem Chain.cell {p : Option Nat} {as bs : List Nat} {a : Nat} (hc : Chain next h p (as ++ a :: bs)) :
    ∃ x, h.cell a = some x ∧ next x = bs.head? := by
  induction as generalizing p with
  | nil =>
    obtain ⟨-, x, hx, hrest⟩ := hc
    exact ⟨x, hx, hrest.head_eq⟩
  | cons b as ih =>
    obtain ⟨-, x, -, hrest⟩ := hc
    exact ih hrest

/-- A chain follows the links of its cells, whatever else they hold. -/
theorem Chain.relink {p : Option Nat} {as : List Nat} (hc : Chain next h p as)
    (hcell : ∀ a ∈ as, ∀ x, h.cell a = some x → ∃ y, h'.cell a = some y ∧ next y = next x) : Chain next h' p as := by
  induction as generalizing p with
  | nil => exact hc
  | cons a as ih =>
    obtain ⟨hp, x, hx, hrest⟩ := hc
    obtain ⟨ha, has⟩ := List.forall_mem_cons.mp hcell
    obtain ⟨y, hy, hnext⟩ := ha x hx
    refine ⟨hp, y, hy, ?_⟩
    rw [hnext]
    exact ih hrest has

/-- A cell is taken out behind another one, which is linked past it. -/
theorem Chain.unlink {p : Option Nat} {as bs : List Nat} {d a : Nat} (hc : Chain next h p (as ++ d :: a :: bs))
    (hnodup : (as ++ d :: a :: bs).Nodup)
    (hcell : ∀ b ∈ as ++ d :: bs, ∀ x, h.cell b = some x →
      ∃ y, h'.cell b = some y ∧ next y = if b = d then bs.head? else next x) :
    Chain next h' p (as ++ d :: bs) := by
  induction as generalizing p with
  | nil =>
    obtain ⟨hp, x, hx, -, y, hy, hrest⟩ := hc
    obtain ⟨hd, hbs⟩ := List.forall_mem_cons.mp hcell
    obtain ⟨z, hz, hnext⟩ := hd x hx
    rw [if_pos rfl, ← hrest.head_eq] at hnext
    refine ⟨hp, z, hz, ?_⟩
    rw [hnext]
    refine hrest.relink ?_
    intro b hb w hw
    obtain ⟨v, hv, hvnext⟩ := hbs b hb w hw
    have hne : b ≠ d := by
      rintro rfl
      exact (List.nodup_cons.mp hnodup).1 (List.mem_cons_of_mem a hb)
    rw [if_neg hne] at hvnext
    exact ⟨v, hv, hvnext⟩
  | cons b as ih =>
    obtain ⟨hp, x, hx, hrest⟩ := hc
    obtain ⟨hnew, hnodup⟩ := List.nodup_cons.mp hnodup
    obtain ⟨hb, has⟩ := List.forall_mem_cons.mp hcell
    obtain ⟨y, hy, hnext⟩ := hb x hx
    have hne : b ≠ d := by
      rintro rfl
      exact hnew (List.mem_append_right _ List.mem_cons_self)
    rw [if_neg hne] at hnext
    refine ⟨hp, y, hy, ?_⟩
    rw [hnext]
    exact ih hrest hnodup has

/-- Head and tail of a linked queue. -/
structure Linked (next : α → Option Nat) (h : Heap α) (head tail : Option Nat) (as : List Nat) : Prop where
  chain : Chain next h head as
  tail_eq : tail = as.getLast?

theorem Linked.nil : Linked next h none none [] := ⟨rfl, rfl⟩

theorem Linked.congr {head tail : Option Nat} {as : List Nat} (hl : Linked next h head tail as)
    (hcell : ∀ a ∈ as, h'.cell a = h.cell a) : Linked next h' head tail as :=
  ⟨hl.chain.congr hcell, hl.tail_eq⟩

end Heap
