import Mathlib.Algebra.BigOperators.Ring.Finset
import Mathlib.Algebra.Order.BigOperators.Group.Finset
import Mathlib.Algebra.Order.Ring.Int

/-! Loads that are shared fairly: those who have least are served first. -/
namespace FairShare
variable {ι : Type*} {s chosen : Finset ι} {load : ι → ℤ}

/-- No load is ahead of another by more than one. -/
def Balanced (s : Finset ι) (load : ι → ℤ) : Prop := ∀ i ∈ s, ∀ j ∈ s, load i ≤ load j + 1

/-- Those chosen have no more than the others. -/
structure Least (s chosen : Finset ι) (load : ι → ℤ) : Prop where
  subset : chosen ⊆ s
  le : ∀ i ∈ chosen, ∀ j ∈ s, j ∉ chosen → load i ≤ load j

theorem Balanced.of_eq (h : ∀ i ∈ s, ∀ j ∈ s, load i = load j) : Balanced s load :=
  fun i hi j hj => (h i hi j hj).le.trans (Int.le_add_one le_rfl)

variable [DecidableEq ι]

/-- Each of those chosen has one more. -/
def serve (chosen : Finset ι) (load : ι → ℤ) (i : ι) : ℤ := if i ∈ chosen then load i + 1 else load i

theorem serve_of_mem {i : ι} (h : i ∈ chosen) : serve chosen load i = load i + 1 := if_pos h

theorem serve_of_notMem {i : ι} (h : i ∉ chosen) : serve chosen load i = load i := if_neg h

/-- Serving those who have least keeps the loads balanced. -/
theorem Balanced.serve (h : Balanced s load) (hleast : Least s chosen load) : Balanced s (serve chosen load) := by
  intro i hi j hj
  have hij := h i hi j hj
  by_cases hic : i ∈ chosen <;> by_cases hjc : j ∈ chosen
  · rw [serve_of_mem hic, serve_of_mem hjc]
    omega
  · rw [serve_of_mem hic, serve_of_notMem hjc]
    have hle := hleast.le i hic j hj hjc
    omega
  · rw [serve_of_notMem hic, serve_of_mem hjc]
    omega
  · rw [serve_of_notMem hic, serve_of_notMem hjc]
    exact hij

theorem sum_serve (hsubset : chosen ⊆ s) : ∑ i ∈ s, serve chosen load i = ∑ i ∈ s, load i + chosen.card := by
  have hsplit (i : ι) : serve chosen load i = load i + if i ∈ chosen then 1 else 0 := by
    unfold serve
    split_ifs
    · rfl
    · exact (add_zero _).symm
  rw [Finset.sum_congr rfl fun i _ => hsplit i, Finset.sum_add_distrib, Finset.sum_boole]
  rw [Finset.filter_mem_eq_inter, Finset.inter_eq_right.mpr hsubset]

/-- As long as the loads would fit under a bound if they were spread evenly, nobody chosen has reached it. -/
theorem Balanced.lt_of_sum_le (h : Balanced s load) (hleast : Least s chosen load) {bound : ℤ}
    (hsum : ∑ i ∈ s, load i + chosen.card ≤ s.card * bound) {i : ι} (hi : i ∈ chosen) : load i < bound := by
  by_contra hreached
  have hall : ∀ j ∈ s, bound ≤ FairShare.serve chosen load j := by
    intro j hj
    by_cases hjc : j ∈ chosen
    · rw [serve_of_mem hjc]
      have hij := h i (hleast.subset hi) j hj
      omega
    · rw [serve_of_notMem hjc]
      have hij := hleast.le i hi j hj hjc
      omega
  have hmore : bound < FairShare.serve chosen load i := by
    rw [serve_of_mem hi]
    omega
  have hlt : ∑ _j ∈ s, bound < ∑ j ∈ s, FairShare.serve chosen load j :=
    Finset.sum_lt_sum hall ⟨i, hleast.subset hi, hmore⟩
  rw [Finset.sum_const, nsmul_eq_mul, sum_serve hleast.subset] at hlt
  omega

end FairShare
