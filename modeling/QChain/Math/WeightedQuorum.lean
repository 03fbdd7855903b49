import Mathlib

/-!
# Intersection of weighted quorums

Three subsets of a finite weighted universe that each weigh more than two thirds of
it share a point. With two quorums and a set of correct members this is the
intersection argument of Byzantine agreement, for arbitrary weights.
-/

namespace QChain

open Finset

namespace WeightedQuorum

open scoped BigOperators

variable {ι : Type*} [DecidableEq ι] {w : ι → ℕ} {U : Finset ι}

/-- A subset and what it leaves out weigh as much as the universe. -/
theorem sum_add_sum_sdiff {S : Finset ι} (hS : S ⊆ U) :
    ∑ i ∈ S, w i + ∑ i ∈ U \ S, w i = ∑ i ∈ U, w i := by
  rw [add_comm]
  exact sum_sdiff hS

theorem sum_union_le (S T : Finset ι) : ∑ i ∈ S ∪ T, w i ≤ ∑ i ∈ S, w i + ∑ i ∈ T, w i := by
  rw [← sum_union_inter]
  exact Nat.le_add_right _ _

/-- A set without common points is covered by the complements of the three. -/
theorem sum_le_sum_sdiff_of_inter_eq_empty {S T H : Finset ι} (h : S ∩ T ∩ H = ∅) :
    ∑ i ∈ U, w i ≤ ∑ i ∈ U \ S, w i + ∑ i ∈ U \ T, w i + ∑ i ∈ U \ H, w i := by
  have hcover : U ⊆ (U \ S ∪ U \ T) ∪ U \ H := by
    intro i hi
    have hout : ¬ (i ∈ S ∧ i ∈ T ∧ i ∈ H) := by
      rintro ⟨hS, hT, hH⟩
      have hmem : i ∈ S ∩ T ∩ H := by simp [hS, hT, hH]
      rw [h] at hmem
      exact absurd hmem (notMem_empty i)
    simp only [mem_union, mem_sdiff, hi, true_and]
    tauto
  calc ∑ i ∈ U, w i
      ≤ ∑ i ∈ (U \ S ∪ U \ T) ∪ U \ H, w i := sum_le_sum_of_subset hcover
    _ ≤ ∑ i ∈ U \ S ∪ U \ T, w i + ∑ i ∈ U \ H, w i := sum_union_le _ _
    _ ≤ ∑ i ∈ U \ S, w i + ∑ i ∈ U \ T, w i + ∑ i ∈ U \ H, w i :=
        Nat.add_le_add_right (sum_union_le _ _) _

/-- Three sets of more than two thirds of the weight have a common point. -/
theorem exists_mem_inter {S T H : Finset ι} (hSU : S ⊆ U) (hTU : T ⊆ U) (hHU : H ⊆ U)
    (hS : 2 * ∑ i ∈ U, w i < 3 * ∑ i ∈ S, w i) (hT : 2 * ∑ i ∈ U, w i < 3 * ∑ i ∈ T, w i)
    (hH : 2 * ∑ i ∈ U, w i < 3 * ∑ i ∈ H, w i) : ∃ i, i ∈ S ∧ i ∈ T ∧ i ∈ H := by
  by_contra hno
  have hempty : S ∩ T ∩ H = ∅ := by
    rw [eq_empty_iff_forall_notMem]
    intro i hi
    simp only [mem_inter] at hi
    exact hno ⟨i, hi.1.1, hi.1.2, hi.2⟩
  have hcover := sum_le_sum_sdiff_of_inter_eq_empty (w := w) (U := U) hempty
  have h₁ := sum_add_sum_sdiff (w := w) hSU
  have h₂ := sum_add_sum_sdiff (w := w) hTU
  have h₃ := sum_add_sum_sdiff (w := w) hHU
  omega

end WeightedQuorum

end QChain
