import Mathlib.Algebra.BigOperators.Intervals
import Mathlib.LinearAlgebra.Lagrange

/-! Interpolation at consecutive integers: the products that leave one node
out, split into a prefix and a suffix, and their value at that node. -/

open Polynomial

namespace Barycentric

section

variable {M : Type*} [CommMonoid M]

theorem prod_erase_range {n i : ℕ} (hi : i < n) (f : ℕ → M) :
    ∏ j ∈ (Finset.range n).erase i, f j =
      (∏ j ∈ Finset.range i, f j) * ∏ j ∈ Finset.Ico (i + 1) n, f j := by
  have hset : (Finset.range n).erase i = Finset.range i ∪ Finset.Ico (i + 1) n := by
    ext j
    rw [Finset.mem_erase, Finset.mem_union, Finset.mem_range, Finset.mem_range, Finset.mem_Ico]
    omega
  have hdis : Disjoint (Finset.range i) (Finset.Ico (i + 1) n) := by
    rw [Finset.disjoint_left]
    intro j hj hj'
    rw [Finset.mem_range] at hj
    rw [Finset.mem_Ico] at hj'
    omega
  rw [hset, Finset.prod_union hdis]

end

section

variable {R : Type*} [CommRing R]

theorem prod_range_sub (i : ℕ) :
    ∏ j ∈ Finset.range i, (((i + 1 : ℕ) : R) - ((j + 1 : ℕ) : R)) = (i.factorial : R) := by
  rw [← Finset.prod_range_reflect, ← Finset.prod_range_add_one_eq_factorial, Nat.cast_prod]
  refine Finset.prod_congr rfl fun j hj => ?_
  have hj' := Finset.mem_range.mp hj
  have hsplit : i + 1 = (j + 1) + (i - 1 - j + 1) := by omega
  rw [hsplit, Nat.cast_add, add_sub_cancel_right]

theorem prod_Ico_sub (n i : ℕ) :
    ∏ j ∈ Finset.Ico (i + 1) n, (((i + 1 : ℕ) : R) - ((j + 1 : ℕ) : R)) =
      (-1) ^ (n - 1 - i) * ((n - 1 - i).factorial : R) := by
  have hlen : n - (i + 1) = n - 1 - i := by omega
  rw [Finset.prod_Ico_eq_prod_range, hlen, ← Finset.prod_range_add_one_eq_factorial,
    Nat.cast_prod]
  have hneg : ∀ j ∈ Finset.range (n - 1 - i),
      ((i + 1 : ℕ) : R) - ((i + 1 + j + 1 : ℕ) : R) = -1 * ((j + 1 : ℕ) : R) := by
    intro j _
    rw [add_assoc (i + 1), Nat.cast_add (i + 1)]
    ring
  rw [Finset.prod_congr rfl hneg, Finset.prod_mul_distrib, Finset.prod_const, Finset.card_range]

theorem prod_erase_sub {n i : ℕ} (hi : i < n) :
    ∏ j ∈ (Finset.range n).erase i, (((i + 1 : ℕ) : R) - ((j + 1 : ℕ) : R)) =
      (i.factorial : R) * ((-1) ^ (n - 1 - i) * ((n - 1 - i).factorial : R)) := by
  rw [prod_erase_range hi, prod_range_sub, prod_Ico_sub]

end

section

variable {F : Type*} [Field F]

/-- The value of the interpolant as a weighted sum of prefix and suffix products. -/
theorem eval_interpolate (n : ℕ) (v r : ℕ → F) (x : F) :
    (Lagrange.interpolate (Finset.range n) v r).eval x =
      ∑ i ∈ Finset.range n, r i / (∏ j ∈ (Finset.range n).erase i, (v i - v j)) *
        ((∏ j ∈ Finset.range i, (x - v j)) * ∏ j ∈ Finset.Ico (i + 1) n, (x - v j)) := by
  rw [Lagrange.interpolate_eq_sum, eval_finsetSum]
  refine Finset.sum_congr rfl fun i hi => ?_
  rw [eval_mul, eval_C, eval_prod, prod_erase_range (Finset.mem_range.mp hi)
    (fun j => eval x (X - C (v j)))]
  simp

theorem prod_erase_sub_ne_zero {n : ℕ} {v : ℕ → F}
    (hv : ∀ i < n, ∀ j < n, v i = v j → i = j) {i : ℕ} (hi : i < n) :
    ∏ j ∈ (Finset.range n).erase i, (v i - v j) ≠ 0 := by
  refine Finset.prod_ne_zero_iff.mpr fun j hj => sub_ne_zero.mpr fun h => ?_
  obtain ⟨hne, hmem⟩ := Finset.mem_erase.mp hj
  exact hne (hv i hi j (Finset.mem_range.mp hmem) h).symm

end

end Barycentric
