import Mathlib.Algebra.BigOperators.Group.Finset.Basic
import Mathlib.Algebra.BigOperators.Ring.Finset
import Mathlib.Order.Interval.Finset.Nat
import Mathlib.Tactic.Ring

/-! A binary tree over `n` leaves whose unpaired last node is carried up: the
leaves below node `i` of level `k`, and products and weighted sums over them. -/

namespace Chunk

/-- The leaves below node `i` of level `k`. -/
def leaves (n k i : ℕ) : Finset ℕ := Finset.Ico (i * 2 ^ k) (min n ((i + 1) * 2 ^ k))

def size (n : ℕ) : ℕ → ℕ
  | 0 => n
  | k + 1 => (size n k + 1) / 2

theorem mem_leaves {n k i j : ℕ} :
    j ∈ leaves n k i ↔ i * 2 ^ k ≤ j ∧ j < n ∧ j < (i + 1) * 2 ^ k := by
  rw [leaves, Finset.mem_Ico, lt_min_iff]

theorem leaves_subset (n k i : ℕ) : leaves n k i ⊆ Finset.range n := by
  intro j hj
  rw [mem_leaves] at hj
  exact Finset.mem_range.mpr hj.2.1

theorem leaves_zero {n i : ℕ} (hi : i < n) : leaves n 0 i = {i} := by
  ext j
  rw [mem_leaves, Finset.mem_singleton]
  omega

theorem leaves_succ (n k i : ℕ) :
    leaves n (k + 1) i = leaves n k (2 * i) ∪ leaves n k (2 * i + 1) := by
  ext j
  rw [Finset.mem_union, mem_leaves, mem_leaves, mem_leaves, pow_succ]
  have h0 : i * (2 ^ k * 2) = 2 * i * 2 ^ k := by ring
  have h1 : (i + 1) * (2 ^ k * 2) = (2 * i + 1 + 1) * 2 ^ k := by ring
  have h2 : 2 * i * 2 ^ k ≤ (2 * i + 1) * 2 ^ k := Nat.mul_le_mul_right _ (by omega)
  have h3 : (2 * i + 1) * 2 ^ k ≤ (2 * i + 1 + 1) * 2 ^ k := Nat.mul_le_mul_right _ (by omega)
  omega

theorem leaves_disjoint (n k i : ℕ) :
    Disjoint (leaves n k (2 * i)) (leaves n k (2 * i + 1)) := by
  rw [Finset.disjoint_left]
  intro j hj hj'
  rw [mem_leaves] at hj hj'
  omega

theorem lt_size_iff (n k i : ℕ) : i < size n k ↔ i * 2 ^ k < n := by
  induction k generalizing i with
  | zero => simp [size]
  | succ k ih =>
    have hh := ih (2 * i)
    have h0 : i * 2 ^ (k + 1) = 2 * i * 2 ^ k := by rw [pow_succ]; ring
    rw [size, h0, ← hh]
    omega

theorem leaves_of_size_le {n k i : ℕ} (h : size n k ≤ i) : leaves n k i = ∅ := by
  have hh := (lt_size_iff n k i).not.mp (not_lt.mpr h)
  refine Finset.eq_empty_of_forall_notMem fun j hj => ?_
  rw [mem_leaves] at hj
  omega

theorem leaves_top {n k : ℕ} (h : size n k ≤ 1) : leaves n k 0 = Finset.range n := by
  have hh := (lt_size_iff n k 1).not.mp (by omega)
  ext j
  rw [mem_leaves, Finset.mem_range]
  omega

section

variable {M : Type*} [CommMonoid M]

theorem prod_leaves_succ (n k i : ℕ) (f : ℕ → M) :
    ∏ j ∈ leaves n (k + 1) i, f j =
      (∏ j ∈ leaves n k (2 * i), f j) * ∏ j ∈ leaves n k (2 * i + 1), f j := by
  rw [leaves_succ, Finset.prod_union (leaves_disjoint n k i)]

end

section

variable {R : Type*} [CommSemiring R]

/-- The weighted sum of the products that leave one factor out. -/
def leaveOneOut (w f : ℕ → R) (s : Finset ℕ) : R := ∑ j ∈ s, w j * ∏ l ∈ s.erase j, f l

theorem leaveOneOut_empty (w f : ℕ → R) : leaveOneOut w f ∅ = 0 := Finset.sum_empty

theorem leaveOneOut_singleton (w f : ℕ → R) (i : ℕ) : leaveOneOut w f {i} = w i := by
  simp [leaveOneOut]

theorem prod_erase_union {s t : Finset ℕ} (h : Disjoint s t) (f : ℕ → R) {j : ℕ} (hj : j ∈ s) :
    ∏ l ∈ (s ∪ t).erase j, f l = (∏ l ∈ s.erase j, f l) * ∏ l ∈ t, f l := by
  have hjt : j ∉ t := Finset.disjoint_left.mp h hj
  rw [Finset.erase_union_distrib, Finset.erase_eq_of_notMem hjt,
    Finset.prod_union (h.mono_left (Finset.erase_subset j s))]

theorem leaveOneOut_union (w f : ℕ → R) {s t : Finset ℕ} (h : Disjoint s t) :
    leaveOneOut w f (s ∪ t) =
      leaveOneOut w f s * ∏ l ∈ t, f l + leaveOneOut w f t * ∏ l ∈ s, f l := by
  rw [leaveOneOut, Finset.sum_union h, leaveOneOut, leaveOneOut, Finset.sum_mul, Finset.sum_mul]
  congr 1
  · refine Finset.sum_congr rfl fun j hj => ?_
    rw [prod_erase_union h f hj, mul_assoc]
  · refine Finset.sum_congr rfl fun j hj => ?_
    rw [Finset.union_comm, prod_erase_union h.symm f hj, mul_assoc]

theorem leaveOneOut_leaves_succ (n k i : ℕ) (w f : ℕ → R) :
    leaveOneOut w f (leaves n (k + 1) i) =
      leaveOneOut w f (leaves n k (2 * i)) * ∏ j ∈ leaves n k (2 * i + 1), f j +
        leaveOneOut w f (leaves n k (2 * i + 1)) * ∏ j ∈ leaves n k (2 * i), f j := by
  rw [leaves_succ, leaveOneOut_union w f (leaves_disjoint n k i)]

end

end Chunk
