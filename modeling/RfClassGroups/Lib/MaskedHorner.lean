import Mathlib.Algebra.BigOperators.Ring.Finset
import Mathlib.Algebra.Ring.Basic
import Mathlib.Tactic.LinearCombination
import Mathlib.Tactic.Ring

/-! Horner's rule on coefficients counted from the top, and its masked form: each
transition enters with the mask of the one before and leaves with a new one. -/

namespace MaskedHorner

variable {R : Type*} [CommRing R] (c : ℕ → R) (x : R)

def horner : ℕ → R
  | 0 => c 0
  | k + 1 => horner k * x + c (k + 1)

/-- What enters transition `k` when transition `i` leaves with `ρ i`. -/
def chain (ρ : ℕ → R) : ℕ → R
  | 0 => c 0
  | k + 1 => ρ k

def output (ρ : ℕ → R) (k : ℕ) : R := chain c ρ k * x + c (k + 1) - ρ k

def unmask (y : ℕ → R) : ℕ → R
  | 0 => 0
  | k + 1 => y k + x * unmask y k

theorem unmask_congr {y y' : ℕ → R} {n : ℕ} (h : ∀ k < n, y k = y' k) :
    unmask x y n = unmask x y' n := by
  induction n with
  | zero => rfl
  | succ n ih => rw [unmask, unmask, h n n.lt_succ_self, ih fun k hk => h k (hk.trans n.lt_succ_self)]

/-- The folded state and the running mask add up to the state of Horner's rule. -/
theorem unmask_add_chain (ρ : ℕ → R) (k : ℕ) :
    unmask x (output c x ρ) k + chain c ρ k = horner c x k := by
  induction k with
  | zero => rw [unmask, chain, horner, zero_add]
  | succ k ih =>
    calc unmask x (output c x ρ) (k + 1) + chain c ρ (k + 1)
        = (unmask x (output c x ρ) k + chain c ρ k) * x + c (k + 1) := by
          rw [unmask, output, chain]
          ring
      _ = horner c x (k + 1) := by rw [ih, horner]

theorem unmask_last (ρ : ℕ → R) (k : ℕ) :
    chain c ρ k * x + c (k + 1) + x * unmask x (output c x ρ) k = horner c x (k + 1) := by
  rw [horner, ← unmask_add_chain c x ρ k]
  ring

theorem horner_eq_sum (n : ℕ) :
    horner c x n = ∑ j ∈ Finset.range (n + 1), c (n - j) * x ^ j := by
  induction n with
  | zero => simp [horner]
  | succ n ih =>
    rw [horner, ih, Finset.sum_range_succ' _ (n + 1), Finset.sum_mul]
    congr 1
    · refine Finset.sum_congr rfl fun j _ => ?_
      rw [show n + 1 - (j + 1) = n - j by omega]
      ring
    · simp

def enter (y : ℕ → R) : ℕ → R
  | 0 => c 0
  | k + 1 => enter y k * x + c (k + 1) - y k

theorem chain_eq_enter {ρ y : ℕ → R} {n : ℕ} (h : ∀ k < n, output c x ρ k = y k) {k : ℕ}
    (hk : k ≤ n) : chain c ρ k = enter c x y k := by
  induction k with
  | zero => rfl
  | succ k ih =>
    have hy := h k hk
    have hc := ih (Nat.le_of_succ_le hk)
    rw [output, hc] at hy
    show ρ k = enter c x y k * x + c (k + 1) - y k
    linear_combination -hy

theorem mask_eq_enter {ρ y : ℕ → R} {n : ℕ} (h : ∀ k < n, output c x ρ k = y k) {k : ℕ}
    (hk : k < n) : ρ k = enter c x y (k + 1) :=
  chain_eq_enter c x h hk

theorem output_enter {ρ y : ℕ → R} {n : ℕ} (h : ∀ k < n, ρ k = enter c x y (k + 1)) {k : ℕ}
    (hk : k < n) : output c x ρ k = y k := by
  have hc : chain c ρ k = enter c x y k := by
    cases k with
    | zero => rfl
    | succ k => exact h k (Nat.lt_of_succ_lt hk)
  rw [output, hc, h k hk, enter]
  ring

end MaskedHorner
