import Mathlib.Algebra.Field.Basic
import Mathlib.Algebra.Ring.Commute
import Mathlib.Tactic.LinearCombination
import Mathlib.Tactic.Ring

/-! The rounds of the square root of Tonelli and Shanks, over a field. -/

/-- The invariant of the loop: `r` is a root of `t s`, and the orders of `t` and `c` are
powers of two that `M` bounds. -/
structure TonelliShanks {F : Type*} [Field F] (s : F) (M : ℕ) (c t r : F) : Prop where
  pos : 1 ≤ M
  root : r * r = t * s
  order : t ^ 2 ^ (M - 1) = 1
  generator : c ^ 2 ^ (M - 1) = -1

namespace TonelliShanks

variable {F : Type*} [Field F] {s c t r : F} {M : ℕ}

/-- The state before the first round, from an element that is no square. -/
theorem start {z : F} {Q : ℕ} (hpos : 1 ≤ M) (hQ : Q % 2 = 1) (hs : s ^ (Q * 2 ^ (M - 1)) = 1)
    (hz : z ^ (Q * 2 ^ (M - 1)) = -1) :
    TonelliShanks s M (z ^ Q) (s ^ Q) (s ^ ((Q + 1) / 2)) where
  pos := hpos
  root := by
    rw [← pow_add, ← pow_succ]
    congr 1
    omega
  order := by rw [← pow_mul, hs]
  generator := by rw [← pow_mul, hz]

theorem pow_two_pow_succ (x : F) (i : ℕ) : x ^ 2 ^ (i + 1) = x ^ 2 ^ i * x ^ 2 ^ i := by
  rw [pow_succ, pow_mul, pow_two]

/-- A round at the exponent of the order of `t`. -/
theorem step (h : TonelliShanks s M c t r) {i : ℕ} (hi : t ^ 2 ^ i = 1)
    (hlow : ∀ j < i, t ^ 2 ^ j ≠ 1) (ht : t ≠ 1) {b : F} (hb : b = c ^ 2 ^ (M - i - 1)) :
    i < M ∧ TonelliShanks s i (b * b) (t * (b * b)) (r * b) := by
  have hpos := h.pos
  have hle : i ≤ M - 1 := by
    by_contra hlt
    exact hlow (M - 1) (by omega) h.order
  obtain ⟨k, rfl⟩ : ∃ k, i = k + 1 := by
    cases i with
    | zero => exact absurd (by simpa using hi) ht
    | succ k => exact ⟨k, rfl⟩
  have hminus : t ^ 2 ^ k = -1 := by
    rw [pow_two_pow_succ] at hi
    exact (mul_self_eq_one_iff.mp hi).resolve_left (hlow k (by omega))
  have hgen : (b * b) ^ 2 ^ k = -1 := by
    rw [hb, ← pow_two_pow_succ, ← pow_mul, ← pow_add, ← h.generator]
    congr 2
    omega
  refine ⟨by omega, ⟨by omega, ?_, ?_, hgen⟩⟩
  · linear_combination b * b * h.root
  · rw [Nat.add_sub_cancel, mul_pow, hminus, hgen]
    ring

end TonelliShanks
