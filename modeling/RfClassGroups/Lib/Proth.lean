import Mathlib.FieldTheory.Finite.Basic
import Mathlib.GroupTheory.OrderOfElement

/-! Proth's criterion: a witness of order `2 ^ k` modulo every prime factor
forces a number `t * 2 ^ k + 1` with `t < 2 ^ k` to be prime. -/

namespace Proth

theorem two_pow_dvd_of_dvd {p t k a : ℕ} [Fact p.Prime] (hp : p ∣ t * 2 ^ (k + 1) + 1)
    (h : (a : ZMod (t * 2 ^ (k + 1) + 1)) ^ (t * 2 ^ k) = -1) : 2 ^ (k + 1) ∣ p - 1 := by
  have hneg : (a : ZMod p) ^ (t * 2 ^ k) = -1 := by
    have hh := congrArg (ZMod.castHom hp (ZMod p)) h
    rwa [map_pow, map_natCast, map_neg, map_one] at hh
  have hodd : (1 : ZMod p) ≠ -1 := by
    intro h1
    have h2 : ((2 : ℕ) : ZMod p) = 0 := by
      have hh := add_eq_zero_iff_eq_neg.mpr h1
      rwa [one_add_one_eq_two, ← Nat.cast_two] at hh
    have hd : p ∣ 2 := (ZMod.natCast_eq_zero_iff 2 p).mp h2
    have hp1 : p ∣ 1 := by
      refine (Nat.dvd_add_right ?_).mp hp
      exact hd.trans (dvd_mul_of_dvd_right (dvd_pow_self 2 k.succ_ne_zero) t)
    exact (Fact.out : p.Prime).one_lt.ne' (Nat.dvd_one.mp hp1)
  have hone : ((a : ZMod p) ^ t) ^ 2 ^ (k + 1) = 1 := by
    rw [pow_succ 2 k, pow_mul, ← pow_mul _ t, hneg, neg_one_sq]
  have hnot : ¬ ((a : ZMod p) ^ t) ^ 2 ^ k = 1 := by
    rw [← pow_mul, hneg]
    exact hodd.symm
  have hord : orderOf ((a : ZMod p) ^ t) = 2 ^ (k + 1) := orderOf_eq_prime_pow hnot hone
  rw [← hord]
  refine ZMod.orderOf_dvd_card_sub_one fun h0 => ?_
  rw [h0, zero_pow (by positivity)] at hone
  exact zero_ne_one hone

theorem prime_of_pow_eq_neg_one {n t k a : ℕ} (hn : n = t * 2 ^ (k + 1) + 1) (ht : 0 < t)
    (hk : t < 2 ^ (k + 1)) (h : (a : ZMod n) ^ (t * 2 ^ k) = -1) : n.Prime := by
  subst hn
  by_contra hn
  have hpos : 0 < t * 2 ^ (k + 1) := by positivity
  have hne : t * 2 ^ (k + 1) + 1 ≠ 1 := by omega
  have : Fact (Nat.minFac (t * 2 ^ (k + 1) + 1)).Prime := ⟨Nat.minFac_prime hne⟩
  have hsq := Nat.minFac_sq_le_self (by omega) hn
  have hd := two_pow_dvd_of_dvd (Nat.minFac_dvd _) h
  have hp := (Nat.minFac_prime hne).two_le
  have hle : 2 ^ (k + 1) + 1 ≤ Nat.minFac (t * 2 ^ (k + 1) + 1) := by
    have := Nat.le_of_dvd (by omega) hd
    omega
  have hlt : t * 2 ^ (k + 1) + 1 < (2 ^ (k + 1) + 1) ^ 2 := by nlinarith
  exact absurd (hlt.trans_le ((Nat.pow_le_pow_left hle 2).trans hsq)) (lt_irrefl _)

end Proth
