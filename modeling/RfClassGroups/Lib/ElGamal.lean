import Mathlib.GroupTheory.OrderOfElement

/-! Additive ElGamal encryption in a commutative group: `h` carries the
randomness and `f` the message. -/

namespace ElGamal

variable {G : Type*} [CommGroup G]

/-- The encryption of `m` under the key `K` with randomness `r`. -/
def enc (h f K : G) (m r : ℤ) : G × G := (h ^ r, f ^ m * K ^ r)

def shift (c : G × G) (ρ : ℤ) : G × G := (c.1, c.2 * c.1 ^ ρ)

variable (h f K : G)

theorem enc_mul (m m' r r' : ℤ) :
    enc h f K m r * enc h f K m' r' = enc h f K (m + m') (r + r') := by
  simp only [enc, Prod.mk_mul_mk, zpow_add]
  rw [mul_mul_mul_comm]

theorem enc_zpow (m r a : ℤ) : enc h f K m r ^ a = enc h f K (m * a) (r * a) := by
  simp only [enc, Prod.pow_mk, mul_zpow, zpow_mul]

theorem shift_enc (m r ρ : ℤ) : shift (enc h f K m r) ρ = enc h f (K * h ^ ρ) m r := by
  simp only [shift, enc]
  rw [mul_zpow, ← zpow_mul, ← zpow_mul, mul_comm r ρ, mul_assoc]

theorem shift_enc_neg (m r ρ : ℤ) : shift (enc h f (K * h ^ ρ) m r) (-ρ) = enc h f K m r := by
  rw [shift_enc, zpow_neg, mul_inv_cancel_right]

def unmask (c : G × G) (e : ℤ) : G := c.2 / c.1 ^ e

theorem unmask_mul (c d : G × G) (e : ℤ) : unmask (c * d) e = unmask c e * unmask d e := by
  simp only [unmask, Prod.snd_mul, Prod.fst_mul, mul_zpow]
  rw [mul_div_mul_comm]

theorem unmask_shift (c : G × G) (e ρ : ℤ) : unmask (shift c ρ) (e + ρ) = unmask c e := by
  simp only [unmask, shift, zpow_add]
  rw [mul_div_mul_right_eq_div]

theorem enc_unmask (sk m r : ℤ) : unmask (enc h f (h ^ sk) m r) sk = f ^ m := by
  rw [unmask]
  simp only [enc]
  rw [← zpow_mul, ← zpow_mul, mul_comm r sk, mul_div_cancel_right]

/-- The message counts modulo the order of its base, the randomness and the
exponent of the key modulo the order of theirs. -/
theorem enc_congr {q : ℕ} (hf : orderOf f = q) {sk sk' m m' r r' : ℤ} (hm : m ≡ m' [ZMOD q])
    (hs : sk ≡ sk' [ZMOD orderOf h]) (hr : r ≡ r' [ZMOD orderOf h]) :
    enc h f (h ^ sk) m r = enc h f (h ^ sk') m' r' := by
  have hrr : h ^ r = h ^ r' := zpow_eq_zpow_iff_modEq.mpr hr
  have hmm : f ^ m = f ^ m' := zpow_eq_zpow_iff_modEq.mpr (hf ▸ hm)
  have hss : (h ^ sk) ^ r = (h ^ sk') ^ r' := by
    rw [← zpow_mul, ← zpow_mul]
    exact zpow_eq_zpow_iff_modEq.mpr (hs.mul hr)
  simp only [enc, hrr, hmm, hss]

end ElGamal
